import Mathlib.Data.List.Perm.Subperm
import TinchPp.MailboxClosing

/-!
# Complete closes

A close of a mailbox is complete if every linked pid that can be told has been told exactly once,
and neither table refers to the mailbox nor any link mentions it afterwards. The loop over the
linked pids stops at the first notification that raises, so what comes after it is not done.

That the tables do not refer to the mailbox any more needs to know that its entries are under its
own pid and its own name. This is part of the invariant `Wf` of all nodes.

## Main results

* `Wf.step` — the invariant
* `Closing.isComplete_iff` — one close, exactly
* `closesCompletely_iff` — all closes of all runs
-/

namespace TinchPp

open EventSystem

namespace ActualNode

/-! ### Where the notifications go -/

/-- The broken links queued in a mailbox. -/
def brokenLinksOf (n : ActualNode) (h : Handle) : List (Str × EPid) :=
  match n.objects[h]? with
  | some o => o.contents.brokenLinks
  | none => []

/-- One exit message for each of the pids that is remote. -/
def remoteExits (fromPid : EPid) (reason : Str) (n : ActualNode) (pids : List EPid) :
    List (Str × ControlMsg) :=
  (pids.filter (·.nodeName ≠ n.nodeName)).map fun p => (p.nodeName, .exit2 fromPid p reason)

/-- One broken link for each of the pids that leads to the mailbox. -/
def localExits (fromPid : EPid) (reason : Str) (n : ActualNode) (pids : List EPid) (h : Handle) :
    List (Str × EPid) :=
  (pids.filter (n.resolve · = some h)).map fun _ => (reason, fromPid)

theorem remoteExits_cons (fromPid : EPid) (reason : Str) (n : ActualNode) (p : EPid)
    (pids : List EPid) : remoteExits fromPid reason n (p :: pids) =
      remoteExits fromPid reason n [p] ++ remoteExits fromPid reason n pids := by
  rw [← List.singleton_append, remoteExits, List.filter_append, List.map_append]
  rfl

theorem localExits_cons (fromPid : EPid) (reason : Str) (n : ActualNode) (p : EPid)
    (pids : List EPid) (h : Handle) : localExits fromPid reason n (p :: pids) h =
      localExits fromPid reason n [p] h ++ localExits fromPid reason n pids h := by
  rw [← List.singleton_append, localExits, List.filter_append, List.map_append]
  rfl

theorem requested_notified (fromPid : EPid) (reason : Str) (n : ActualNode) (p : EPid) :
    (n.notified fromPid reason p).requested = n.requested ++ remoteExits fromPid reason n [p] := by
  rw [notified, remoteExits]
  by_cases hp : p.nodeName ≠ n.nodeName
  · rw [if_pos hp, List.filter_cons_of_pos (by simpa using hp)]
    rfl
  · rw [if_neg hp, List.filter_cons_of_neg (by simpa using hp)]
    cases n.mailboxes p.key <;> exact (List.append_nil _).symm

theorem brokenLinksOf_onMailbox {n : ActualNode} {h : Handle} (hexp : n.isExpired h = false)
    (reason : Str) (fromPid : EPid) (h' : Handle) :
    (n.onMailbox h (.onLinkBroken reason fromPid)).brokenLinksOf h' =
      n.brokenLinksOf h' ++ if h = h' then [(reason, fromPid)] else [] := by
  rw [isExpired] at hexp
  by_cases hh : h = h'
  · subst hh
    rcases ho : n.objects[h]? with _ | o
    · rw [ho] at hexp
      exact absurd hexp (by simp)
    · simp [brokenLinksOf, onMailbox, ho]
  · rcases ho : n.objects[h']? with _ | o <;> simp [brokenLinksOf, onMailbox, ho, hh]

theorem brokenLinksOf_notified {net : Connections} {n : ActualNode} {p : EPid}
    (hp : notifiable net n p = true) (fromPid : EPid) (reason : Str) (h : Handle) :
    (n.notified fromPid reason p).brokenLinksOf h =
      n.brokenLinksOf h ++ localExits fromPid reason n [p] h := by
  rw [notifiable] at hp
  rw [notified, localExits]
  by_cases hremote : p.nodeName ≠ n.nodeName
  · have hresolve : n.resolve p = none := by rw [resolve, if_pos hremote]
    rw [if_pos hremote, List.filter_cons_of_neg (by simp [hresolve])]
    exact (List.append_nil _).symm
  · have hresolve : n.resolve p = n.mailboxes p.key := by rw [resolve, if_neg hremote]
    rw [if_neg hremote] at hp ⊢
    rcases hm : n.mailboxes p.key with _ | h'
    · simp [hm] at hp
    · have hexp : n.isExpired h' = false := by simpa [hm] using hp
      dsimp only
      rw [brokenLinksOf_onMailbox hexp]
      by_cases hh : h' = h
      · rw [if_pos hh, List.filter_cons_of_pos (by simp [hresolve, hm, hh])]
        rfl
      · rw [if_neg hh, List.filter_cons_of_neg (by simp [hresolve, hm, hh])]
        rfl

theorem SameTables.remoteExits {n n' : ActualNode} (h : SameTables n n') (fromPid : EPid)
    (reason : Str) (pids : List EPid) :
    remoteExits fromPid reason n' pids = remoteExits fromPid reason n pids := by
  rw [ActualNode.remoteExits, h.nodeName, ActualNode.remoteExits]

theorem SameTables.localExits {n n' : ActualNode} (hs : SameTables n n') (fromPid : EPid)
    (reason : Str) (pids : List EPid) (h : Handle) :
    localExits fromPid reason n' pids h = localExits fromPid reason n pids h := by
  simp only [ActualNode.localExits, hs.resolve]

/-- **The notifications that get through, all together.** -/
theorem requested_notifiedAll (fromPid : EPid) (reason : Str) (pids : List EPid) :
    ∀ n, (notifiedAll fromPid reason n pids).requested =
      n.requested ++ remoteExits fromPid reason n pids := by
  induction pids with
  | nil => exact fun n => (List.append_nil _).symm
  | cons p pids ih =>
    intro n
    have hsame := sameTables_notified fromPid reason n p
    rw [notifiedAll, List.foldl_cons]
    refine (ih _).trans ?_
    rw [requested_notified, hsame.remoteExits, remoteExits_cons fromPid reason n p pids,
      List.append_assoc]

theorem brokenLinksOf_notifiedAll {net : Connections} (fromPid : EPid) (reason : Str) (h : Handle)
    (pids : List EPid) : ∀ {n : ActualNode}, (∀ p ∈ pids, notifiable net n p = true) →
      (notifiedAll fromPid reason n pids).brokenLinksOf h =
        n.brokenLinksOf h ++ localExits fromPid reason n pids h := by
  induction pids with
  | nil => exact fun _ => (List.append_nil _).symm
  | cons p pids ih =>
    intro n hpids
    have hsame := sameTables_notified fromPid reason n p
    have hrest : ∀ q ∈ pids, notifiable net (n.notified fromPid reason p) q = true := by
      intro q hq
      rw [hsame.notifiable]
      exact hpids q (List.mem_cons_of_mem p hq)
    rw [notifiedAll, List.foldl_cons]
    refine (ih hrest).trans ?_
    rw [brokenLinksOf_notified (hpids p List.mem_cons_self), hsame.localExits,
      localExits_cons fromPid reason n p pids, List.append_assoc]

/-! ### The invariant -/

/-- The tables and the queue of the I/O thread are about the mailboxes they say they are about, and
no pair of pids is linked twice. -/
structure Wf (n : ActualNode) : Prop where
  filed : ∀ k h, n.mailboxes k = some h → ∃ o, n.objects[h]? = some o ∧ o.ownPid.key = k
  named : ∀ r h, n.registeredMailboxes r = some h → ∃ o, n.objects[h]? = some o ∧ o.ownName = r
  posted : ∀ p ∈ n.posted, ∃ o, n.objects[p.owner]? = some o ∧ o.ownPid = p.id ∧ o.ownName = p.name
  distinct : n.mailboxLinker.Distinct

/-- Every object is still there, with its pid and its name. -/
def Keeps (n n' : ActualNode) : Prop :=
  ∀ (h : Handle) (o : MailboxObject), n.objects[h]? = some o →
    ∃ o', n'.objects[h]? = some o' ∧ o'.ownPid = o.ownPid ∧ o'.ownName = o.ownName

theorem Keeps.refl (n : ActualNode) : Keeps n n := fun _ o ho => ⟨o, ho, rfl, rfl⟩

theorem Keeps.of_objects_eq {n n' : ActualNode} (h : n'.objects = n.objects) : Keeps n n' :=
  fun _ o ho => ⟨o, by rw [h]; exact ho, rfl, rfl⟩

theorem Keeps.trans {n n' n'' : ActualNode} (h : Keeps n n') (h' : Keeps n' n'') : Keeps n n'' := by
  intro i o ho
  obtain ⟨o', ho', hpid, hname⟩ := h i o ho
  obtain ⟨o'', ho'', hpid', hname'⟩ := h' i o' ho'
  exact ⟨o'', ho'', hpid'.trans hpid, hname'.trans hname⟩

theorem keeps_modify {n n' : ActualNode} {h : Handle} {f : MailboxObject → MailboxObject}
    (hn : n'.objects = n.objects.modify h f)
    (hf : ∀ o, (f o).ownPid = o.ownPid ∧ (f o).ownName = o.ownName) : Keeps n n' := by
  intro i o ho
  rw [hn, List.getElem?_modify, ho]
  by_cases hi : h = i
  · exact ⟨f o, by simp [hi], hf o⟩
  · exact ⟨o, by simp [hi], rfl, rfl⟩

theorem keeps_onMailbox (h : Handle) (act : ActualMailbox → ActualMailbox) (n : ActualNode) :
    Keeps n (n.onMailbox h act) :=
  keeps_modify rfl fun _ => ⟨rfl, rfl⟩

theorem keeps_expire (h : Handle) (n : ActualNode) : Keeps n (n.expire h) :=
  keeps_modify rfl fun _ => ⟨rfl, rfl⟩

/-- The entries of a table are entries of another one. -/
def Within {κ : Type} (table table' : κ → Option Handle) : Prop :=
  ∀ k h, table k = some h → table' k = some h

theorem within_erase {κ : Type} [DecidableEq κ] (key : κ) (table : κ → Option Handle) :
    Within (erase key table) table := by
  intro k h hk
  by_cases hkey : k = key
  · subst hkey
    rw [erase, Function.update_self] at hk
    exact absurd hk (by simp)
  · rwa [erase, Function.update_of_ne hkey] at hk

theorem within_fetchMailbox {κ : Type} [DecidableEq κ] (key : κ) (name : Str)
    (table : κ → Option Handle) (n : ActualNode) :
    Within (fetchMailbox key name table n).2 table := by
  rw [fetchMailbox]
  split
  · exact fun _ _ h => h
  · split
    · exact within_erase key table
    · exact fun _ _ h => h

/-- Nothing but a new mailbox adds to the tables. -/
theorem Wf.of_keeps {n n' : ActualNode} (hn : n.Wf) (hk : Keeps n n')
    (hm : Within n'.mailboxes n.mailboxes)
    (hr : Within n'.registeredMailboxes n.registeredMailboxes)
    (hp : ∀ p ∈ n'.posted, ∃ o, n.objects[p.owner]? = some o ∧ o.ownPid = p.id ∧ o.ownName = p.name)
    (hd : n'.mailboxLinker.Distinct) : n'.Wf where
  filed k h hkh := by
    obtain ⟨o, ho, hkey⟩ := hn.filed k h (hm k h hkh)
    obtain ⟨o', ho', hpid, -⟩ := hk h o ho
    exact ⟨o', ho', by rw [hpid, hkey]⟩
  named r h hrh := by
    obtain ⟨o, ho, hname⟩ := hn.named r h (hr r h hrh)
    obtain ⟨o', ho', -, hname'⟩ := hk h o ho
    exact ⟨o', ho', by rw [hname', hname]⟩
  posted p hpp := by
    obtain ⟨o, ho, hpid, hname⟩ := hp p hpp
    obtain ⟨o', ho', hpid', hname'⟩ := hk p.owner o ho
    exact ⟨o', ho', by rw [hpid', hpid], by rw [hname', hname]⟩
  distinct := hd

theorem keeps_notifiedAll (fromPid : EPid) (reason : Str) (pids : List EPid) :
    ∀ n, Keeps n (notifiedAll fromPid reason n pids) := by
  induction pids with
  | nil => exact .refl
  | cons p pids ih =>
    intro n
    have hone : Keeps n (n.notified fromPid reason p) := by
      rw [notified]
      split
      · exact .of_objects_eq rfl
      · split
        · exact keeps_onMailbox _ _ n
        · exact .refl n
    exact hone.trans (ih _)

theorem within_withoutExpired (n : ActualNode) (p : EPid) :
    Within (n.withoutExpired p).mailboxes n.mailboxes := by
  rw [withoutExpired]
  split
  · split
    · exact within_erase _ _
    · exact fun _ _ h => h
  · exact fun _ _ h => h

/-- A failing notification changes nothing else. -/
theorem withoutExpired_eq (n : ActualNode) (p : EPid) :
    n.withoutExpired p = { n with mailboxes := (n.withoutExpired p).mailboxes } := by
  rw [withoutExpired]
  split
  · split <;> rfl
  · rfl

/-- **A close keeps the invariant.** -/
theorem Wf.after {c : Closing} (hb : c.before.Wf) : c.after.Wf := by
  rcases all_notifiable_or_first c.net c.before c.linkedPids with
    hall | ⟨pre, p, rest, hl, hpre, hp⟩
  · have hsame := sameTables_notifiedAll c.id c.reason c.linkedPids c.detached
    have hkeeps : Keeps c.before (notifiedAll c.id c.reason c.detached c.linkedPids) :=
      keeps_notifiedAll c.id c.reason c.linkedPids c.detached
    rw [Closing.after_of_notifiable hall]
    refine hb.of_keeps hkeeps ?_ ?_ ?_ ?_
    · rw [remove, hsame.mailboxes]
      exact within_erase _ _
    · rw [remove, hsame.registeredMailboxes]
      exact within_erase _ _
    · rw [remove, hsame.posted]
      exact hb.posted
    · rw [remove, hsame.mailboxLinker]
      exact hb.distinct.removeLinksFrom c.id
  · have hsame := sameTables_notifiedAll c.id c.reason pre c.detached
    have hkeeps : Keeps c.before (notifiedAll c.id c.reason c.detached pre) :=
      keeps_notifiedAll c.id c.reason pre c.detached
    have hwithin := within_withoutExpired (notifiedAll c.id c.reason c.detached pre) p
    rw [Closing.after_of_not_notifiable hl hpre hp, withoutExpired_eq]
    refine hb.of_keeps hkeeps ?_ ?_ ?_ ?_
    · rwa [hsame.mailboxes] at hwithin
    · rw [hsame.registeredMailboxes]
      exact fun _ _ h => h
    · rw [hsame.posted]
      exact hb.posted
    · rw [hsame.mailboxLinker]
      exact hb.distinct.removeLinksFrom c.id

/-- The node a close starts from, and the mailbox it is meant for. -/
theorem Wf.before {n : ActualNode} {e : NodeEvent} {c : Closing} (hn : n.Wf)
    (hc : n.closing e = some c) : c.before.Wf ∧
      ∃ o, c.before.objects[c.handle]? = some o ∧ o.ownPid = c.id ∧ o.ownName = c.name := by
  cases e with
  | close h net =>
    obtain ⟨o, ho, rfl⟩ := Option.map_eq_some_iff.mp hc
    exact ⟨hn, o, (Option.filter_eq_some_iff.mp ho).1, rfl, rfl⟩
  | destroy h uncaughtException net =>
    cases uncaughtException with
    | false =>
      obtain ⟨o, ho, rfl⟩ := Option.map_eq_some_iff.mp hc
      have hkeeps := keeps_expire h n
      obtain ⟨o', ho', hpid, hname⟩ := hkeeps h o (Option.filter_eq_some_iff.mp ho).1
      exact ⟨hn.of_keeps hkeeps (fun _ _ h => h) (fun _ _ h => h) hn.posted hn.distinct,
        o', ho', hpid, hname⟩
    | true => simp [closing] at hc
  | runPosted net =>
    rw [closing] at hc
    split at hc
    · exact absurd hc (by simp)
    · next p posted hposted =>
      obtain rfl := Option.some_inj.mp hc
      refine ⟨hn.of_keeps (.refl n) (fun _ _ h => h) (fun _ _ h => h) (fun q hq => ?_) hn.distinct,
        hn.posted p (by rw [hposted]; exact List.mem_cons_self)⟩
      exact hn.posted q (by rw [hposted]; exact List.mem_cons_of_mem p hq)
  | _ => simp [closing] at hc

theorem eq_some_of_insertNew {κ : Type} [DecidableEq κ] {key k : κ} {h₀ h : Handle}
    {table : κ → Option Handle} (hk : insertNew key h₀ table k = some h) :
    table k = some h ∨ (k = key ∧ h = h₀) := by
  rw [insertNew] at hk
  split at hk
  · exact .inl hk
  · by_cases hkey : k = key
    · subst hkey
      rw [Function.update_self] at hk
      exact .inr ⟨rfl, (Option.some_inj.mp hk).symm⟩
    · rw [Function.update_of_ne hkey] at hk
      exact .inl hk

/-- An object that is there is not affected by a new one. -/
theorem getElem?_objects_of_new {n n' : ActualNode} {o o' : MailboxObject}
    (ho : n'.objects = n.objects ++ [o]) {h : Handle} (ho' : n.objects[h]? = some o') :
    n'.objects[h]? = some o' := by
  rw [ho, List.getElem?_append_left (List.getElem?_eq_some_iff.mp ho').1, ho']

/-- A new mailbox is entered, if at all, under its own pid and its own name. -/
theorem Wf.of_new {n n' : ActualNode} {o : MailboxObject} (hn : n.Wf)
    (ho : n'.objects = n.objects ++ [o])
    (hm : ∀ k h, n'.mailboxes k = some h →
      n.mailboxes k = some h ∨ (k = o.ownPid.key ∧ h = n.objects.length))
    (hr : ∀ r h, n'.registeredMailboxes r = some h →
      n.registeredMailboxes r = some h ∨ (r = o.ownName ∧ h = n.objects.length))
    (hp : n'.posted = n.posted) (hl : n'.mailboxLinker = n.mailboxLinker) : n'.Wf where
  filed k h hkh := by
    rcases hm k h hkh with hkh | ⟨rfl, rfl⟩
    · obtain ⟨o', ho', hkey⟩ := hn.filed k h hkh
      exact ⟨o', getElem?_objects_of_new ho ho', hkey⟩
    · exact ⟨o, by rw [ho, List.getElem?_concat_length], rfl⟩
  named r h hrh := by
    rcases hr r h hrh with hrh | ⟨rfl, rfl⟩
    · obtain ⟨o', ho', hname⟩ := hn.named r h hrh
      exact ⟨o', getElem?_objects_of_new ho ho', hname⟩
    · exact ⟨o, by rw [ho, List.getElem?_concat_length], rfl⟩
  posted p hpp := by
    rw [hp] at hpp
    obtain ⟨o', ho', hpid⟩ := hn.posted p hpp
    exact ⟨o', getElem?_objects_of_new ho ho', hpid⟩
  distinct := by
    rw [hl]
    exact hn.distinct

theorem wf_create (nodeName : Str) : (create nodeName).Wf where
  filed := by simp [create]
  named := by simp [create]
  posted := by simp [create]
  distinct := Linker.distinct_create

theorem Wf.createMailbox {n t : ActualNode} (hn : n.Wf) (h : n.createMailbox = some t) : t.Wf := by
  rw [ActualNode.createMailbox] at h
  dsimp only at h
  by_cases hnew : (n.mailboxes (n.newMailbox []).1.ownPid.key).isSome = true
  · rw [if_pos hnew] at h
    exact absurd h (by simp)
  · rw [if_neg hnew] at h
    obtain rfl := Option.some_inj.mp h
    exact hn.of_new rfl (fun _ _ => eq_some_of_insertNew) (fun _ _ => .inl) rfl rfl

theorem Wf.createMailboxNamed {n : ActualNode} (hn : n.Wf) (registeredName : Str) :
    (n.createMailboxNamed registeredName).Wf :=
  hn.of_new rfl (fun _ _ => eq_some_of_insertNew) (fun _ _ => eq_some_of_insertNew) rfl rfl

/-- Acting on a mailbox is none of the invariant's business. -/
theorem Wf.onMailbox {n : ActualNode} (hn : n.Wf) (h : Handle)
    (act : ActualMailbox → ActualMailbox) :
    (n.onMailbox h act).Wf :=
  hn.of_keeps (keeps_onMailbox h act n) (fun _ _ h => h) (fun _ _ h => h) hn.posted hn.distinct

/-- Nor is a change of the links that keeps them distinct. -/
theorem Wf.withLinker {n : ActualNode} (hn : n.Wf) {k : Linker} (hk : k.Distinct) :
    ({ n with mailboxLinker := k } : ActualNode).Wf :=
  hn.of_keeps (.of_objects_eq rfl) (fun _ _ h => h) (fun _ _ h => h) hn.posted hk

theorem Wf.incomingLink {n : ActualNode} (hn : n.Wf) (p q : EPid) : (n.incomingLink p q).Wf :=
  hn.withLinker (hn.distinct.link p q)

theorem Wf.incomingUnlink {n : ActualNode} (hn : n.Wf) (p q : EPid) : (n.incomingUnlink p q).Wf :=
  hn.withLinker (hn.distinct.unlink p q)

theorem Wf.request {n : ActualNode} (hn : n.Wf) (net : Connections) (op : ControlMsg) (p : EPid) :
    (n.request net op p).2.Wf := by
  rw [ActualNode.request]
  split
  · exact hn
  · exact hn.of_keeps (.of_objects_eq rfl) (fun _ _ h => h) (fun _ _ h => h) hn.posted hn.distinct

theorem Wf.link {n : ActualNode} (hn : n.Wf) (net : Connections) (p q : EPid) :
    (n.link net p q).2.Wf := by
  rw [ActualNode.link]
  split
  · have hreq := hn.request net (.link p q) q
    split
    · next heq => rwa [heq] at hreq
    · next heq =>
      rw [heq] at hreq
      exact hreq.incomingLink p q
  · exact hn.incomingLink p q

theorem Wf.unlink {n : ActualNode} (hn : n.Wf) (net : Connections) (p q : EPid) :
    (n.unlink net p q).2.Wf := by
  rw [ActualNode.unlink]
  split
  · exact (hn.incomingUnlink p q).request net _ q
  · exact hn.incomingUnlink p q

/-- A fetch drops an expired entry, at most. -/
theorem Wf.withMailboxes {n : ActualNode} (hn : n.Wf) {table : UInt32 × UInt32 → Option Handle}
    (ht : Within table n.mailboxes) : ({ n with mailboxes := table } : ActualNode).Wf :=
  hn.of_keeps (.of_objects_eq rfl) ht (fun _ _ h => h) hn.posted hn.distinct

theorem Wf.receiveIncoming {n : ActualNode} (hn : n.Wf) (msg : MsgSeq) (p : EPid) :
    (n.receiveIncoming msg p).2.Wf := by
  have hw := within_fetchMailbox p.key (keyToName p) n.mailboxes n
  rw [ActualNode.receiveIncoming]
  split
  · next heq =>
    rw [heq] at hw
    exact hn.withMailboxes hw
  · exact hn.onMailbox _ _

theorem Wf.receiveIncomingName {n : ActualNode} (hn : n.Wf) (msg : MsgSeq) (name : Str) :
    (n.receiveIncomingName msg name).2.Wf := by
  have hw := within_fetchMailbox name name n.registeredMailboxes n
  rw [ActualNode.receiveIncomingName]
  split
  · next heq =>
    rw [heq] at hw
    exact hn.of_keeps (.of_objects_eq rfl) (fun _ _ h => h) hw hn.posted hn.distinct
  · exact hn.onMailbox _ _

theorem Wf.incomingExit {n : ActualNode} (hn : n.Wf) (p q : EPid) (reason : Str) :
    (n.incomingExit p q reason).2.Wf := by
  have hw := within_fetchMailbox q.key (keyToName q) n.mailboxes n
  rw [ActualNode.incomingExit]
  split
  · next heq =>
    rw [heq] at hw
    exact hn.withMailboxes hw
  · exact (hn.onMailbox _ _).incomingUnlink p q

theorem Wf.closeMailboxAsync {n : ActualNode} (hn : n.Wf) {h : Handle} {o : MailboxObject}
    (ho : n.objects[h]? = some o) : ((n.expire h).closeMailboxAsync h o.ownPid o.ownName).Wf := by
  refine hn.of_keeps (keeps_expire h n) (fun _ _ h => h) (fun _ _ h => h) (fun p hp => ?_)
    hn.distinct
  rcases List.mem_append.mp hp with hp | hp
  · exact hn.posted p hp
  · obtain rfl := List.mem_singleton.mp hp
    exact ⟨o, ho, rfl, rfl⟩

/-- **Every step keeps the invariant.** -/
theorem Wf.step {n t : ActualNode} {e : NodeEvent} (hn : n.Wf) (h : n.step e = some t) : t.Wf := by
  -- a close, whoever makes it
  have hclose : ∀ {e'}, (n.closing e').map Closing.after = some t → t.Wf := by
    intro e' h
    obtain ⟨c, hc, rfl⟩ := Option.map_eq_some_iff.mp h
    exact (hn.before hc).1.after
  cases e with
  | createMailbox => exact hn.createMailbox h
  | createMailboxNamed registeredName =>
    obtain rfl := Option.some_inj.mp h
    exact hn.createMailboxNamed registeredName
  | publishPort creation =>
    obtain rfl := Option.some_inj.mp h
    exact hn.of_keeps (.of_objects_eq rfl) (fun _ _ h => h) (fun _ _ h => h) hn.posted hn.distinct
  | link h' pidToLink net =>
    obtain ⟨o, -, rfl⟩ := Option.map_eq_some_iff.mp h
    exact hn.link net o.ownPid pidToLink
  | unlink h' pidToUnlink net =>
    obtain ⟨o, -, rfl⟩ := Option.map_eq_some_iff.mp h
    exact hn.unlink net o.ownPid pidToUnlink
  | receive h' =>
    obtain ⟨o, -, h⟩ := Option.bind_eq_some_iff.mp h
    split at h
    · exact absurd h (by simp)
    · obtain rfl := Option.some_inj.mp h
      exact hn.onMailbox _ _
  | receiveTmo h' error =>
    obtain ⟨o, -, rfl⟩ := Option.map_eq_some_iff.mp h
    exact hn.onMailbox _ _
  | receiveIncoming msg toPid =>
    obtain rfl := Option.some_inj.mp h
    exact hn.receiveIncoming msg toPid
  | receiveIncomingName msg toName =>
    obtain rfl := Option.some_inj.mp h
    exact hn.receiveIncomingName msg toName
  | incomingLink fromPid toPid =>
    obtain rfl := Option.some_inj.mp h
    exact hn.incomingLink fromPid toPid
  | incomingUnlink fromPid toPid =>
    obtain rfl := Option.some_inj.mp h
    exact hn.incomingUnlink fromPid toPid
  | incomingExit fromPid toPid reason =>
    obtain rfl := Option.some_inj.mp h
    exact hn.incomingExit fromPid toPid reason
  | close h' net => exact hclose h
  | destroy h' uncaughtException net =>
    cases uncaughtException with
    | false => exact hclose h
    | true =>
      obtain ⟨o, ho, rfl⟩ := Option.map_eq_some_iff.mp h
      exact hn.closeMailboxAsync (Option.filter_eq_some_iff.mp ho).1
  | runPosted net => exact hclose h

end ActualNode

open ActualNode

namespace Closing

/-! ### One close -/

/-- The close has sent one exit signal to each of the pids, and no others. -/
structure Delivers (c : Closing) (pids : List EPid) : Prop where
  requested : c.after.requested =
    c.before.requested ++ remoteExits c.id c.reason c.before pids
  brokenLinks : ∀ h, c.after.brokenLinksOf h =
    c.before.brokenLinksOf h ++ localExits c.id c.reason c.before pids h

/-- There is a link between the mailbox and the pid. -/
def Linked (c : Closing) (p : EPid) : Prop :=
  (c.id, p) ∈ c.before.mailboxLinker.establishedLinks ∨
    (p, c.id) ∈ c.before.mailboxLinker.establishedLinks

/-- Every linked pid that can be told has been told exactly once, and nothing refers to the mailbox
any more. -/
structure IsComplete (c : Closing) : Prop where
  notified : ∃ pids : List EPid, pids.Nodup ∧
    (∀ p, p ∈ pids ↔ c.Linked p ∧ notifiable c.net c.before p = true) ∧ c.Delivers pids
  notInMailboxes : ∀ k, c.after.mailboxes k ≠ some c.handle
  notRegistered : ∀ r, c.after.registeredMailboxes r ≠ some c.handle
  notLinked : ∀ i ∈ c.after.mailboxLinker.establishedLinks, ¬ Linker.Mentions c.id i

/-- No notification raises; or one does and there is nothing left to do: none of the pids after it
can be told, and the only entry of the mailbox, if it has one, is the expired one that the failing
notification removes. -/
def NothingIsLost (c : Closing) : Prop :=
  match c.linkedPids.dropWhile (notifiable c.net c.before) with
  | [] => True
  | p :: rest => (∀ q ∈ rest, notifiable c.net c.before q = false) ∧
      (∀ k, c.before.mailboxes k = some c.handle →
        k = p.key ∧ c.before.resolve p = some c.handle ∧ c.before.isExpired c.handle = true) ∧
      ∀ r, c.before.registeredMailboxes r ≠ some c.handle

theorem delivers_of_notifiable {c : Closing}
    (h : ∀ p ∈ c.linkedPids, notifiable c.net c.before p = true) : c.Delivers c.linkedPids where
  requested := by
    rw [after_of_notifiable h]
    exact requested_notifiedAll c.id c.reason c.linkedPids c.detached
  brokenLinks h' := by
    rw [after_of_notifiable h]
    exact brokenLinksOf_notifiedAll (n := c.detached) c.id c.reason h' c.linkedPids h

theorem delivers_of_not_notifiable {c : Closing} {pre rest : List EPid} {p : EPid}
    (hlinked : c.linkedPids = pre ++ p :: rest)
    (hpre : ∀ q ∈ pre, notifiable c.net c.before q = true)
    (hp : notifiable c.net c.before p = false) : c.Delivers pre where
  requested := by
    rw [after_of_not_notifiable hlinked hpre hp, withoutExpired_eq]
    exact requested_notifiedAll c.id c.reason pre c.detached
  brokenLinks h := by
    rw [after_of_not_notifiable hlinked hpre hp, withoutExpired_eq]
    exact brokenLinksOf_notifiedAll (n := c.detached) c.id c.reason h pre hpre

/-- Signals to the same mailbox all look alike, so it is their number that tells. -/
theorem length_localExits (fromPid : EPid) (reason : Str) (n : ActualNode) (pids : List EPid)
    (h : Handle) : (localExits fromPid reason n pids h).length =
      (pids.filter (n.resolve · = some h)).length := by
  rw [localExits, List.length_map]

theorem remoteExits_injective {fromPid : EPid} {reason : Str} :
    Function.Injective fun p : EPid => (p.nodeName, ControlMsg.exit2 fromPid p reason) := by
  intro p q h
  simpa using congrArg Prod.snd h

/-- Two lists of pids with the same deliveries, the one within the other, are the same set. -/
theorem Delivers.subset {c : Closing} {pids pids' : List EPid} (h : c.Delivers pids)
    (h' : c.Delivers pids') (hnodup : pids.Nodup) (hsub : pids ⊆ pids')
    (hresolve : ∀ p ∈ pids', p.nodeName = c.before.nodeName → (c.before.resolve p).isSome) :
    pids' ⊆ pids := by
  intro q hq
  by_cases hremote : q.nodeName ≠ c.before.nodeName
  · -- a message to a remote pid names the pid
    have heq : remoteExits c.id c.reason c.before pids' = remoteExits c.id c.reason c.before pids :=
      List.append_cancel_left (h'.requested.symm.trans h.requested)
    have hq' : q ∈ pids'.filter (·.nodeName ≠ c.before.nodeName) :=
      List.mem_filter.mpr ⟨hq, by simpa using hremote⟩
    rw [List.map_injective_iff.mpr remoteExits_injective heq] at hq'
    exact (List.mem_filter.mp hq').1
  · obtain ⟨h₀, hh₀⟩ := Option.isSome_iff_exists.mp (hresolve q hq (not_not.mp hremote))
    have heq : localExits c.id c.reason c.before pids' h₀ =
        localExits c.id c.reason c.before pids h₀ :=
      List.append_cancel_left ((h'.brokenLinks h₀).symm.trans (h.brokenLinks h₀))
    have hlen := congrArg List.length heq
    rw [length_localExits, length_localExits] at hlen
    have hsubperm : (pids.filter (c.before.resolve · = some h₀)).Subperm
        (pids'.filter (c.before.resolve · = some h₀)) :=
      List.subperm_of_subset (hnodup.filter _) (List.filter_subset _ hsub)
    have hperm := hsubperm.perm_of_length_le (Nat.le_of_eq hlen)
    have hq' : q ∈ pids'.filter (c.before.resolve · = some h₀) :=
      List.mem_filter.mpr ⟨hq, by simpa using hh₀⟩
    exact (List.mem_filter.mp (hperm.mem_iff.mpr hq')).1

theorem resolve_of_notifiable {net : Connections} {n : ActualNode} {p : EPid}
    (h : notifiable net n p = true) (hlocal : p.nodeName = n.nodeName) : (n.resolve p).isSome := by
  rw [notifiable, if_neg (not_not.mpr hlocal)] at h
  rw [resolve, if_neg (not_not.mpr hlocal)]
  rcases hm : n.mailboxes p.key with _ | h'
  · simp [hm] at h
  · rfl

/-- What is left in the table of pids after a failing notification. -/
theorem withoutExpired_eq_some_iff {n : ActualNode} {p : EPid} {k : UInt32 × UInt32} {M : Handle} :
    (n.withoutExpired p).mailboxes k = some M ↔ n.mailboxes k = some M ∧
      ¬ (k = p.key ∧ n.resolve p = some M ∧ n.isExpired M = true) := by
  rw [withoutExpired]
  rcases hr : n.resolve p with _ | h
  · simp
  have hm := mailboxes_of_resolve hr
  dsimp only
  by_cases hexp : n.isExpired h = true
  · rw [if_pos hexp]
    by_cases hk : k = p.key
    · subst hk
      dsimp only
      rw [erase, Function.update_self, hm, Option.some_inj]
      constructor
      · exact fun h' => absurd h' (by simp)
      · rintro ⟨rfl, hnot⟩
        exact absurd ⟨rfl, rfl, hexp⟩ hnot
    · simp [erase, hk]
  · rw [if_neg hexp]
    refine ⟨fun hk => ⟨hk, ?_⟩, And.left⟩
    rintro ⟨-, hh, hexp'⟩
    obtain rfl := Option.some_inj.mp hh
    exact hexp hexp'

theorem mem_linkedPids_iff (c : Closing) (p : EPid) : p ∈ c.linkedPids ↔ c.Linked p :=
  Linker.mem_linkedPids

/-- The links are gone, however the close ends. -/
theorem mailboxLinker_after (c : Closing) : c.after.mailboxLinker = c.detached.mailboxLinker := by
  rcases all_notifiable_or_first c.net c.before c.linkedPids with
    hall | ⟨pre, p, rest, hl, hpre, hp⟩
  · rw [after_of_notifiable hall]
    exact (sameTables_notifiedAll c.id c.reason c.linkedPids c.detached).mailboxLinker
  · rw [after_of_not_notifiable hl hpre hp, withoutExpired_eq]
    exact (sameTables_notifiedAll c.id c.reason pre c.detached).mailboxLinker

/-- Where everybody can be told, the close is complete. -/
theorem isComplete_of_notifiable {c : Closing} {o : MailboxObject} (hb : c.before.Wf)
    (ho : c.before.objects[c.handle]? = some o) (hid : o.ownPid = c.id) (hname : o.ownName = c.name)
    (hall : ∀ p ∈ c.linkedPids, notifiable c.net c.before p = true) : c.IsComplete where
  notified := by
    refine ⟨c.linkedPids, Linker.linkedPids_nodup hb.distinct c.id, fun p => ?_,
      delivers_of_notifiable hall⟩
    rw [← mem_linkedPids_iff]
    exact ⟨fun hp => ⟨hp, hall p hp⟩, And.left⟩
  notInMailboxes k hk := by
    rw [mailboxes_of_notifiable hall] at hk
    -- the mailbox can only have been filed under its own pid
    obtain ⟨o', ho', hkey⟩ := hb.filed k c.handle (within_erase _ _ k _ hk)
    obtain rfl := Option.some_inj.mp (ho.symm.trans ho')
    rw [← hkey, hid, erase, Function.update_self] at hk
    exact absurd hk (by simp)
  notRegistered r hr := by
    rw [registeredMailboxes_of_notifiable hall] at hr
    obtain ⟨o', ho', hname'⟩ := hb.named r c.handle (within_erase _ _ r _ hr)
    obtain rfl := Option.some_inj.mp (ho.symm.trans ho')
    rw [← hname', hname, erase, Function.update_self] at hr
    exact absurd hr (by simp)
  notLinked := by
    rw [mailboxLinker_after]
    exact c.not_mentions_detached

/-- Where somebody cannot be told, the close is complete only if nothing was left to do. -/
theorem isComplete_iff_of_not_notifiable {c : Closing} (hb : c.before.Wf) {pre rest : List EPid}
    {p : EPid} (hl : c.linkedPids = pre ++ p :: rest)
    (hpre : ∀ q ∈ pre, notifiable c.net c.before q = true)
    (hp : notifiable c.net c.before p = false) :
    c.IsComplete ↔ (∀ q ∈ rest, notifiable c.net c.before q = false) ∧
      (∀ k, c.before.mailboxes k = some c.handle →
        k = p.key ∧ c.before.resolve p = some c.handle ∧ c.before.isExpired c.handle = true) ∧
      ∀ r, c.before.registeredMailboxes r ≠ some c.handle := by
  have hsame := sameTables_notifiedAll c.id c.reason pre c.detached
  have hnodup : (pre ++ p :: rest).Nodup := hl ▸ Linker.linkedPids_nodup hb.distinct c.id
  obtain ⟨hpreNodup, -, hdisj⟩ := List.nodup_append.mp hnodup
  have hdel := delivers_of_not_notifiable hl hpre hp
  have hregistered : c.after.registeredMailboxes = c.before.registeredMailboxes := by
    rw [after_of_not_notifiable hl hpre hp, withoutExpired_eq]
    exact hsame.registeredMailboxes
  have hmailboxes : ∀ k, c.after.mailboxes k = some c.handle ↔
      c.before.mailboxes k = some c.handle ∧
      ¬ (k = p.key ∧ c.before.resolve p = some c.handle ∧ c.before.isExpired c.handle = true) := by
    intro k
    rw [after_of_not_notifiable hl hpre hp, withoutExpired_eq_some_iff, hsame.mailboxes,
      hsame.resolve, hsame.isExpired]
    exact Iff.rfl
  constructor
  · intro hc
    refine ⟨fun q hq => ?_, fun k hk => ?_, fun r => ?_⟩
    · -- had `q` been told, it would be among the pids before `p`
      by_contra hne
      have hq' : notifiable c.net c.before q = true := by simpa using hne
      obtain ⟨pids, -, hmem, hpids⟩ := hc.notified
      have hlinked : ∀ r ∈ pre ++ p :: rest, c.Linked r := fun r hr =>
        (c.mem_linkedPids_iff r).mp (hl ▸ hr)
      have hsub : pre ⊆ pids := fun r hr =>
        (hmem r).mpr ⟨hlinked r (List.mem_append_left _ hr), hpre r hr⟩
      have hback : pids ⊆ pre := hdel.subset hpids hpreNodup hsub fun r hr hlocal =>
        resolve_of_notifiable ((hmem r).mp hr).2 hlocal
      have hqrest : q ∈ p :: rest := List.mem_cons_of_mem p hq
      have hqpids : q ∈ pids :=
        (hmem q).mpr ⟨hlinked q (List.mem_append_right _ hqrest), hq'⟩
      exact hdisj q (hback hqpids) q hqrest rfl
    · by_contra hnot
      exact hc.notInMailboxes k ((hmailboxes k).mpr ⟨hk, hnot⟩)
    · rw [← hregistered]
      exact hc.notRegistered r
  · rintro ⟨hrest, hfiled, hnamed⟩
    refine ⟨⟨pre, hpreNodup, fun q => ?_, hdel⟩, fun k hk => ?_, fun r => ?_, ?_⟩
    · rw [← mem_linkedPids_iff, hl, List.mem_append, List.mem_cons]
      constructor
      · exact fun hq => ⟨.inl hq, hpre q hq⟩
      · rintro ⟨hq | rfl | hq, hq'⟩
        · exact hq
        · exact absurd (hp.symm.trans hq') (by simp)
        · exact absurd ((hrest q hq).symm.trans hq') (by simp)
    · obtain ⟨hk, hnot⟩ := (hmailboxes k).mp hk
      exact hnot (hfiled k hk)
    · rw [hregistered]
      exact hnamed r
    · rw [mailboxLinker_after]
      exact c.not_mentions_detached

/-- **One close, exactly.** -/
theorem isComplete_iff {c : Closing} {o : MailboxObject} (hb : c.before.Wf)
    (ho : c.before.objects[c.handle]? = some o) (hid : o.ownPid = c.id)
    (hname : o.ownName = c.name) : c.IsComplete ↔ c.NothingIsLost := by
  rcases all_notifiable_or_first c.net c.before c.linkedPids with
    hall | ⟨pre, p, rest, hl, hpre, hp⟩
  · rw [NothingIsLost, dropWhile_of_all hall]
    exact iff_of_true (isComplete_of_notifiable hb ho hid hname hall) trivial
  · rw [NothingIsLost, dropWhile_of_first hl hpre hp]
    exact isComplete_iff_of_not_notifiable hb hl hpre hp

end Closing

namespace ActualNode

/-- If the event closes a mailbox, the close is complete. -/
def ClosesCompletely (n : ActualNode) (e : NodeEvent) : Prop :=
  ∀ c, n.closing e = some c → c.IsComplete

/-- If the event closes a mailbox, no notification raises, or nothing is lost by it. -/
def ClosesWithoutLoss (n : ActualNode) (e : NodeEvent) : Prop :=
  ∀ c, n.closing e = some c → c.NothingIsLost

/-- **Closing a mailbox is complete exactly if no notification raises before everything has been
done**, in every run. -/
theorem closesCompletely_iff (nodeName : Str) (es : List NodeEvent) :
    EveryStep step ClosesCompletely (create nodeName) es ↔
      EveryStep step ClosesWithoutLoss (create nodeName) es := by
  refine everyStep_iff_of_invariant (I := Wf) (fun _ _ _ hn h => hn.step h) (fun n e hn => ?_)
    (wf_create nodeName)
  refine forall_congr' fun c => imp_congr_right fun hc => ?_
  obtain ⟨hb, o, ho, hid, hname⟩ := hn.before hc
  exact Closing.isComplete_iff hb ho hid hname

/-- A mailbox linked to a pid that was never in use stays in the table as it is closed. -/
theorem close_leaves_mailbox : ∃ s t,
    run step (create (bytesOf "n@h"))
      [.createMailbox, .link 0 ⟨bytesOf "n@h", 9, 0, 0⟩ allReachable] = some s ∧
    s.step (.close 0 allReachable) = some t ∧ t.mailboxes (1, 0) = some 0 ∧
    ¬ s.ClosesCompletely (.close 0 allReachable) := by
  refine ⟨_, _, rfl, rfl, rfl, fun h => ?_⟩
  exact (h _ rfl).notInMailboxes (1, 0) rfl

end ActualNode

end TinchPp
