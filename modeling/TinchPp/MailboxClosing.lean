import Mathlib.Data.List.TakeWhile
import TinchPp.ActualNode

/-!
# Closing a mailbox

What a call of `close_mailbox` does to the tables, to the links and to the linked pids, worked out
for any node, and then for every close in every run.

A pid that can be told (`notifiable`) is one that leads to a mailbox somebody owns, or to a working
connection. The notifications of a close run through the linked pids in order; `notified` is the
effect of one that gets through. The first that does not, ends the close, before the tables have
been touched.

## Main results

* `Closing.closeMailbox_of_notifiable`, `Closing.closeMailbox_of_not_notifiable` — the two ways a
  close ends
* `closesOnlyItself_iff` — a close leaves the entries of other mailboxes alone exactly if what the
  tables have under the pid and the name of the closed mailbox are its own entries
-/

namespace TinchPp

open EventSystem

namespace ActualNode

/-! ### One notification -/

/-- An exit signal for the pid gets through. -/
def notifiable (net : Connections) (n : ActualNode) (toPid : EPid) : Bool :=
  if toPid.nodeName ≠ n.nodeName then (net toPid).isOk
  else match n.mailboxes toPid.key with
    | some h => !n.isExpired h
    | none => false

/-- The mailbox of this node that a pid leads to. -/
def resolve (n : ActualNode) (toPid : EPid) : Option Handle :=
  if toPid.nodeName ≠ n.nodeName then none else n.mailboxes toPid.key

/-- The effect of an exit signal that gets through. -/
def notified (fromPid : EPid) (reason : Str) (n : ActualNode) (toPid : EPid) : ActualNode :=
  if toPid.nodeName ≠ n.nodeName then
    { n with requested := n.requested ++ [(toPid.nodeName, .exit2 fromPid toPid reason)] }
  else match n.mailboxes toPid.key with
    | some h => n.onMailbox h (.onLinkBroken reason fromPid)
    | none => n

/-- The effect of one that does not: an expired entry is gone. -/
def withoutExpired (n : ActualNode) (toPid : EPid) : ActualNode :=
  match n.resolve toPid with
  | some h => if n.isExpired h then { n with mailboxes := erase toPid.key n.mailboxes } else n
  | none => n

/-- What the notifications do not change. -/
structure SameTables (n n' : ActualNode) : Prop where
  nodeName : n'.nodeName = n.nodeName
  mailboxes : n'.mailboxes = n.mailboxes
  registeredMailboxes : n'.registeredMailboxes = n.registeredMailboxes
  mailboxLinker : n'.mailboxLinker = n.mailboxLinker
  posted : n'.posted = n.posted
  isExpired : n'.isExpired = n.isExpired

theorem SameTables.refl (n : ActualNode) : SameTables n n := ⟨rfl, rfl, rfl, rfl, rfl, rfl⟩

theorem SameTables.trans {n n' n'' : ActualNode} (h : SameTables n n') (h' : SameTables n' n'') :
    SameTables n n'' :=
  ⟨h'.1.trans h.1, h'.2.trans h.2, h'.3.trans h.3, h'.4.trans h.4, h'.5.trans h.5, h'.6.trans h.6⟩

theorem SameTables.notifiable {n n' : ActualNode} (h : SameTables n n') (net : Connections)
    (p : EPid) : notifiable net n' p = notifiable net n p := by
  rw [ActualNode.notifiable, h.nodeName, h.mailboxes, h.isExpired, ActualNode.notifiable]

theorem mailboxes_of_resolve {n : ActualNode} {p : EPid} {h : Handle}
    (hr : n.resolve p = some h) : n.mailboxes p.key = some h := by
  rw [resolve] at hr
  split at hr
  · exact absurd hr (by simp)
  · exact hr

theorem SameTables.resolve {n n' : ActualNode} (h : SameTables n n') (p : EPid) :
    n'.resolve p = n.resolve p := by
  rw [ActualNode.resolve, h.nodeName, h.mailboxes, ActualNode.resolve]

theorem isExpired_onMailbox (h : Handle) (act : ActualMailbox → ActualMailbox) (n : ActualNode) :
    (n.onMailbox h act).isExpired = n.isExpired := by
  funext h'
  rcases ho : n.objects[h']? with _ | o
  · simp [isExpired, onMailbox, List.getElem?_modify, ho]
  · by_cases hh : h = h' <;> simp [isExpired, onMailbox, ho, hh]

theorem sameTables_notified (fromPid : EPid) (reason : Str) (n : ActualNode) (p : EPid) :
    SameTables n (n.notified fromPid reason p) := by
  rw [notified]
  split
  · exact ⟨rfl, rfl, rfl, rfl, rfl, rfl⟩
  · split
    · exact ⟨rfl, rfl, rfl, rfl, rfl, isExpired_onMailbox _ _ n⟩
    · exact .refl n

/-- **A notification that gets through.** There is nothing left to unlink. -/
theorem requestExit2_of_notifiable {net : Connections} {n : ActualNode} {fromPid p : EPid}
    (hlinks : ∀ i ∈ n.mailboxLinker.establishedLinks, ¬ Linker.Mentions fromPid i) (reason : Str)
    (h : notifiable net n p = true) :
    n.requestExit2 net fromPid p reason = (.ok (), n.notified fromPid reason p) := by
  rw [requestExit2, notified]
  rw [notifiable] at h
  by_cases hp : p.nodeName ≠ n.nodeName
  · rw [if_pos hp] at h ⊢
    rw [if_pos hp, request]
    rcases hnet : net p with e | u
    · rw [hnet] at h
      exact absurd h (by simp [Except.isOk, Except.toBool])
    · rfl
  · rw [if_neg hp] at h ⊢
    rcases hm : n.mailboxes p.key with _ | h'
    · simp [hm] at h
    · have hexp : n.isExpired h' = false := by simpa [hm] using h
      rw [if_neg hp, incomingExit, fetchMailbox_of_owned hm hexp]
      dsimp only
      rw [incomingUnlink, show (n.onMailbox h' _).mailboxLinker = n.mailboxLinker from rfl,
        Linker.unlink_of_not_mentions hlinks]
      rfl

/-- **A notification that raises.** -/
theorem requestExit2_of_not_notifiable {net : Connections} {n : ActualNode} {p : EPid}
    (h : notifiable net n p = false) (fromPid : EPid) (reason : Str) :
    ∃ e, n.requestExit2 net fromPid p reason = (.error e, n.withoutExpired p) := by
  rw [requestExit2, withoutExpired, resolve]
  rw [notifiable] at h
  by_cases hp : p.nodeName ≠ n.nodeName
  · rw [if_pos hp] at h ⊢
    rw [if_pos hp, request]
    rcases hnet : net p with e | u
    · exact ⟨e, rfl⟩
    · rw [hnet] at h
      exact absurd h (by simp [Except.isOk, Except.toBool])
  · rw [if_neg hp] at h ⊢
    rw [if_neg hp, incomingExit]
    rcases hm : n.mailboxes p.key with _ | h'
    · rw [fetchMailbox_of_none hm]
      exact ⟨_, rfl⟩
    · have hexp : n.isExpired h' = true := by simpa [hm] using h
      rw [fetchMailbox_of_expired hm hexp]
      dsimp only
      rw [if_pos hexp]
      exact ⟨_, rfl⟩

/-! ### All the notifications -/

/-- The effect of exit signals that get through, one after the other. -/
def notifiedAll (fromPid : EPid) (reason : Str) (n : ActualNode) (pids : List EPid) : ActualNode :=
  pids.foldl (notified fromPid reason) n

theorem sameTables_notifiedAll (fromPid : EPid) (reason : Str) (pids : List EPid) :
    ∀ n, SameTables n (notifiedAll fromPid reason n pids) := by
  induction pids with
  | nil => exact fun n => .refl n
  | cons p pids ih => exact fun n => (sameTables_notified fromPid reason n p).trans (ih _)

/-- An exit signal changes nothing about a mailbox but its contents. -/
theorem objects_notified (fromPid : EPid) (reason : Str) (n : ActualNode) (p : EPid) (h : Handle) :
    (n.notified fromPid reason p).objects[h]?.map (fun o => (o.ownPid, o.expired)) =
      n.objects[h]?.map fun o => (o.ownPid, o.expired) := by
  rw [notified]
  split
  · rfl
  · split
    · next h' _ =>
      rcases ho : n.objects[h]? with _ | o
      · simp [onMailbox, List.getElem?_modify, ho]
      · by_cases hh : h' = h <;> simp [onMailbox, ho, hh]
    · rfl

theorem objects_notifiedAll (fromPid : EPid) (reason : Str) (pids : List EPid) (h : Handle) :
    ∀ n, (notifiedAll fromPid reason n pids).objects[h]?.map (fun o => (o.ownPid, o.expired)) =
      n.objects[h]?.map fun o => (o.ownPid, o.expired) := by
  induction pids with
  | nil => exact fun _ => rfl
  | cons p pids ih => exact fun n => (ih _).trans (objects_notified fromPid reason n p h)

theorem creation_notifiedAll (fromPid : EPid) (reason : Str) (pids : List EPid) :
    ∀ n, (notifiedAll fromPid reason n pids).creation = n.creation := by
  induction pids with
  | nil => exact fun _ => rfl
  | cons p pids ih =>
    intro n
    have hone : (n.notified fromPid reason p).creation = n.creation := by
      rw [notified]
      split
      · rfl
      · split <;> rfl
    exact (ih _).trans hone

/-- The loop gets past the pids that can be told. -/
theorem forEach_append {net : Connections} {fromPid : EPid} (reason : Str) (pids : List EPid) :
    ∀ {pre : List EPid} {n : ActualNode},
    (∀ i ∈ n.mailboxLinker.establishedLinks, ¬ Linker.Mentions fromPid i) →
    (∀ p ∈ pre, notifiable net n p = true) →
    forEach (fun p n => n.requestExit2 net fromPid p reason) (pre ++ pids) n =
      forEach (fun p n => n.requestExit2 net fromPid p reason) pids
        (notifiedAll fromPid reason n pre) := by
  intro pre
  induction pre with
  | nil => exact fun _ _ => rfl
  | cons p pre ih =>
    intro n hlinks hpre
    have hsame := sameTables_notified fromPid reason n p
    rw [List.cons_append, forEach,
      requestExit2_of_notifiable hlinks reason (hpre p List.mem_cons_self)]
    refine (ih (by rwa [hsame.mailboxLinker]) fun q hq => ?_).trans rfl
    rw [hsame.notifiable]
    exact hpre q (List.mem_cons_of_mem p hq)

/-- A list runs through, or there is a first pid that cannot be told. -/
theorem all_notifiable_or_first (net : Connections) (n : ActualNode) (pids : List EPid) :
    (∀ p ∈ pids, notifiable net n p = true) ∨
    ∃ pre p rest, pids = pre ++ p :: rest ∧ (∀ q ∈ pre, notifiable net n q = true) ∧
      notifiable net n p = false := by
  induction pids with
  | nil => exact .inl (by simp)
  | cons p pids ih =>
    rcases hp : notifiable net n p with _ | _
    · exact .inr ⟨[], p, pids, rfl, by simp, hp⟩
    rcases ih with h | ⟨pre, q, rest, rfl, hpre, hq⟩
    · exact .inl fun q hq => by rcases List.mem_cons.mp hq with rfl | hq
                                · exact hp
                                · exact h q hq
    · refine .inr ⟨p :: pre, q, rest, rfl, fun r hr => ?_, hq⟩
      rcases List.mem_cons.mp hr with rfl | hr
      · exact hp
      · exact hpre r hr

end ActualNode

open ActualNode

namespace Closing

/-! ### The two ways a close ends -/

/-- The pids linked to the mailbox. -/
def linkedPids (c : Closing) : List EPid := c.before.mailboxLinker.linkedPids c.id

/-- The node when the links have been taken out. -/
def detached (c : Closing) : ActualNode :=
  { c.before with mailboxLinker := (c.before.mailboxLinker.removeLinksFrom c.id).2 }

theorem not_mentions_detached (c : Closing) :
    ∀ i ∈ c.detached.mailboxLinker.establishedLinks, ¬ Linker.Mentions c.id i :=
  fun _ hi => Linker.not_mentions_removeLinksFrom hi

/-- **Everybody can be told**: then the tables are cleared. -/
theorem closeMailbox_of_notifiable {c : Closing}
    (h : ∀ p ∈ c.linkedPids, notifiable c.net c.before p = true) :
    c.before.closeMailbox c.net c.id c.name c.reason =
      (.ok (), (notifiedAll c.id c.reason c.detached c.linkedPids).remove c.id c.name) := by
  have hloop := forEach_append c.reason [] c.not_mentions_detached h
  rw [List.append_nil] at hloop
  have hclose : c.before.closeLinksForLocal c.net c.id c.reason =
      (.ok (), notifiedAll c.id c.reason c.detached c.linkedPids) := hloop
  rw [closeMailbox, hclose]

theorem after_of_notifiable {c : Closing}
    (h : ∀ p ∈ c.linkedPids, notifiable c.net c.before p = true) :
    c.after = (notifiedAll c.id c.reason c.detached c.linkedPids).remove c.id c.name := by
  rw [after, closeMailbox_of_notifiable h]

theorem mailboxes_of_notifiable {c : Closing}
    (h : ∀ p ∈ c.linkedPids, notifiable c.net c.before p = true) :
    c.after.mailboxes = erase c.id.key c.before.mailboxes := by
  have hsame := sameTables_notifiedAll c.id c.reason c.linkedPids c.detached
  rw [after_of_notifiable h, remove, hsame.mailboxes, detached]

theorem registeredMailboxes_of_notifiable {c : Closing}
    (h : ∀ p ∈ c.linkedPids, notifiable c.net c.before p = true) :
    c.after.registeredMailboxes = erase c.name c.before.registeredMailboxes := by
  have hsame := sameTables_notifiedAll c.id c.reason c.linkedPids c.detached
  rw [after_of_notifiable h, remove, hsame.registeredMailboxes, detached]

/-- **Somebody cannot be told**: then the tables are left as they are, but for an expired entry. -/
theorem closeMailbox_of_not_notifiable {c : Closing} {pre rest : List EPid} {p : EPid}
    (hlinked : c.linkedPids = pre ++ p :: rest)
    (hpre : ∀ q ∈ pre, notifiable c.net c.before q = true)
    (hp : notifiable c.net c.before p = false) :
    ∃ e, c.before.closeMailbox c.net c.id c.name c.reason =
      (.error e, (notifiedAll c.id c.reason c.detached pre).withoutExpired p) := by
  have hsame := sameTables_notifiedAll c.id c.reason pre c.detached
  have hloop := forEach_append c.reason (p :: rest) c.not_mentions_detached hpre
  have hp' : notifiable c.net (notifiedAll c.id c.reason c.detached pre) p = false := by
    rw [hsame.notifiable]
    exact hp
  obtain ⟨e, he⟩ := requestExit2_of_not_notifiable hp' c.id c.reason
  have hclose : c.before.closeLinksForLocal c.net c.id c.reason =
      (.error e, (notifiedAll c.id c.reason c.detached pre).withoutExpired p) := by
    rw [← hlinked] at hloop
    refine hloop.trans ?_
    rw [forEach, he]
  exact ⟨e, by rw [closeMailbox, hclose]⟩

theorem after_of_not_notifiable {c : Closing} {pre rest : List EPid} {p : EPid}
    (hlinked : c.linkedPids = pre ++ p :: rest)
    (hpre : ∀ q ∈ pre, notifiable c.net c.before q = true)
    (hp : notifiable c.net c.before p = false) :
    c.after = (notifiedAll c.id c.reason c.detached pre).withoutExpired p := by
  obtain ⟨e, hclose⟩ := closeMailbox_of_not_notifiable hlinked hpre hp
  rw [after, hclose]

theorem dropWhile_of_all {c : Closing}
    (h : ∀ p ∈ c.linkedPids, notifiable c.net c.before p = true) :
    c.linkedPids.dropWhile (notifiable c.net c.before) = [] :=
  List.dropWhile_eq_nil_iff.mpr h

theorem dropWhile_of_first {c : Closing} {pre rest : List EPid} {p : EPid}
    (hlinked : c.linkedPids = pre ++ p :: rest)
    (hpre : ∀ q ∈ pre, notifiable c.net c.before q = true)
    (hp : notifiable c.net c.before p = false) :
    c.linkedPids.dropWhile (notifiable c.net c.before) = p :: rest := by
  rw [hlinked, List.dropWhile_append_of_pos hpre, List.dropWhile_cons_of_neg (by simp [hp])]

/-! ### The entries of other mailboxes -/

/-- The entries of a table that do not refer to the mailbox are the same as before. -/
def Unchanged {κ : Type} (M : Handle) (table table' : κ → Option Handle) : Prop :=
  ∀ k h, h ≠ M → (table' k = some h ↔ table k = some h)

theorem unchanged_erase_iff {κ : Type} [DecidableEq κ] {M : Handle} {table : κ → Option Handle}
    {key : κ} : Unchanged M table (erase key table) ↔ ∀ h, table key = some h → h = M := by
  constructor
  · intro hun h hkey
    by_contra hne
    have := (hun key h hne).mpr hkey
    rw [erase, Function.update_self] at this
    exact absurd this (by simp)
  · intro hown k h hne
    by_cases hk : k = key
    · subst hk
      rw [erase, Function.update_self]
      exact ⟨fun h' => absurd h' (by simp), fun h' => absurd (hown h h') hne⟩
    · rw [erase, Function.update_of_ne hk]

theorem unchanged_self {κ : Type} (M : Handle) (table : κ → Option Handle) :
    Unchanged M table table := fun _ _ _ => Iff.rfl

/-- What the close takes out of the tables is the mailbox's own: if everybody linked to it can be
told, the entries under its pid and under its name; otherwise the expired entry of the first pid
that cannot be told, if there is one. -/
def ErasesOnlyItsOwn (c : Closing) : Prop :=
  match c.linkedPids.dropWhile (notifiable c.net c.before) with
  | [] => (∀ h, c.before.mailboxes c.id.key = some h → h = c.handle) ∧
      ∀ h, c.before.registeredMailboxes c.name = some h → h = c.handle
  | p :: _ => ∀ h, c.before.resolve p = some h → c.before.isExpired h = true → h = c.handle

/-- The only entry that a failing notification can take out of the table of pids. -/
theorem unchanged_withoutExpired_iff (n : ActualNode) (p : EPid) (M : Handle) :
    Unchanged M n.mailboxes (n.withoutExpired p).mailboxes ↔
      ∀ h, n.resolve p = some h → n.isExpired h = true → h = M := by
  rw [withoutExpired]
  rcases hr : n.resolve p with _ | h
  · exact ⟨fun _ _ h => absurd h (by simp), fun _ => unchanged_self M _⟩
  have hm := mailboxes_of_resolve hr
  dsimp only
  by_cases hexp : n.isExpired h = true
  · rw [if_pos hexp]
    refine unchanged_erase_iff.trans ?_
    simp [hm, hexp]
  · rw [if_neg hexp]
    exact ⟨fun _ h' hh' hexp' => absurd (Option.some_inj.mp hh' ▸ hexp') hexp,
      fun _ => unchanged_self M _⟩

/-- **One close, exactly.** -/
theorem unchanged_after_iff (c : Closing) :
    (Unchanged c.handle c.before.mailboxes c.after.mailboxes ∧
      Unchanged c.handle c.before.registeredMailboxes c.after.registeredMailboxes) ↔
    c.ErasesOnlyItsOwn := by
  rcases all_notifiable_or_first c.net c.before c.linkedPids with
    hall | ⟨pre, p, rest, hl, hpre, hp⟩
  · rw [ErasesOnlyItsOwn, dropWhile_of_all hall, mailboxes_of_notifiable hall,
      registeredMailboxes_of_notifiable hall, unchanged_erase_iff, unchanged_erase_iff]
  · have hsame := sameTables_notifiedAll c.id c.reason pre c.detached
    have hafter := after_of_not_notifiable hl hpre hp
    have hregistered : c.after.registeredMailboxes = c.before.registeredMailboxes := by
      rw [hafter, withoutExpired]
      have := hsame.registeredMailboxes
      split
      · split
        · exact this
        · exact this
      · exact this
    have hiff := unchanged_withoutExpired_iff (notifiedAll c.id c.reason c.detached pre) p c.handle
    rw [hsame.mailboxes, hsame.resolve, hsame.isExpired, ← hafter] at hiff
    rw [ErasesOnlyItsOwn, dropWhile_of_first hl hpre hp, hregistered]
    exact ⟨fun h => hiff.mp h.1, fun h => ⟨hiff.mpr h, unchanged_self _ _⟩⟩

end Closing

open Closing

namespace ActualNode

/-- The tables are as they were when a close begins. -/
theorem before_of_closing {n : ActualNode} {e : NodeEvent} {c : Closing}
    (h : n.closing e = some c) :
    c.before.mailboxes = n.mailboxes ∧ c.before.registeredMailboxes = n.registeredMailboxes := by
  cases e with
  | close h' net =>
    obtain ⟨o, -, rfl⟩ := Option.map_eq_some_iff.mp h
    exact ⟨rfl, rfl⟩
  | destroy h' uncaughtException net =>
    cases uncaughtException with
    | false =>
      obtain ⟨o, -, rfl⟩ := Option.map_eq_some_iff.mp h
      exact ⟨rfl, rfl⟩
    | true => simp [closing] at h
  | runPosted net =>
    rw [closing] at h
    split at h
    · exact absurd h (by simp)
    · obtain rfl := Option.some_inj.mp h
      exact ⟨rfl, rfl⟩
  | _ => simp [closing] at h

/-- If the event closes a mailbox, the entries of the others stay. -/
def ClosesOnlyItself (n : ActualNode) (e : NodeEvent) : Prop :=
  ∀ c, n.closing e = some c → ∀ t, n.step e = some t →
    Unchanged c.handle n.mailboxes t.mailboxes ∧
      Unchanged c.handle n.registeredMailboxes t.registeredMailboxes

/-- If the event closes a mailbox, what it takes out of the tables is the mailbox's own. -/
def ErasesOnlyItsOwn (n : ActualNode) (e : NodeEvent) : Prop :=
  ∀ c, n.closing e = some c → c.ErasesOnlyItsOwn

theorem closesOnlyItself_step_iff (n : ActualNode) (e : NodeEvent) :
    n.ClosesOnlyItself e ↔ n.ErasesOnlyItsOwn e := by
  refine forall_congr' fun c => imp_congr_right fun hc => ?_
  obtain ⟨hm, hr⟩ := before_of_closing hc
  rw [← c.unchanged_after_iff, hm, hr, step_of_closing hc]
  simp

/-- **Closing a mailbox leaves the others registered exactly if it erases nothing but its own
entries**, in every run. -/
theorem closesOnlyItself_iff (nodeName : Str) (es : List NodeEvent) :
    EveryStep step ClosesOnlyItself (create nodeName) es ↔
      EveryStep step ErasesOnlyItsOwn (create nodeName) es :=
  everyStep_iff_of_invariant (I := fun _ => True) (fun _ _ _ _ _ => trivial)
    (fun n e _ => closesOnlyItself_step_iff n e) trivial

/-- A network where every message gets to a connection. -/
def allReachable : Connections := fun _ => .ok ()

/-- A mailbox is closed, another one is created under its name, and then the first is destroyed:
the second is not registered any more. -/
theorem destructor_unregisters_other : ∃ s t,
    run step (create (bytesOf "n@h")) [.createMailboxNamed (bytesOf "a"), .close 0 allReachable,
      .createMailboxNamed (bytesOf "a")] = some s ∧
    s.step (.destroy 0 false allReachable) = some t ∧
    s.registeredMailboxes (bytesOf "a") = some 1 ∧ t.registeredMailboxes (bytesOf "a") = none ∧
    ¬ s.ClosesOnlyItself (.destroy 0 false allReachable) := by
  refine ⟨_, _, rfl, rfl, rfl, rfl, fun h => ?_⟩
  have hkept := ((h _ rfl _ rfl).2 (bytesOf "a") 1 (by decide)).mpr rfl
  exact absurd hkept (by decide)

end ActualNode

end TinchPp
