import TinchPp.MailboxClosing

/-!
# The lock of the mailboxes

The tables of a node are guarded by `mailboxes_lock`. Whoever lets go of the last pointer to a
mailbox runs its destructor, and that closes the mailbox, which takes the lock. A call that delivers
a message or an exit signal has a pointer of its own to the mailbox while it has the lock, and the
pointer goes out of scope before the guard does.

The model runs statements of several threads in any order: what a thread has still to do is a list
of statements, and each of them does one thing to the lock or to the pointers. An exception skips
statements, but the guards and the pointers on the way go out of scope. The mutex is not recursive:
a thread that takes it a second time does not come back.

## Main results

* `LockedNode.Inv.step` — a thread that has the lock has only statements of the locked section in
  front of the end of its guard
* `LockedNode.noRelock` — no thread takes the lock that it has, as long as clients do not let go of
  a mailbox while a call has the only other pointer to it
-/

namespace TinchPp

open EventSystem

/-- The threads of a process with a node in it. -/
inductive ThreadId
  | io
  | client (n : ℕ)
deriving DecidableEq

/-- What is done with `mailboxes_lock`, by the functions that take it. -/
inductive LockedSection
  | createMailbox (h : Handle) (id : EPid) (registeredName : Option Str)
  | closeMailbox (id : EPid) (name : Str)
  | receiveIncoming (msg : MsgSeq) (toPid : EPid)
  | receiveIncomingName (msg : MsgSeq) (toName : Str)
  | incomingExit (fromPid toPid : EPid) (reason : Str)
deriving DecidableEq

/-- The statements. `release` is the end of the scope of a local `shared_ptr`, `unlock` that of a
guard, and `swallow` the end of a `try` block whose handler catches everything. -/
inductive Statement
  | lock (locked : LockedSection)
  | unlock
  | enter (locked : LockedSection)
  | onIncoming (h : Handle) (msg : MsgSeq)
  | onLinkBroken (h : Handle) (reason : Str) (pid : EPid)
  | unlink (fromPid toPid : EPid)
  | release (h : Handle)
  | closeLinks (dyingProcess : EPid) (reason : Str)
  | requestExit2 (fromPid toPid : EPid) (reason : Str)
  | swallow
deriving DecidableEq

/-- A node and its threads. The pointers to a mailbox are counted apart: those of the clients, and
those in calls that are under way. -/
structure LockedNode where
  node : ActualNode
  clients : Handle → ℕ
  temporaries : Handle → ℕ
  owner : Option ThreadId
  code : ThreadId → List Statement
  unwinding : ThreadId → Bool

/-- The calls that take the lock sooner or later. -/
inductive LockingCall
  | createMailbox
  | createMailboxNamed (registeredName : Str)
  | receiveIncoming (msg : MsgSeq) (toPid : EPid)
  | receiveIncomingName (msg : MsgSeq) (toName : Str)
  | incomingExit (fromPid toPid : EPid) (reason : Str)
  | close (h : Handle)
  | runPosted

/-- A thread begins a call, runs its next statement, or lets go of a `mailbox_ptr`. Whatever does
not take the lock is one event. -/
inductive LockEvent
  | start (t : ThreadId) (call : LockingCall)
  | next (t : ThreadId) (net : Connections)
  | copy (h : Handle)
  | letGo (t : ThreadId) (h : Handle) (uncaughtException : Bool)
  | other (e : NodeEvent)

/-- The event has nothing to do with `mailboxes_lock`. -/
def NodeEvent.isLockFree : NodeEvent → Bool
  | .publishPort _ | .link _ _ _ | .unlink _ _ _ | .receive _ | .receiveTmo _ _
  | .incomingLink _ _ | .incomingUnlink _ _ => true
  | _ => false

namespace LockedNode

def start (nodeName : Str) : LockedNode where
  node := .create nodeName
  clients _ := 0
  temporaries _ := 0
  owner := none
  code _ := []
  unwinding _ := false

def setCode (t : ThreadId) (code : List Statement) (s : LockedNode) : LockedNode :=
  { s with code := Function.update s.code t code }

/-- An exception leaves the statement. -/
def raise (t : ThreadId) (rest : List Statement) (s : LockedNode) : LockedNode :=
  { s.setCode t rest with unwinding := Function.update s.unwinding t true }

/-- `close_mailbox` -/
def closeMailbox (id : EPid) (name reason : Str) : List Statement :=
  [.closeLinks id reason, .lock (.closeMailbox id name)]

/-- `~actual_mailbox`, by the thread that has let go of the last pointer. -/
def destroy (t : ThreadId) (h : Handle) (uncaughtException : Bool) (rest : List Statement)
    (s : LockedNode) : LockedNode :=
  match s.node.objects[h]? with
  | none => s.setCode t rest
  | some o =>
    if uncaughtException then
      { s.setCode t rest with
        node := (s.node.expire h).closeMailboxAsync h o.ownPid o.ownName }
    else
      { s.setCode t (closeMailbox o.ownPid o.ownName (bytesOf "normal") ++ .swallow :: rest) with
        node := s.node.expire h }

/-- A local pointer goes out of scope. -/
def release (t : ThreadId) (h : Handle) (uncaughtException : Bool) (rest : List Statement)
    (s : LockedNode) : LockedNode :=
  let s := { s with temporaries := Function.update s.temporaries h (s.temporaries h - 1) }
  if s.clients h + s.temporaries h = 0 then s.destroy t h uncaughtException rest
  else s.setCode t rest

/-- What is done with the mailbox that has been fetched; the pointer lasts until it is done. -/
def withPointer (t : ThreadId) (h : Handle) (body rest : List Statement) (s : LockedNode) :
    LockedNode :=
  { s.setCode t (body ++ .release h :: rest) with
    temporaries := Function.update s.temporaries h (s.temporaries h + 1) }

/-- The first statement of a locked section. -/
def enter (t : ThreadId) (rest : List Statement) (s : LockedNode) :
    LockedSection → Option LockedNode
  | .createMailbox h id none =>
    if (s.node.mailboxes id.key).isSome then none
    else some { s.setCode t rest with
      node := { s.node with mailboxes := ActualNode.insertNew id.key h s.node.mailboxes } }
  | .createMailbox h id (some registeredName) =>
    some { s.setCode t rest with
      node := { s.node with
        mailboxes := ActualNode.insertNew id.key h s.node.mailboxes
        registeredMailboxes :=
          ActualNode.insertNew registeredName h s.node.registeredMailboxes } }
  | .closeMailbox id name => some { s.setCode t rest with node := s.node.remove id name }
  | .receiveIncoming msg toPid =>
    match ActualNode.fetchMailbox toPid.key (ActualNode.keyToName toPid) s.node.mailboxes s.node with
    | (.error _, table) =>
      some ({ s with node := { s.node with mailboxes := table } }.raise t rest)
    | (.ok h, _) => some (s.withPointer t h [.onIncoming h msg] rest)
  | .receiveIncomingName msg toName =>
    match ActualNode.fetchMailbox toName toName s.node.registeredMailboxes s.node with
    | (.error _, table) =>
      some ({ s with node := { s.node with registeredMailboxes := table } }.raise t rest)
    | (.ok h, _) => some (s.withPointer t h [.onIncoming h msg] rest)
  | .incomingExit fromPid toPid reason =>
    match ActualNode.fetchMailbox toPid.key (ActualNode.keyToName toPid) s.node.mailboxes s.node with
    | (.error _, table) =>
      some ({ s with node := { s.node with mailboxes := table } }.raise t rest)
    | (.ok h, _) =>
      some (s.withPointer t h [.onLinkBroken h reason fromPid, .unlink fromPid toPid] rest)

/-- Run a statement; `rest` is what the thread has to do after it. -/
def exec (t : ThreadId) (net : Connections) (rest : List Statement) (s : LockedNode) :
    Statement → Option LockedNode
  | .lock locked =>
    if s.owner = none then
      some { s.setCode t (.enter locked :: .unlock :: rest) with owner := some t }
    else none
  | .unlock => some { s.setCode t rest with owner := none }
  | .enter locked => s.enter t rest locked
  | .onIncoming h msg =>
    some { s.setCode t rest with node := s.node.onMailbox h (.onIncoming msg) }
  | .onLinkBroken h reason pid =>
    some { s.setCode t rest with node := s.node.onMailbox h (.onLinkBroken reason pid) }
  | .unlink fromPid toPid =>
    some { s.setCode t rest with node := s.node.incomingUnlink fromPid toPid }
  | .release h => some (s.release t h false rest)
  | .closeLinks dyingProcess reason =>
    match s.node.mailboxLinker.removeLinksFrom dyingProcess with
    | (closedLinks, linker) =>
      some { s.setCode t (closedLinks.map (.requestExit2 dyingProcess · reason) ++ rest) with
        node := { s.node with mailboxLinker := linker } }
  | .requestExit2 fromPid toPid reason =>
    if toPid.nodeName ≠ s.node.nodeName then
      match s.node.request net (.exit2 fromPid toPid reason) toPid with
      | (.error _, n) => some ({ s with node := n }.raise t rest)
      | (.ok (), n) => some { s.setCode t rest with node := n }
    else some (s.setCode t (.lock (.incomingExit fromPid toPid reason) :: rest))
  | .swallow => some (s.setCode t rest)

/-- What an exception does to a statement that it comes by. -/
def unwind (t : ThreadId) (rest : List Statement) (s : LockedNode) : Statement → LockedNode
  | .unlock => { s.setCode t rest with owner := none }
  | .release h => s.release t h true rest
  | .swallow => { s.setCode t rest with unwinding := Function.update s.unwinding t false }
  | _ => s.setCode t rest

/-- What a call does before its first statement, and its statements. -/
def begin (s : LockedNode) : LockingCall → Option (LockedNode × List Statement)
  | .createMailbox =>
    match s.node.newMailbox [] with
    | (mbox, n) =>
      let h := s.node.objects.length
      some ({ s with node := n, clients := Function.update s.clients h 1 },
        [.lock (.createMailbox h mbox.ownPid none)])
  | .createMailboxNamed registeredName =>
    match s.node.newMailbox registeredName with
    | (mbox, n) =>
      let h := s.node.objects.length
      some ({ s with node := n, clients := Function.update s.clients h 1 },
        [.lock (.createMailbox h mbox.ownPid (some registeredName))])
  | .receiveIncoming msg toPid => some (s, [.lock (.receiveIncoming msg toPid)])
  | .receiveIncomingName msg toName => some (s, [.lock (.receiveIncomingName msg toName)])
  | .incomingExit fromPid toPid reason => some (s, [.lock (.incomingExit fromPid toPid reason)])
  | .close h =>
    if 0 < s.clients h then s.node.objects[h]?.map fun o =>
      (s, closeMailbox o.ownPid o.ownName (bytesOf "normal"))
    else none
  | .runPosted =>
    match s.node.posted with
    | [] => none
    | p :: posted => some ({ s with node := { s.node with posted := posted } },
        closeMailbox p.id p.name p.reason)

def step (s : LockedNode) : LockEvent → Option LockedNode
  | .start t call =>
    if s.code t = [] then (s.begin call).map fun (s, code) =>
      { s.setCode t code with unwinding := Function.update s.unwinding t false }
    else none
  | .next t net =>
    match s.code t with
    | [] => none
    | statement :: rest =>
      if s.unwinding t then some (s.unwind t rest statement) else s.exec t net rest statement
  | .copy h =>
    if 0 < s.clients h then some { s with clients := Function.update s.clients h (s.clients h + 1) }
    else none
  | .letGo t h uncaughtException =>
    if s.code t = [] ∧ 0 < s.clients h then
      let s := { s with
        clients := Function.update s.clients h (s.clients h - 1)
        unwinding := Function.update s.unwinding t false }
      if s.clients h + s.temporaries h = 0 then some (s.destroy t h uncaughtException [])
      else some s
    else none
  | .other e =>
    if e.isLockFree then (s.node.step e).map fun n => { s with node := n } else none

/-! ### The property, and the condition -/

/-- No thread is about to take the lock that it has. -/
def NoRelock (s : LockedNode) : Prop :=
  ∀ t locked rest, s.code t = .lock locked :: rest → s.unwinding t = false → s.owner ≠ some t

/-- The thread has a pointer to the mailbox, in a call that is under way. -/
def HasPointer (s : LockedNode) (t : ThreadId) (h : Handle) : Prop := .release h ∈ s.code t

/-- A client does not let go of the last `mailbox_ptr` while a call has a pointer to the mailbox. -/
def LetsGoLast (s : LockedNode) : LockEvent → Prop
  | .letGo _ h _ => s.clients h = 1 → ∀ t, ¬ s.HasPointer t h
  | _ => True

end LockedNode

/-! ### Which mailboxes are expired -/

namespace ActualNode

theorem isExpired_expire (h h' : Handle) (n : ActualNode) :
    (n.expire h).isExpired h' = (decide (h = h') || n.isExpired h') := by
  rcases ho : n.objects[h']? with _ | o
  · simp [isExpired, expire, List.getElem?_modify, ho]
  · by_cases hh : h = h' <;> simp [isExpired, expire, ho, hh]

theorem isExpired_newMailbox (name : Str) (n : ActualNode) {h : Handle}
    (hh : h ≠ n.objects.length) : (n.newMailbox name).2.isExpired h = n.isExpired h := by
  have hobjects : (n.newMailbox name).2.objects =
      n.objects ++ [(n.newMailbox name).1] := rfl
  rw [isExpired, hobjects, isExpired]
  rcases Nat.lt_or_gt_of_ne hh with hlt | hgt
  · rw [List.getElem?_append_left hlt]
  · rw [List.getElem?_eq_none (by simp; omega), List.getElem?_eq_none (by omega)]

theorem isExpired_of_fetchMailbox {κ : Type} [DecidableEq κ] {key : κ} {name : Str}
    {table table' : κ → Option Handle} {n : ActualNode} {h : Handle}
    (hfetch : fetchMailbox key name table n = (.ok h, table')) : n.isExpired h = false := by
  rw [fetchMailbox] at hfetch
  split at hfetch
  · cases hfetch
  · split at hfetch
    · cases hfetch
    · next hexp =>
      cases hfetch
      simpa using hexp

theorem isExpired_request (net : Connections) (op : ControlMsg) (p : EPid) (n : ActualNode) :
    (n.request net op p).2.isExpired = n.isExpired := by
  rw [request]
  split <;> rfl

/-- What has nothing to do with the lock leaves the pointers to the mailboxes alone. -/
theorem isExpired_step {n n' : ActualNode} {e : NodeEvent} (he : e.isLockFree = true)
    (h : n.step e = some n') : n'.isExpired = n.isExpired := by
  cases e with
  | publishPort creation =>
    obtain rfl := Option.some_inj.mp h
    rfl
  | link h' p net =>
    obtain ⟨o, -, rfl⟩ := Option.map_eq_some_iff.mp h
    rw [link]
    split
    · have hrequest := isExpired_request net (.link o.ownPid p) p n
      split <;> next heq =>
        rw [heq] at hrequest
        exact hrequest
    · rfl
  | unlink h' p net =>
    obtain ⟨o, -, rfl⟩ := Option.map_eq_some_iff.mp h
    rw [unlink]
    split
    · exact isExpired_request net _ p (n.incomingUnlink o.ownPid p)
    · rfl
  | receive h' =>
    obtain ⟨o, -, hreceive⟩ := Option.bind_eq_some_iff.mp h
    split at hreceive
    · cases hreceive
    · obtain rfl := Option.some_inj.mp hreceive
      exact isExpired_onMailbox _ _ n
  | receiveTmo h' error =>
    obtain ⟨o, -, rfl⟩ := Option.map_eq_some_iff.mp h
    exact isExpired_onMailbox _ _ n
  | incomingLink fromPid toPid =>
    obtain rfl := Option.some_inj.mp h
    rfl
  | incomingUnlink fromPid toPid =>
    obtain rfl := Option.some_inj.mp h
    rfl
  | _ => cases he

end ActualNode

/-! ### What a thread has to do -/

/-- A statement of a locked section. -/
def Statement.isInside : Statement → Bool
  | .enter _ | .onIncoming _ _ | .onLinkBroken _ _ _ | .unlink _ _ | .release _ => true
  | _ => false

/-- A statement that is run without the lock. -/
def Statement.isOutside : Statement → Bool
  | .lock _ | .closeLinks _ _ | .requestExit2 _ _ _ | .swallow => true
  | _ => false

namespace LockedNode

variable {s s' : LockedNode} {t : ThreadId} {h : Handle}

/-- What the thread that has the lock has to do. -/
def ownerCode (s : LockedNode) : List Statement :=
  match s.owner with
  | some t => s.code t
  | none => []

/-- What is true of a node as long as its clients let go of each mailbox last. -/
structure Inv (s : LockedNode) : Prop where
  outside : ∀ t, s.owner ≠ some t → ∀ i ∈ s.code t, i.isOutside = true
  inside : ∀ t, s.owner = some t → ∃ inner rest, s.code t = inner ++ .unlock :: rest ∧
    (∀ i ∈ inner, i.isInside = true) ∧ ∀ i ∈ rest, i.isOutside = true
  counted : ∀ h, s.temporaries h = s.ownerCode.count (.release h)
  kept : ∀ t h, s.HasPointer t h → 0 < s.clients h
  live : ∀ h, s.node.isExpired h = false → 0 < s.clients h

theorem inv_start (nodeName : Str) : Inv (start nodeName) where
  outside _ _ i hi := by cases hi
  inside _ howner := by cases howner
  counted _ := rfl
  kept _ _ hpointer := by cases hpointer
  live _ hexp := by cases hexp

/-- **Whoever has the lock does not take it.** -/
theorem Inv.no_relock (hs : Inv s) : NoRelock s := by
  intro t locked rest hcode _ howner
  obtain ⟨inner, rest', hcode', hinner, -⟩ := hs.inside t howner
  rw [hcode] at hcode'
  cases inner with
  | nil => cases hcode'
  | cons i inner =>
    obtain ⟨rfl, -⟩ := List.cons.inj hcode'
    exact absurd (hinner _ List.mem_cons_self) (by simp [Statement.isInside])

theorem release_notMem_of_outside {code : List Statement}
    (hcode : ∀ i ∈ code, i.isOutside = true) (h : Handle) : .release h ∉ code :=
  fun hmem => absurd (hcode _ hmem) (by simp [Statement.isOutside])

/-- A pointer in a call is one of the thread that has the lock. -/
theorem Inv.owner_of_hasPointer (hs : Inv s) (hpointer : s.HasPointer t h) :
    s.owner = some t := by
  by_contra howner
  exact release_notMem_of_outside (hs.outside t howner) h hpointer

theorem ownerCode_of_owner (h : s.owner = some t) : s.ownerCode = s.code t := by
  rw [ownerCode, h]

theorem Inv.temporaries_pos_iff (hs : Inv s) :
    0 < s.temporaries h ↔ ∃ t, s.HasPointer t h := by
  rw [hs.counted h, List.count_pos_iff]
  constructor
  · intro hmem
    rcases howner : s.owner with _ | t
    · rw [ownerCode, howner] at hmem
      cases hmem
    · exact ⟨t, by rwa [ownerCode_of_owner howner] at hmem⟩
  · rintro ⟨t, hpointer⟩
    rw [ownerCode_of_owner (hs.owner_of_hasPointer hpointer)]
    exact hpointer

theorem count_release {inner rest : List Statement} (hrest : ∀ i ∈ rest, i.isOutside = true)
    (h : Handle) :
    (inner ++ .unlock :: rest).count (.release h) = inner.count (.release h) := by
  have hnone : rest.count (.release h) = 0 :=
    List.count_eq_zero_of_not_mem (release_notMem_of_outside hrest h)
  rw [List.count_append, List.count_cons_of_ne (by simp), hnone, Nat.add_zero]

/-- What the thread that has the lock has to do, one statement after the other. -/
theorem Inv.inside_cons (hs : Inv s) (ht : s.owner = some t) {i : Statement}
    {rest : List Statement} (hcode : s.code t = i :: rest) :
    i = .unlock ∧ (∀ j ∈ rest, j.isOutside = true) ∨ i.isInside = true ∧ ∃ inner rest',
      rest = inner ++ .unlock :: rest' ∧ (∀ j ∈ inner, j.isInside = true) ∧
        ∀ j ∈ rest', j.isOutside = true := by
  obtain ⟨inner, rest', hsplit, hinner, hrest⟩ := hs.inside t ht
  rw [hcode] at hsplit
  cases inner with
  | nil =>
    obtain ⟨rfl, rfl⟩ := List.cons.inj hsplit
    exact .inl ⟨rfl, hrest⟩
  | cons j inner =>
    obtain ⟨rfl, rfl⟩ := List.cons.inj hsplit
    exact .inr ⟨hinner _ List.mem_cons_self, inner, rest', rfl,
      fun j hj => hinner j (List.mem_cons_of_mem _ hj), hrest⟩

/-- The thread that has the lock goes on inside the locked section. -/
theorem Inv.of_inside (hs : Inv s) (ht : s.owner = some t) {inner rest : List Statement}
    (hinner : ∀ i ∈ inner, i.isInside = true) (hrest : ∀ i ∈ rest, i.isOutside = true)
    (howner : s'.owner = s.owner)
    (hcode : s'.code = Function.update s.code t (inner ++ .unlock :: rest))
    (hclients : s'.clients = s.clients)
    (htemporaries : ∀ h, s'.temporaries h = inner.count (.release h))
    (hkept : ∀ h, .release h ∈ inner → 0 < s.clients h)
    (hexp : s'.node.isExpired = s.node.isExpired) : Inv s' := by
  have hself : s'.code t = inner ++ .unlock :: rest := by rw [hcode, Function.update_self]
  have hother (t' : ThreadId) (hne : t' ≠ t) : s'.code t' = s.code t' := by
    rw [hcode, Function.update_of_ne hne]
  refine ⟨fun t' hne => ?_, fun t' heq => ?_, fun h => ?_, fun t' h hpointer => ?_, fun h hlive => ?_⟩
  · rw [howner] at hne
    rw [hother t' (by rintro rfl; exact hne ht)]
    exact hs.outside t' hne
  · rw [howner, ht] at heq
    obtain rfl := Option.some_inj.mp heq
    exact ⟨inner, rest, hself, hinner, hrest⟩
  · rw [ownerCode_of_owner (howner.trans ht), hself, count_release hrest, htemporaries]
  · rw [hclients]
    by_cases hne : t' = t
    · subst hne
      rw [HasPointer, hself, List.mem_append, List.mem_cons] at hpointer
      rcases hpointer with hmem | heq | hmem
      · exact hkept h hmem
      · cases heq
      · exact absurd hmem (release_notMem_of_outside hrest h)
    · rw [HasPointer, hother t' hne] at hpointer
      exact hs.kept t' h hpointer
  · rw [hclients]
    rw [hexp] at hlive
    exact hs.live h hlive

/-- A thread without the lock goes on outside of it. -/
theorem Inv.of_outside (hs : Inv s) (ht : s.owner ≠ some t) {code : List Statement}
    (hoff : ∀ i ∈ code, i.isOutside = true) (howner : s'.owner = s.owner)
    (hcode : s'.code = Function.update s.code t code)
    (htemporaries : s'.temporaries = s.temporaries)
    (hclients : ∀ h, 0 < s.clients h → 0 < s'.clients h ∨ ∀ t, ¬ s.HasPointer t h)
    (hlive : ∀ h, s'.node.isExpired h = false → 0 < s'.clients h) : Inv s' := by
  have hself : s'.code t = code := by rw [hcode, Function.update_self]
  have hother (t' : ThreadId) (hne : t' ≠ t) : s'.code t' = s.code t' := by
    rw [hcode, Function.update_of_ne hne]
  refine ⟨fun t' hne => ?_, fun t' heq => ?_, fun h => ?_, fun t' h hpointer => ?_, hlive⟩
  · by_cases ht' : t' = t
    · subst ht'
      rw [hself]
      exact hoff
    · rw [hother t' ht']
      exact hs.outside t' (by rwa [howner] at hne)
  · rw [howner] at heq
    rw [hother t' (by rintro rfl; exact ht heq)]
    exact hs.inside t' heq
  · have hsame : s'.ownerCode = s.ownerCode := by
      rw [ownerCode, ownerCode, howner]
      rcases howner' : s.owner with _ | t'
      · rfl
      · exact hother t' (by rintro rfl; exact ht howner')
    rw [htemporaries, hsame]
    exact hs.counted h
  · have hpointer' : s.HasPointer t' h := by
      by_cases ht' : t' = t
      · subst ht'
        rw [HasPointer, hself] at hpointer
        exact absurd hpointer (release_notMem_of_outside hoff h)
      · rwa [HasPointer, hother t' ht'] at hpointer
    exact (hclients h (hs.kept t' h hpointer')).resolve_right fun hnone => hnone t' hpointer'

/-- The lock is taken. -/
theorem Inv.lock (hs : Inv s) (hfree : s.owner = none) {locked : LockedSection}
    {rest : List Statement} (hcode : s.code t = .lock locked :: rest) :
    Inv { s.setCode t (.enter locked :: .unlock :: rest) with owner := some t } := by
  have hoff := hs.outside t (by rw [hfree]; simp)
  have hrest : ∀ i ∈ rest, i.isOutside = true := fun i hi =>
    hoff i (by rw [hcode]; exact List.mem_cons_of_mem _ hi)
  refine ⟨fun t' hne => ?_, fun t' heq => ?_, fun h => ?_, fun t' h hpointer => ?_, hs.live⟩
  · have hne' : t' ≠ t := by
      rintro rfl
      exact hne rfl
    have hsame : Function.update s.code t (.enter locked :: .unlock :: rest) t' = s.code t' :=
      Function.update_of_ne hne' _ _
    refine fun i hi => hs.outside t' (by rw [hfree]; simp) i ?_
    rw [← hsame]
    exact hi
  · obtain rfl := Option.some_inj.mp heq
    exact ⟨[.enter locked], rest, Function.update_self _ _ _, by simp [Statement.isInside], hrest⟩
  · have hnone : s.temporaries h = 0 := by
      rw [hs.counted h, ownerCode, hfree]
      rfl
    have hself : ownerCode { s.setCode t (.enter locked :: .unlock :: rest) with owner := some t } =
        [.enter locked] ++ .unlock :: rest := Function.update_self _ _ _
    rw [hself, count_release hrest]
    exact hnone
  · by_cases ht' : t' = t
    · subst ht'
      have hself : Function.update s.code t' (.enter locked :: .unlock :: rest) t' =
        .enter locked :: .unlock :: rest := Function.update_self _ _ _
      have hmem : .release h ∈ Statement.enter locked :: .unlock :: rest := by
        rw [← hself]
        exact hpointer
      simp [release_notMem_of_outside hrest h] at hmem
    · have hsame : Function.update s.code t (.enter locked :: .unlock :: rest) t' = s.code t' :=
        Function.update_of_ne ht' _ _
      refine hs.kept t' h ?_
      rw [HasPointer, ← hsame]
      exact hpointer

/-- The guard goes out of scope. -/
theorem Inv.unlock (hs : Inv s) (ht : s.owner = some t) {rest : List Statement}
    (hcode : s.code t = .unlock :: rest) : Inv { s.setCode t rest with owner := none } := by
  have hrest : ∀ i ∈ rest, i.isOutside = true := by
    rcases hs.inside_cons ht hcode with ⟨-, hrest⟩ | ⟨hinside, -⟩
    · exact hrest
    · cases hinside
  have hoff (t' : ThreadId) : ∀ i ∈ Function.update s.code t rest t', i.isOutside = true := by
    by_cases ht' : t' = t
    · subst ht'
      rw [Function.update_self]
      exact hrest
    · rw [Function.update_of_ne ht']
      refine hs.outside t' fun howner => ht' ?_
      exact Option.some_inj.mp (howner.symm.trans ht)
  refine ⟨fun t' _ => hoff t', fun t' heq => ?_, fun h => ?_, fun t' h hpointer => ?_, hs.live⟩
  · cases heq
  · have hcount := hs.counted h
    rw [ownerCode_of_owner ht, hcode, List.count_cons_of_ne (by simp),
      List.count_eq_zero_of_not_mem (release_notMem_of_outside hrest h)] at hcount
    exact hcount
  · exact absurd hpointer (release_notMem_of_outside (hoff t') h)

/-! ### Every statement -/

theorem Inv.owner_of_not_outside (hs : Inv s) {i : Statement} {rest : List Statement}
    (hcode : s.code t = i :: rest) (hi : i.isOutside = false) : s.owner = some t := by
  by_contra hne
  have hout := hs.outside t hne i (by rw [hcode]; exact List.mem_cons_self)
  rw [hi] at hout
  cases hout

theorem Inv.not_owner_of_outside (hs : Inv s) {i : Statement} {rest : List Statement}
    (hcode : s.code t = i :: rest) (hi : i.isOutside = true) : s.owner ≠ some t := by
  intro ht
  rcases hs.inside_cons ht hcode with ⟨rfl, -⟩ | ⟨hinside, -⟩
  · cases hi
  · cases i with
    | lock | closeLinks | requestExit2 | swallow => cases hinside
    | _ => cases hi

theorem Inv.not_owner_of_idle (hs : Inv s) (hcode : s.code t = []) : s.owner ≠ some t := by
  intro ht
  obtain ⟨inner, rest, hsplit, -⟩ := hs.inside t ht
  rw [hcode] at hsplit
  simp at hsplit

theorem Inv.outside_tail (hs : Inv s) (ht : s.owner ≠ some t) {i : Statement}
    {rest : List Statement} (hcode : s.code t = i :: rest) : ∀ j ∈ rest, j.isOutside = true :=
  fun j hj => hs.outside t ht j (by rw [hcode]; exact List.mem_cons_of_mem _ hj)

/-- A thread without the lock gets something else to do. -/
theorem Inv.replace (hs : Inv s) (ht : s.owner ≠ some t) {code : List Statement}
    (hoff : ∀ i ∈ code, i.isOutside = true) {n : ActualNode} (u : ThreadId → Bool)
    (hexp : n.isExpired = s.node.isExpired) :
    Inv { s.setCode t code with node := n, unwinding := u } := by
  refine hs.of_outside ht hoff rfl rfl rfl (fun h hpos => .inl hpos) fun h hlive => ?_
  exact hs.live h ((congrFun hexp h).symm.trans hlive)

/-- A thread is done with a statement that neither takes nor gives back the lock, nor a pointer. -/
theorem Inv.goOn (hs : Inv s) {i : Statement} {rest : List Statement} (hcode : s.code t = i :: rest)
    (hunlock : i ≠ .unlock) (hrelease : ∀ h, i ≠ .release h) {n : ActualNode}
    (u : ThreadId → Bool) (hexp : n.isExpired = s.node.isExpired) :
    Inv { s.setCode t rest with node := n, unwinding := u } := by
  by_cases ht : s.owner = some t
  · rcases hs.inside_cons ht hcode with ⟨heq, -⟩ | ⟨-, inner, rest', rfl, hinner, hrest⟩
    · exact absurd heq hunlock
    · have hcount (h : Handle) : s.temporaries h = inner.count (.release h) := by
        rw [hs.counted h, ownerCode_of_owner ht, hcode, List.count_cons_of_ne (hrelease h),
          count_release hrest]
      refine hs.of_inside ht hinner hrest rfl rfl rfl hcount (fun h hmem => hs.kept t h ?_) hexp
      rw [HasPointer, hcode]
      exact List.mem_cons_of_mem _ (List.mem_append_left _ hmem)
  · exact hs.replace ht (hs.outside_tail ht hcode) u hexp

/-- **A local pointer goes out of scope**, and the client's is still there. -/
theorem Inv.release (hs : Inv s) {rest : List Statement} (hcode : s.code t = .release h :: rest)
    (uncaughtException : Bool) : Inv (s.release t h uncaughtException rest) := by
  have ht := hs.owner_of_not_outside hcode rfl
  have hkept : 0 < s.clients h := hs.kept t h (by rw [HasPointer, hcode]; exact List.mem_cons_self)
  rcases hs.inside_cons ht hcode with ⟨heq, -⟩ | ⟨-, inner, rest', rfl, hinner, hrest⟩
  · cases heq
  · have hcount (h' : Handle) : Function.update s.temporaries h (s.temporaries h - 1) h' =
        inner.count (.release h') := by
      have hbefore := hs.counted h'
      rw [ownerCode_of_owner ht, hcode, List.count_cons, count_release hrest] at hbefore
      by_cases hh : h' = h
      · subst hh
        rw [Function.update_self, hbefore]
        simp
      · rw [Function.update_of_ne hh, hbefore]
        simp [Ne.symm hh]
    rw [LockedNode.release]
    dsimp only
    rw [if_neg (by omega)]
    refine hs.of_inside ht hinner hrest rfl rfl rfl hcount (fun h' hmem => ?_) rfl
    refine hs.kept t h' ?_
    rw [HasPointer, hcode]
    exact List.mem_cons_of_mem _ (List.mem_append_left _ hmem)

/-- **A mailbox has been fetched.** A client has it, or it would be expired. -/
theorem Inv.withPointer (hs : Inv s) {locked : LockedSection} {body rest : List Statement}
    (hcode : s.code t = .enter locked :: rest) (hexp : s.node.isExpired h = false)
    (hbody : ∀ i ∈ body, i.isInside = true) (hnone : ∀ h, .release h ∉ body) :
    Inv (s.withPointer t h body rest) := by
  have ht := hs.owner_of_not_outside hcode rfl
  rcases hs.inside_cons ht hcode with ⟨heq, -⟩ | ⟨-, inner, rest', rfl, hinner, hrest⟩
  · cases heq
  · have hassoc : body ++ .release h :: (inner ++ .unlock :: rest') =
        (body ++ .release h :: inner) ++ .unlock :: rest' := by simp
    have hcount (h' : Handle) : Function.update s.temporaries h (s.temporaries h + 1) h' =
        (body ++ .release h :: inner).count (.release h') := by
      have hbefore := hs.counted h'
      rw [ownerCode_of_owner ht, hcode, List.count_cons_of_ne (by simp), count_release hrest]
        at hbefore
      rw [List.count_append, List.count_eq_zero_of_not_mem (hnone h'), List.count_cons, Nat.zero_add]
      by_cases hh : h' = h
      · subst hh
        rw [Function.update_self, hbefore]
        simp
      · rw [Function.update_of_ne hh, hbefore]
        simp [Ne.symm hh]
    rw [LockedNode.withPointer, hassoc]
    refine hs.of_inside ht (fun i hi => ?_) hrest rfl rfl rfl hcount (fun h' hmem => ?_) rfl
    · rcases List.mem_append.mp hi with hi | hi
      · exact hbody i hi
      · rcases List.mem_cons.mp hi with rfl | hi
        · rfl
        · exact hinner i hi
    · rcases List.mem_append.mp hmem with hmem | hmem
      · exact absurd hmem (hnone h')
      · rcases List.mem_cons.mp hmem with heq | hmem
        · cases heq
          exact hs.live h hexp
        · refine hs.kept t h' ?_
          rw [HasPointer, hcode]
          exact List.mem_cons_of_mem _ (List.mem_append_left _ hmem)

theorem Inv.enter (hs : Inv s) {locked : LockedSection} {rest : List Statement}
    (hcode : s.code t = .enter locked :: rest) (h : s.enter t rest locked = some s') : Inv s' := by
  have hgo {n : ActualNode} (u : ThreadId → Bool) (hexp : n.isExpired = s.node.isExpired) :
      Inv { s.setCode t rest with node := n, unwinding := u } :=
    hs.goOn hcode (by simp) (by simp) u hexp
  cases locked with
  | createMailbox h' id registeredName =>
    cases registeredName with
    | none =>
      rw [LockedNode.enter] at h
      split at h
      · cases h
      · obtain rfl := Option.some_inj.mp h
        exact hgo s.unwinding rfl
    | some registeredName =>
      obtain rfl := Option.some_inj.mp h
      exact hgo s.unwinding rfl
  | closeMailbox id name =>
    obtain rfl := Option.some_inj.mp h
    exact hgo s.unwinding rfl
  | receiveIncoming _ _ | receiveIncomingName _ _ | incomingExit _ _ _ =>
    rw [LockedNode.enter] at h
    split at h
    · obtain rfl := Option.some_inj.mp h
      exact hgo _ rfl
    · next hfetch =>
      obtain rfl := Option.some_inj.mp h
      exact hs.withPointer hcode (ActualNode.isExpired_of_fetchMailbox hfetch)
        (by simp [Statement.isInside]) (by simp)

/-- **A statement is run.** -/
theorem Inv.exec (hs : Inv s) {net : Connections} {i : Statement} {rest : List Statement}
    (hcode : s.code t = i :: rest) (h : s.exec t net rest i = some s') : Inv s' := by
  cases i with
  | lock locked =>
    rw [LockedNode.exec] at h
    split at h
    · next hfree =>
      obtain rfl := Option.some_inj.mp h
      exact hs.lock hfree hcode
    · cases h
  | unlock =>
    obtain rfl := Option.some_inj.mp h
    exact hs.unlock (hs.owner_of_not_outside hcode rfl) hcode
  | enter locked => exact hs.enter hcode h
  | onIncoming h' msg =>
    obtain rfl := Option.some_inj.mp h
    exact hs.goOn hcode (by simp) (by simp) s.unwinding (ActualNode.isExpired_onMailbox _ _ _)
  | onLinkBroken h' reason pid =>
    obtain rfl := Option.some_inj.mp h
    exact hs.goOn hcode (by simp) (by simp) s.unwinding (ActualNode.isExpired_onMailbox _ _ _)
  | unlink fromPid toPid =>
    obtain rfl := Option.some_inj.mp h
    exact hs.goOn hcode (by simp) (by simp) s.unwinding rfl
  | release h' =>
    obtain rfl := Option.some_inj.mp h
    exact hs.release hcode false
  | closeLinks dyingProcess reason =>
    have ht := hs.not_owner_of_outside hcode rfl
    obtain rfl := Option.some_inj.mp h
    refine hs.replace ht (fun i hi => ?_) s.unwinding rfl
    rcases List.mem_append.mp hi with hi | hi
    · obtain ⟨p, -, rfl⟩ := List.mem_map.mp hi
      rfl
    · exact hs.outside_tail ht hcode i hi
  | requestExit2 fromPid toPid reason =>
    have ht := hs.not_owner_of_outside hcode rfl
    rw [LockedNode.exec] at h
    split at h
    · have hexp := ActualNode.isExpired_request net (.exit2 fromPid toPid reason) toPid s.node
      split at h <;> next heq =>
        rw [heq] at hexp
        obtain rfl := Option.some_inj.mp h
        exact hs.goOn hcode (by simp) (by simp) _ hexp
    · obtain rfl := Option.some_inj.mp h
      refine hs.replace ht (fun i hi => ?_) s.unwinding rfl
      rcases List.mem_cons.mp hi with rfl | hi
      · rfl
      · exact hs.outside_tail ht hcode i hi
  | swallow =>
    obtain rfl := Option.some_inj.mp h
    exact hs.goOn hcode (by simp) (by simp) s.unwinding rfl

/-- **A statement is left by an exception.** -/
theorem Inv.unwind (hs : Inv s) {i : Statement} {rest : List Statement}
    (hcode : s.code t = i :: rest) : Inv (s.unwind t rest i) := by
  cases i with
  | unlock => exact hs.unlock (hs.owner_of_not_outside hcode rfl) hcode
  | release h => exact hs.release hcode true
  | _ => exact hs.goOn hcode (by simp) (by simp) _ rfl

/-! ### Every event -/

theorem closeMailbox_outside (id : EPid) (name reason : Str) :
    ∀ i ∈ closeMailbox id name reason, i.isOutside = true := by
  simp [closeMailbox, Statement.isOutside]

/-- A new mailbox, and its first pointer. -/
theorem Inv.newMailbox (hs : Inv s) (ht : s.owner ≠ some t) (name : Str) {code : List Statement}
    (hoff : ∀ i ∈ code, i.isOutside = true) (u : ThreadId → Bool) :
    Inv { s.setCode t code with
      node := (s.node.newMailbox name).2
      clients := Function.update s.clients s.node.objects.length 1
      unwinding := u } := by
  have hpos (h : Handle) (hh : h ≠ s.node.objects.length → 0 < s.clients h) :
      0 < Function.update s.clients s.node.objects.length 1 h := by
    by_cases hlast : h = s.node.objects.length
    · rw [hlast, Function.update_self]
      exact Nat.one_pos
    · rw [Function.update_of_ne hlast]
      exact hh hlast
  refine hs.of_outside ht hoff rfl rfl rfl (fun h hclients => .inl (hpos h fun _ => hclients))
    fun h hlive => hpos h fun hh => hs.live h ?_
  exact (ActualNode.isExpired_newMailbox name s.node hh).symm.trans hlive

theorem Inv.begin (hs : Inv s) (hcode : s.code t = []) {call : LockingCall} {code : List Statement}
    (h : s.begin call = some (s', code)) (u : ThreadId → Bool) :
    Inv { s'.setCode t code with unwinding := u } := by
  have ht := hs.not_owner_of_idle hcode
  cases call with
  | createMailbox =>
    obtain ⟨rfl, rfl⟩ := Prod.mk.inj (Option.some_inj.mp h)
    exact hs.newMailbox ht [] (by simp [Statement.isOutside]) u
  | createMailboxNamed registeredName =>
    obtain ⟨rfl, rfl⟩ := Prod.mk.inj (Option.some_inj.mp h)
    exact hs.newMailbox ht registeredName (by simp [Statement.isOutside]) u
  | close h' =>
    rw [LockedNode.begin] at h
    split at h
    · obtain ⟨o, -, heq⟩ := Option.map_eq_some_iff.mp h
      obtain ⟨rfl, rfl⟩ := Prod.mk.inj heq
      exact hs.replace ht (closeMailbox_outside _ _ _) u rfl
    · cases h
  | runPosted =>
    rw [LockedNode.begin] at h
    split at h
    · cases h
    · obtain ⟨rfl, rfl⟩ := Prod.mk.inj (Option.some_inj.mp h)
      exact hs.replace ht (closeMailbox_outside _ _ _) u rfl
  | _ =>
    obtain ⟨rfl, rfl⟩ := Prod.mk.inj (Option.some_inj.mp h)
    exact hs.replace ht (by simp [Statement.isOutside]) u rfl

/-- **A client lets go of a `mailbox_ptr`**: of its last one only if no call has a pointer. -/
theorem Inv.letGo (hs : Inv s) (hcode : s.code t = []) (hpos : 0 < s.clients h)
    (hlast : s.clients h = 1 → ∀ t, ¬ s.HasPointer t h) {code : List Statement}
    (hoff : ∀ i ∈ code, i.isOutside = true) {n : ActualNode} (u : ThreadId → Bool)
    (hexp : ∀ h', n.isExpired h' = false → s.node.isExpired h' = false)
    (hgone : s.clients h = 1 → n.isExpired h = true) :
    Inv { s.setCode t code with
      node := n, clients := Function.update s.clients h (s.clients h - 1), unwinding := u } := by
  have hclients (h' : Handle) (hh : 0 < s.clients h') (hne : h' = h → s.clients h ≠ 1) :
      0 < Function.update s.clients h (s.clients h - 1) h' := by
    by_cases heq : h' = h
    · rw [heq, Function.update_self]
      have := hne heq
      omega
    · rwa [Function.update_of_ne heq]
  refine hs.of_outside (hs.not_owner_of_idle hcode) hoff rfl rfl rfl (fun h' hh => ?_)
    fun h' hlive => hclients h' (hs.live h' (hexp h' hlive)) ?_
  · by_cases hone : h' = h ∧ s.clients h = 1
    · obtain ⟨rfl, hone⟩ := hone
      exact .inr (hlast hone)
    · exact .inl (hclients h' hh fun heq hone' => hone ⟨heq, hone'⟩)
  · rintro rfl hone
    exact absurd (hlive.symm.trans (hgone hone)) (by simp)

/-- **The invariant.** -/
theorem Inv.step (hs : Inv s) {e : LockEvent} (hkeeps : LetsGoLast s e) (h : s.step e = some s') :
    Inv s' := by
  cases e with
  | start t call =>
    rw [LockedNode.step] at h
    split at h
    · next hcode =>
      obtain ⟨⟨s₁, code⟩, hbegin, rfl⟩ := Option.map_eq_some_iff.mp h
      exact hs.begin hcode hbegin _
    · cases h
  | next t net =>
    rw [LockedNode.step] at h
    split at h
    · cases h
    · next i rest hcode =>
      split at h
      · obtain rfl := Option.some_inj.mp h
        exact hs.unwind hcode
      · exact hs.exec hcode h
  | copy h' =>
    rw [LockedNode.step] at h
    split at h
    · obtain rfl := Option.some_inj.mp h
      have hclients (h : Handle) (hpos : 0 < s.clients h) :
          0 < Function.update s.clients h' (s.clients h' + 1) h := by
        by_cases hh : h = h'
        · rw [hh, Function.update_self]
          omega
        · rwa [Function.update_of_ne hh]
      exact ⟨hs.outside, hs.inside, hs.counted, fun t h hp => hclients h (hs.kept t h hp),
        fun h hlive => hclients h (hs.live h hlive)⟩
    · cases h
  | letGo t h' uncaughtException =>
    rw [LockedNode.step] at h
    split at h
    · next hpre =>
      obtain ⟨hcode, hpos⟩ := hpre
      have hsame : Function.update s.code t [] = s.code := by
        rw [← hcode, Function.update_eq_self]
      dsimp only at h
      split at h
      · obtain rfl := Option.some_inj.mp h
        rw [destroy]
        dsimp only
        split
        · next ho =>
          refine hs.letGo hcode hpos hkeeps (by simp) _ (fun _ hlive => hlive) fun _ => ?_
          rw [ActualNode.isExpired, ho]
        · have hexp (h : Handle) (hlive : (s.node.expire h').isExpired h = false) :
              s.node.isExpired h = false := by
            rw [ActualNode.isExpired_expire] at hlive
            exact (Bool.or_eq_false_iff.mp hlive).2
          have hgone : (s.node.expire h').isExpired h' = true := by
            rw [ActualNode.isExpired_expire, decide_eq_true rfl, Bool.true_or]
          split
          · exact hs.letGo hcode hpos hkeeps (by simp) _ hexp fun _ => hgone
          · refine hs.letGo hcode hpos hkeeps (fun i hi => ?_) _ hexp fun _ => hgone
            rcases List.mem_append.mp hi with hi | hi
            · exact closeMailbox_outside _ _ _ i hi
            · rw [List.mem_singleton.mp hi]
              rfl
      · next hne =>
        rw [Function.update_self] at hne
        obtain rfl := Option.some_inj.mp h
        have hmore : s.clients h' ≠ 1 := by
          intro hone
          obtain ⟨t', hpointer⟩ := hs.temporaries_pos_iff.mp (show 0 < s.temporaries h' by omega)
          exact hkeeps hone t' hpointer
        have hnil : ∀ i ∈ ([] : List Statement), i.isOutside = true := by simp
        have hkept := hs.letGo hcode hpos hkeeps hnil (Function.update s.unwinding t false)
          (fun _ hlive => hlive) fun hone => absurd hone hmore
        rwa [setCode, hsame] at hkept
    · cases h
  | other e =>
    rw [LockedNode.step] at h
    split at h
    · next he =>
      obtain ⟨n, hn, rfl⟩ := Option.map_eq_some_iff.mp h
      have hexp := ActualNode.isExpired_step he hn
      exact ⟨hs.outside, hs.inside, hs.counted, hs.kept,
        fun h hlive => hs.live h ((congrFun hexp h).symm.trans hlive)⟩
    · cases h

/-! ### Every run -/

/-- **No thread takes the lock that it has**, in every state of every run in which clients do not let
go of the last `mailbox_ptr` to a mailbox while a call has a pointer to it. -/
theorem noRelock (nodeName : Str) {es : List LockEvent}
    (h : EveryStep step LetsGoLast (start nodeName) es) :
    Throughout step NoRelock (start nodeName) es :=
  (throughout_of_everyStep (P := Inv) (fun _ _ _ hs hkeeps ht => hs.step hkeeps ht)
    (inv_start nodeName) h).mono fun _ hs => hs.no_relock

/-- A client makes a mailbox. -/
def oneMailbox : List LockEvent :=
  .start (.client 0) .createMailbox ::
    List.replicate 3 (.next (.client 0) ActualNode.allReachable)

/-- The I/O thread delivers a message to it, up to where it has a pointer. -/
def deliveryUnderWay : List LockEvent :=
  oneMailbox ++ .start .io (.receiveIncoming [] ⟨bytesOf "n@h", 1, 0, 0⟩) ::
    List.replicate 2 (.next .io ActualNode.allReachable)

/-- Another `mailbox_ptr` is left when one goes out of scope during the delivery. -/
theorem noRelock_of_copy : Throughout step NoRelock (start (bytesOf "n@h"))
    ((deliveryUnderWay ++ [.copy 0]) ++ [.letGo (.client 0) 0 false]) := by
  refine noRelock _ (everyStep_append.mpr ⟨everyStep_of_forall fun e he s => ?_, fun s hs =>
    everyStep_cons.mpr ⟨?_, fun _ _ => everyStep_nil⟩⟩)
  · simp only [deliveryUnderWay, oneMailbox, List.mem_append, List.mem_cons, List.mem_replicate,
      List.not_mem_nil, or_false] at he
    rcases he with ((rfl | ⟨-, rfl⟩) | rfl | ⟨-, rfl⟩) | rfl <;> trivial
  · obtain rfl := Option.some_inj.mp hs
    intro hone
    exact absurd hone (by decide)

/-! ### The last pointer in a locked section -/

/-- **The condition is needed.** When the pointer in a call is the last one, and the mailbox is not
linked, the thread goes on to take the lock that it has. -/
theorem relocks_of_last {o : MailboxObject} {rest : List Statement} (net : Connections)
    (hcode : s.code t = .release h :: rest) (howner : s.owner = some t)
    (hquiet : s.unwinding t = false) (hclients : s.clients h = 0) (hlast : s.temporaries h = 1)
    (ho : s.node.objects[h]? = some o) (hlinks : s.node.mailboxLinker.linkedPids o.ownPid = []) :
    ∃ s', run step s [.next t net, .next t net] = some s' ∧ s'.owner = some t ∧
      s'.unwinding t = false ∧
        s'.code t = .lock (.closeMailbox o.ownPid o.ownName) :: .swallow :: rest := by
  have hzero : s.clients h + Function.update s.temporaries h (s.temporaries h - 1) h = 0 := by
    rw [Function.update_self]
    omega
  obtain ⟨s₁, hs₁, hcode₁, howner₁, hquiet₁, hlinks₁⟩ : ∃ s₁, s.step (.next t net) = some s₁ ∧
      s₁.code t = closeMailbox o.ownPid o.ownName (bytesOf "normal") ++ .swallow :: rest ∧
        s₁.owner = some t ∧ s₁.unwinding t = false ∧
          s₁.node.mailboxLinker.linkedPids o.ownPid = [] := by
    rw [step, hcode]
    dsimp only
    rw [if_neg (by simp [hquiet]), LockedNode.exec, LockedNode.release]
    dsimp only
    rw [if_pos hzero, destroy, ho]
    exact ⟨_, rfl, Function.update_self _ _ _, howner, hquiet, hlinks⟩
  obtain ⟨s', hs', hcode', howner', hquiet'⟩ : ∃ s', s₁.step (.next t net) = some s' ∧
      s'.code t = .lock (.closeMailbox o.ownPid o.ownName) :: .swallow :: rest ∧
        s'.owner = some t ∧ s'.unwinding t = false := by
    rw [step, hcode₁, closeMailbox, List.cons_append]
    dsimp only
    rw [if_neg (by simp [hquiet₁]), LockedNode.exec]
    dsimp only
    rw [Linker.linkedPids] at hlinks₁
    rw [hlinks₁]
    exact ⟨_, rfl, Function.update_self _ _ _, howner₁, hquiet₁⟩
  refine ⟨s', ?_, howner', hquiet', hcode'⟩
  rw [run_cons, hs₁, Option.bind_some, run_cons, hs']
  rfl

/-- A client lets go of its mailbox while the I/O thread delivers a message to it. -/
def abandoned : List LockEvent :=
  deliveryUnderWay ++ .letGo (.client 0) 0 false ::
    List.replicate 3 (.next .io ActualNode.allReachable)

/-- The I/O thread is about to take the lock that it has, in `close_mailbox`. -/
theorem not_noRelock_abandoned : ∃ s, run step (start (bytesOf "n@h")) abandoned = some s ∧
    s.code .io = .lock (.closeMailbox ⟨bytesOf "n@h", 1, 0, 0⟩ []) :: [.swallow, .unlock] ∧
      s.owner = some .io ∧ ¬ Throughout step NoRelock (start (bytesOf "n@h")) abandoned := by
  obtain ⟨s, hrun, hcode, hquiet, howner⟩ : ∃ s, run step (start (bytesOf "n@h")) abandoned = some s ∧
      s.code .io = .lock (.closeMailbox ⟨bytesOf "n@h", 1, 0, 0⟩ []) :: [.swallow, .unlock] ∧
        s.unwinding .io = false ∧ s.owner = some .io := ⟨_, rfl, rfl, rfl, rfl⟩
  refine ⟨s, hrun, hcode, howner, fun h => ?_⟩
  exact h abandoned (List.prefix_refl _) s hrun .io _ _ hcode hquiet howner

end LockedNode

end TinchPp
