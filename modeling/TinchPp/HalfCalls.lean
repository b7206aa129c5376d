import TinchPp.Requests

/-!
# Calls that are half done

A link with a mailbox of the other node is made and taken away in two steps, and no lock is held over
both: `link` asks the connection to send a LINK and then stores the link in the linker, `unlink`
erases the link and then asks for an UNLINK. A close takes a step for the links of the mailbox, one
for each pid that was linked to it, and one for the tables. In between, the node may handle a
message, or another client may call it.

Here these are steps of their own. A call that is half done is not interrupted if its node handles
nothing and is not called before the last step. Then it makes no difference to the rest of the run
when the other steps come, and so a run of which no call is interrupted is, as far as whole calls go,
a run of `TwoNodes`: the one that is reached when all that has been begun is completed at once.

## Main results

* `ActualNode.foldl_finish_induction` — what each step of a call keeps is so when the call is done
* `CallingNodes.completed_step`, `CallingNodes.completed_run` — uninterrupted calls are whole calls
* `CallingNodes.Wf.step` — what is true in every run, whatever interrupts whatever
-/

namespace TinchPp

open EventSystem ActualNode

/-- What is left to do of a call: `mailbox_linker.link` after the LINK, the UNLINK after
`mailbox_linker.unlink`, and the notifications and `remove` after the links of the mailbox. -/
inductive HalfCall
  | store (localPid remotePid : EPid)
  | send (localPid remotePid : EPid)
  | notify (id : EPid) (name reason : Str) (pids : List EPid)
deriving DecidableEq, Repr

/-- The two mailboxes of a call of `link` or `unlink`. -/
def HalfCall.ends : HalfCall → Option (EPid × EPid)
  | store p q | send p q => some (p, q)
  | notify _ _ _ _ => none

/-- The mailbox whose end is told. -/
def HalfCall.dying : HalfCall → Option EPid
  | notify id _ _ _ => some id
  | store _ _ | send _ _ => none

namespace ActualNode

/-- The first step of `link`, over a connection that works, and what is left to do. -/
def beginLink (localPid remotePid : EPid) (n : ActualNode) : ActualNode × List HalfCall :=
  if remotePid.nodeName ≠ n.nodeName then
    ((n.request allReachable (.link localPid remotePid) remotePid).2, [.store localPid remotePid])
  else (n.incomingLink localPid remotePid, [])

/-- The first step of `unlink`. -/
def beginUnlink (localPid remotePid : EPid) (n : ActualNode) : ActualNode × List HalfCall :=
  if remotePid.nodeName ≠ n.nodeName then
    (n.incomingUnlink localPid remotePid, [.send localPid remotePid])
  else (n.incomingUnlink localPid remotePid, [])

/-- The first step of `close_mailbox`. -/
def beginClose (id : EPid) (name reason : Str) (n : ActualNode) : ActualNode × List HalfCall :=
  ({ n with mailboxLinker := (n.mailboxLinker.removeLinksFrom id).2 },
    [.notify id name reason (n.mailboxLinker.removeLinksFrom id).1])

/-- The next step of a call, and what is left to do then. An exception ends the call. -/
def advance (n : ActualNode) : HalfCall → ActualNode × List HalfCall
  | .store p q => (n.incomingLink p q, [])
  | .send p q => ((n.request allReachable (.unlink p q) q).2, [])
  | .notify id name _ [] => (n.remove id name, [])
  | .notify id name reason (pid :: pids) =>
    match n.requestExit2 allReachable id pid reason with
    | (.error _, n) => (n, [])
    | (.ok (), n) => (n, [.notify id name reason pids])

/-- All the steps that are left. -/
def finish (n : ActualNode) : HalfCall → ActualNode
  | .store p q => n.incomingLink p q
  | .send p q => (n.request allReachable (.unlink p q) q).2
  | .notify id name reason pids =>
    match forEach (fun pid n => n.requestExit2 allReachable id pid reason) pids n with
    | (.error _, n) => n
    | (.ok (), n) => n.remove id name

variable (p q : EPid) (n : ActualNode)

/-- **All the steps** are the call. -/
theorem foldl_finish_beginLink :
    (n.beginLink p q).2.foldl finish (n.beginLink p q).1 = (n.link allReachable p q).2 := by
  rw [beginLink, link]
  split <;> rfl

theorem foldl_finish_beginUnlink :
    (n.beginUnlink p q).2.foldl finish (n.beginUnlink p q).1 = (n.unlink allReachable p q).2 := by
  rw [beginUnlink, unlink]
  split <;> rfl

theorem foldl_finish_beginClose (name reason : Str) :
    (n.beginClose p name reason).2.foldl finish (n.beginClose p name reason).1 =
      (n.closeMailbox allReachable p name reason).2 := by
  have hloop : n.closeLinksForLocal allReachable p reason =
      forEach (fun pid n => n.requestExit2 allReachable p pid reason)
        (n.mailboxLinker.removeLinksFrom p).1 (n.beginClose p name reason).1 := rfl
  rw [closeMailbox, hloop]
  show finish _ (.notify p name reason _) = _
  rw [finish]
  rcases forEach _ _ _ with ⟨e | u, n'⟩ <;> rfl

theorem length_beginLink_le : (n.beginLink p q).2.length ≤ 1 := by
  rw [beginLink]
  split
  · exact Nat.le_refl 1
  · exact Nat.zero_le 1

theorem length_beginUnlink_le : (n.beginUnlink p q).2.length ≤ 1 := by
  rw [beginUnlink]
  split
  · exact Nat.le_refl 1
  · exact Nat.zero_le 1

theorem objects_beginLink : (n.beginLink p q).1.objects = n.objects := by
  rw [beginLink]
  split <;> rfl

theorem nodeName_beginLink : (n.beginLink p q).1.nodeName = n.nodeName := by
  rw [beginLink]
  split <;> rfl

theorem beginUnlink_fst : (n.beginUnlink p q).1 = n.incomingUnlink p q := by
  rw [beginUnlink]
  split <;> rfl

/-! ### One step -/

variable {p n} {reason : Str}

/-- A notification, and the others if it does not raise. -/
theorem advance_notify (n : ActualNode) (p : EPid) (name reason : Str) (pid : EPid)
    (pids : List EPid) : (n.advance (.notify p name reason (pid :: pids))).1 =
        (n.requestExit2 allReachable p pid reason).2 ∧
      ((n.advance (.notify p name reason (pid :: pids))).2 = [] ∨
        (n.advance (.notify p name reason (pid :: pids))).2 = [.notify p name reason pids]) := by
  rw [advance]
  rcases n.requestExit2 allReachable p pid reason with ⟨e | u, n'⟩
  · exact ⟨rfl, .inl rfl⟩
  · exact ⟨rfl, .inr rfl⟩

theorem foldl_finish_advance (c : HalfCall) :
    (n.advance c).2.foldl finish (n.advance c).1 = n.finish c := by
  cases c with
  | store p q => rfl
  | send p q => rfl
  | notify id name reason pids =>
    cases pids with
    | nil => rfl
    | cons pid pids =>
      rw [advance, finish, forEach]
      rcases n.requestExit2 allReachable id pid reason with ⟨e | u, n'⟩ <;> rfl

/-- What goes on is a close that has notified a pid. -/
theorem exists_of_mem_advance {c d : HalfCall} (hd : d ∈ (n.advance c).2) :
    ∃ id name reason pid pids, c = .notify id name reason (pid :: pids) ∧
      d = .notify id name reason pids := by
  cases c with
  | store p q => cases hd
  | send p q => cases hd
  | notify id name reason pids =>
    cases pids with
    | nil => cases hd
    | cons pid pids =>
      rcases (n.advance_notify id name reason pid pids).2 with heq | heq
      · rw [heq] at hd
        cases hd
      · rw [heq] at hd
        exact ⟨id, name, reason, pid, pids, rfl, List.mem_singleton.mp hd⟩

theorem dying_of_mem_advance {c d : HalfCall} (hd : d ∈ (n.advance c).2) : d.dying = c.dying := by
  obtain ⟨id, name, reason, pid, pids, rfl, rfl⟩ := exists_of_mem_advance hd
  rfl

theorem length_advance_le (c : HalfCall) : (n.advance c).2.length ≤ 1 := by
  cases c with
  | store p q => exact Nat.zero_le 1
  | send p q => exact Nat.zero_le 1
  | notify id name reason pids =>
    cases pids with
    | nil => exact Nat.zero_le 1
    | cons pid pids =>
      rcases (n.advance_notify id name reason pid pids).2 with heq | heq
      · rw [heq]
        exact Nat.zero_le 1
      · rw [heq]
        exact Nat.le_refl 1

theorem sameMailboxes_requestExit2 (pid : EPid) :
    SameMailboxes n (n.requestExit2 allReachable p pid reason).2 := by
  rw [requestExit2]
  split
  · exact .of_linker _ _
  · exact sameMailboxes_incomingExit p pid reason n

theorem linked_of_requestExit2 {pid x y : EPid}
    (h : (n.requestExit2 allReachable p pid reason).2.mailboxLinker.Linked x y) :
    n.mailboxLinker.Linked x y := by
  rw [requestExit2] at h
  split at h
  · exact h
  · exact linked_of_incomingExit h

/-- The links of other mailboxes stay. -/
theorem linked_requestExit2 {pid x y : EPid} (hx : x ≠ p) (hy : y ≠ p)
    (h : n.mailboxLinker.Linked x y) :
    (n.requestExit2 allReachable p pid reason).2.mailboxLinker.Linked x y := by
  have hsame : ¬ Linker.SamePair (x, y) (p, pid) := by
    rintro (heq | heq)
    · exact hx (Prod.mk.inj heq).1
    · exact hy (Prod.mk.inj heq).2
  rw [requestExit2]
  split
  · exact h
  · rcases incomingExit_cases p pid reason n with ⟨g, -, -, heq⟩ | ⟨-, table, heq, -⟩
    · rw [heq]
      exact Linker.linked_unlink.mpr ⟨h, hsame⟩
    · rw [heq]
      exact h

/-- A mailbox keeps its pid. -/
theorem objects_advance (n : ActualNode) (c : HalfCall) (h : Handle) :
    (n.advance c).1.objects[h]?.map (fun o => (o.ownPid, o.expired)) =
      n.objects[h]?.map fun o => (o.ownPid, o.expired) := by
  cases c with
  | store p q => rfl
  | send p q => rfl
  | notify id name reason pids =>
    cases pids with
    | nil => rfl
    | cons pid pids =>
      rw [(advance_notify _ _ _ _ _ _).1]
      exact (sameMailboxes_requestExit2 pid).objects h

theorem nodeName_advance (n : ActualNode) (c : HalfCall) :
    (n.advance c).1.nodeName = n.nodeName := by
  cases c with
  | store p q => rfl
  | send p q => rfl
  | notify id name reason pids =>
    cases pids with
    | nil => rfl
    | cons pid pids =>
      rw [(advance_notify _ _ _ _ _ _).1]
      exact (sameMailboxes_requestExit2 pid).nodeName

/-! ### All the steps that are left -/

/-- **The rule for calls**: what each step keeps, and what can be said of that which is left to do,
is so when all is done. -/
theorem foldl_finish_induction {P : ActualNode → Prop} {Q : HalfCall → Prop}
    (hstep : ∀ n c, P n → Q c → P (n.advance c).1 ∧ ∀ d ∈ (n.advance c).2, Q d)
    {cs : List HalfCall} (hn : P n) (hcs : ∀ c ∈ cs, Q c) : P (cs.foldl finish n) := by
  have hnotify {id : EPid} {name reason : Str} {pids : List EPid} {n : ActualNode} (hn : P n)
      (hc : Q (.notify id name reason pids)) : P (n.finish (.notify id name reason pids)) := by
    induction pids generalizing n with
    | nil => exact (hstep n _ hn hc).1
    | cons pid pids ih =>
      obtain ⟨hnext, hleft⟩ := hstep n _ hn hc
      rw [← foldl_finish_advance]
      rcases (n.advance_notify id name reason pid pids).2 with heq | heq
      · rw [heq]
        exact hnext
      · rw [heq] at hleft ⊢
        exact ih hnext (hleft _ List.mem_cons_self)
  have hone {c : HalfCall} {n : ActualNode} (hn : P n) (hc : Q c) : P (n.finish c) := by
    cases c with
    | store p q => exact (hstep n _ hn hc).1
    | send p q => exact (hstep n _ hn hc).1
    | notify id name reason pids => exact hnotify hn hc
  induction cs generalizing n with
  | nil => exact hn
  | cons c cs ih =>
    exact ih (hone hn (hcs c List.mem_cons_self)) fun d hd => hcs d (List.mem_cons_of_mem c hd)

theorem objects_foldl_finish (cs : List HalfCall) (h : Handle) :
    (cs.foldl finish n).objects[h]?.map (fun o => (o.ownPid, o.expired)) =
      n.objects[h]?.map fun o => (o.ownPid, o.expired) := by
  refine foldl_finish_induction (Q := fun _ => True)
    (P := fun n' => n'.objects[h]?.map (fun o => (o.ownPid, o.expired)) =
      n.objects[h]?.map fun o => (o.ownPid, o.expired)) (fun n' c hn' _ => ?_) rfl fun _ _ => trivial
  exact ⟨(objects_advance n' c h).trans hn', fun _ _ => trivial⟩

theorem exists_finish (n : ActualNode) (c : HalfCall) : ∃ new, ∀ requested,
    (n.withRequested requested).finish c =
      (n.finish c).withRequested (requested ++ new) := by
  cases c with
  | store p q => exact ⟨[], fun requested => by rw [List.append_nil]; rfl⟩
  | send p q => exact ⟨[(q.nodeName, .unlink p q)], fun requested => rfl⟩
  | notify id name reason pids =>
    obtain ⟨new, -, hnew⟩ := ((asks_forEach (fun q n => asks_requestExit2 allReachable id q reason n)
      pids n).andThen (fun n => (.ok (), n.remove id name))
        fun n' => .of_eq fun requested => rfl).operation_eq
    have hfinish (n : ActualNode) : n.finish (.notify id name reason pids) =
        (match forEach (fun q n => n.requestExit2 allReachable id q reason) pids n with
          | (.error e, n) => ((.error e, n) : NodeResult)
          | (.ok (), n) => (.ok (), n.remove id name)).2 := by
      rw [finish]
      rcases forEach _ pids n with ⟨e | u, n'⟩ <;> rfl
    refine ⟨new, fun requested => ?_⟩
    rw [hfinish, hfinish]
    exact hnew requested

/-- What is asked for in the steps that are left comes behind all that has been asked for already. -/
theorem exists_foldl_finish (cs : List HalfCall) : ∃ new, ∀ requested,
    cs.foldl finish (n.withRequested requested) =
      (cs.foldl finish n).withRequested (requested ++ new) := by
  induction cs generalizing n with
  | nil => exact ⟨[], fun requested => by rw [List.append_nil]; rfl⟩
  | cons c cs ih =>
    obtain ⟨first, hfirst⟩ := exists_finish n c
    obtain ⟨new, hnew⟩ := ih (n := n.finish c)
    refine ⟨first ++ new, fun requested => ?_⟩
    rw [List.foldl_cons, hfirst, hnew, List.append_assoc, List.foldl_cons]

end ActualNode

/-- Two nodes, and the calls of their clients that are half done. -/
structure CallingNodes where
  nodes : TwoNodes
  begun : Bool → List HalfCall

/-- What happens to the two nodes, where a call may be only its first step, or one of the calls that
are half done goes on. -/
inductive CallingEvent
  | event (e : TwoNodesEvent)
  | advance (i : Bool) (k : ℕ)
deriving DecidableEq, Repr

/-- The other steps of a call are not seen. -/
def CallingEvent.whole : CallingEvent → Option TwoNodesEvent
  | event e => some e
  | advance _ _ => none

/-- The mailbox does not count as open any more. -/
def TwoNodes.markClosed (i : Bool) (h : Handle) (s : TwoNodes) : TwoNodes :=
  { s with closed := Function.update s.closed i (h :: s.closed i) }

/-- What is left to do at a node is about mailboxes of this node, with pids that fit, and it is a
closed mailbox that others are told of. -/
def TwoNodes.Begun (s : TwoNodes) (i : Bool) : HalfCall → Prop
  | .store p q | .send p q =>
    p.nodeName = (s.node i).nodeName ∧ p.InWireRange ∧ q.InWireRange
  | .notify id _ _ pids => s.Closed i id ∧ ∀ pid ∈ pids, pid.InWireRange

theorem TwoNodes.Begun.mono {s t : TwoNodes} {i : Bool} {c : HalfCall} (hc : s.Begun i c)
    (hname : (t.node i).nodeName = (s.node i).nodeName) (hpids : t.pidOf = s.pidOf)
    (hclosed : s.closed i ⊆ t.closed i) : t.Begun i c := by
  cases c with
  | store p q | send p q => exact ⟨hc.1.trans hname.symm, hc.2⟩
  | notify id name reason pids =>
    obtain ⟨⟨h, hmem, hpid⟩, hfit⟩ := hc
    exact ⟨⟨h, hclosed hmem, by rw [hpids]; exact hpid⟩, hfit⟩

namespace CallingNodes

def ofNodes (nodes : TwoNodes) : CallingNodes := ⟨nodes, fun _ => []⟩

/-- A node has begun a call. -/
def afterBegin (i : Bool) (c : ActualNode × List HalfCall) (s : CallingNodes) : CallingNodes where
  nodes := s.nodes.setNode i c.1
  begun := Function.update s.begun i (s.begun i ++ c.2)

/-- The connection works. -/
def step (signedChar : Bool) (s : CallingNodes) : CallingEvent → Option CallingNodes
  | .event (.link i h k h') =>
    match s.nodes.opened i h, (s.nodes.node k).objects[h']? with
    | some o, some o' => some (s.afterBegin i ((s.nodes.node i).beginLink o.ownPid o'.ownPid))
    | _, _ => none
  | .event (.unlink i h k h') =>
    match s.nodes.opened i h, (s.nodes.node k).objects[h']? with
    | some o, some o' => some (s.afterBegin i ((s.nodes.node i).beginUnlink o.ownPid o'.ownPid))
    | _, _ => none
  | .event (.close i h reason) =>
    match s.nodes.opened i h with
    | some o => some ({ s with nodes := s.nodes.markClosed i h }.afterBegin i
        ((s.nodes.node i).beginClose o.ownPid o.ownName reason))
    | none => none
  | .event (.deliver i) =>
    (s.nodes.step signedChar (.deliver i)).map fun nodes => { s with nodes := nodes }
  | .advance i k =>
    match (s.begun i)[k]? with
    | some c => some
      { nodes := s.nodes.setNode i ((s.nodes.node i).advance c).1
        begun := Function.update s.begun i
          ((s.begun i).eraseIdx k ++ ((s.nodes.node i).advance c).2) }
    | none => none

/-- Nothing is in flight, and no call is half done. -/
def Quiet (s : CallingNodes) : Prop := s.nodes.Quiet ∧ ∀ i, s.begun i = []

/-- The event does not interrupt a call: a node with a call that is half done handles nothing, and is
not called. -/
def Undisturbed (s : CallingNodes) : CallingEvent → Prop
  | .event (.link i _ _ _) | .event (.unlink i _ _ _) | .event (.close i _ _) => s.begun i = []
  | .event (.deliver i) => s.begun (!i) = []
  | .advance _ _ => True

/-- The two nodes with all calls completed. -/
def completed (s : CallingNodes) : TwoNodes :=
  { s.nodes with node := fun i => (s.begun i).foldl finish (s.nodes.node i) }

/-- At most one call is half done at each node. -/
def OneCall (s : CallingNodes) : Prop := ∀ i, (s.begun i).length ≤ 1

variable {signedChar : Bool} {s t : CallingNodes} {i j k : Bool} {h h' : Handle}

theorem completed_ofNodes (nodes : TwoNodes) : (ofNodes nodes).completed = nodes := rfl

theorem completed_of_quiet (hs : s.Quiet) : s.completed = s.nodes := by
  have hnode : (fun i => (s.begun i).foldl finish (s.nodes.node i)) = s.nodes.node := by
    funext i
    rw [hs.2 i]
    rfl
  rw [completed, hnode]

theorem oneCall_ofNodes (nodes : TwoNodes) : (ofNodes nodes).OneCall := fun _ => Nat.zero_le 1

/-! ### Steps -/

theorem step_link (ht : s.step signedChar (.event (.link i h k h')) = some t) :
    ∃ o o', s.nodes.opened i h = some o ∧ (s.nodes.node k).objects[h']? = some o' ∧
      t = s.afterBegin i ((s.nodes.node i).beginLink o.ownPid o'.ownPid) := by
  rw [step] at ht
  split at ht
  · next o o' ho ho' => exact ⟨o, o', ho, ho', (Option.some_inj.mp ht).symm⟩
  · cases ht

theorem step_unlink (ht : s.step signedChar (.event (.unlink i h k h')) = some t) :
    ∃ o o', s.nodes.opened i h = some o ∧ (s.nodes.node k).objects[h']? = some o' ∧
      t = s.afterBegin i ((s.nodes.node i).beginUnlink o.ownPid o'.ownPid) := by
  rw [step] at ht
  split at ht
  · next o o' ho ho' => exact ⟨o, o', ho, ho', (Option.some_inj.mp ht).symm⟩
  · cases ht

theorem step_close {reason : Str} (ht : s.step signedChar (.event (.close i h reason)) = some t) :
    ∃ o, s.nodes.opened i h = some o ∧ t = { s with nodes := s.nodes.markClosed i h }.afterBegin i
      ((s.nodes.node i).beginClose o.ownPid o.ownName reason) := by
  rw [step] at ht
  split at ht
  · next o ho => exact ⟨o, ho, (Option.some_inj.mp ht).symm⟩
  · cases ht

theorem step_deliver (ht : s.step signedChar (.event (.deliver i)) = some t) :
    ∃ nodes, s.nodes.step signedChar (.deliver i) = some nodes ∧ t = { s with nodes := nodes } := by
  obtain ⟨nodes, hnodes, rfl⟩ := Option.map_eq_some_iff.mp ht
  exact ⟨nodes, hnodes, rfl⟩

theorem step_advance {n : ℕ} (ht : s.step signedChar (.advance i n) = some t) :
    ∃ c, (s.begun i)[n]? = some c ∧ t =
      { nodes := s.nodes.setNode i ((s.nodes.node i).advance c).1
        begun := Function.update s.begun i
          ((s.begun i).eraseIdx n ++ ((s.nodes.node i).advance c).2) } := by
  rw [step] at ht
  split at ht
  · next c hc => exact ⟨c, hc, (Option.some_inj.mp ht).symm⟩
  · cases ht

/-! ### Completing what has been begun -/

theorem pidOf_completed (s : CallingNodes) : s.completed.pidOf = s.nodes.pidOf := by
  funext i h
  have hpid := congrArg (Option.map Prod.fst)
    (objects_foldl_finish (n := s.nodes.node i) (s.begun i) h)
  rw [Option.map_map, Option.map_map] at hpid
  exact hpid

theorem node_completed_of_begun (hs : s.begun i = []) : s.completed.node i = s.nodes.node i := by
  show (s.begun i).foldl finish (s.nodes.node i) = _
  rw [hs]
  rfl

theorem opened_completed_of_begun (hs : s.begun i = []) :
    s.completed.opened i h = s.nodes.opened i h := by
  rw [TwoNodes.opened, TwoNodes.opened, node_completed_of_begun hs]
  rfl

/-- A mailbox of the completed nodes has the same pid. -/
theorem exists_object_completed {o : MailboxObject} (ho : (s.nodes.node k).objects[h]? = some o) :
    ∃ o', (s.completed.node k).objects[h]? = some o' ∧ o'.ownPid = o.ownPid := by
  have hpid : s.completed.pidOf k h = some o.ownPid := by
    rw [pidOf_completed]
    exact TwoNodes.pidOf_of_object ho
  exact Option.map_eq_some_iff.mp hpid

theorem node_completed (s : CallingNodes) (i : Bool) :
    s.completed.node i = (s.begun i).foldl finish (s.nodes.node i) := rfl

/-- Two nodes are the same if both of them are. -/
theorem nodes_eq {a b : TwoNodes} (i : Bool) (hself : a.node i = b.node i)
    (hother : a.node (!i) = b.node (!i)) (hclosed : a.closed = b.closed) : a = b := by
  rw [TwoNodes.mk.injEq]
  refine ⟨funext fun j => ?_, hclosed⟩
  by_cases hj : j = i
  · rw [hj]
    exact hself
  · rw [Bool.eq_not_of_ne hj]
    exact hother

@[simp] theorem begun_afterBegin_self (c : ActualNode × List HalfCall) :
    (s.afterBegin i c).begun i = s.begun i ++ c.2 :=
  Function.update_self ..

theorem begun_afterBegin_of_ne (c : ActualNode × List HalfCall) (h : j ≠ i) :
    (s.afterBegin i c).begun j = s.begun j :=
  Function.update_of_ne h ..

/-- A call is begun at a node that has no call half done. -/
theorem completed_afterBegin (hs : s.begun i = []) (c : ActualNode × List HalfCall) :
    (s.afterBegin i c).completed = s.completed.setNode i (c.2.foldl finish c.1) := by
  refine nodes_eq i ?_ ?_ rfl
  · rw [node_completed, begun_afterBegin_self, hs, TwoNodes.setNode_node_self]
    exact congrArg (c.2.foldl finish) (TwoNodes.setNode_node_self _)
  · rw [node_completed, begun_afterBegin_of_ne c (Bool.not_ne_self i), TwoNodes.setNode_node_not]
    exact congrArg ((s.begun (!i)).foldl finish) (TwoNodes.setNode_node_not _)

theorem oneCall_afterBegin (hs : s.OneCall) (hbegun : s.begun i = [])
    {c : ActualNode × List HalfCall} (hc : c.2.length ≤ 1) : (s.afterBegin i c).OneCall := by
  intro j
  by_cases hj : j = i
  · subst hj
    rw [begun_afterBegin_self, hbegun]
    exact hc
  · rw [begun_afterBegin_of_ne c hj]
    exact hs j

/-- A message of a node is delivered while this node may have a call half done. -/
theorem completed_deliver {nodes : TwoNodes} (hs : s.begun (!i) = [])
    (hnodes : s.nodes.step signedChar (.deliver i) = some nodes) :
    s.completed.step signedChar (.deliver i) = some (completed { s with nodes := nodes }) := by
  obtain ⟨to_, m, rest, hrequested, rfl⟩ := TwoNodes.step_deliver hnodes
  obtain ⟨new, hnew⟩ := exists_foldl_finish (n := s.nodes.node i) (s.begun i)
  have hself : s.completed.node i = (s.completed.node i).withRequested
      ((s.nodes.node i).requested ++ new) := hnew (s.nodes.node i).requested
  have hfront : (s.completed.node i).requested = (to_, m) :: (rest ++ new) := by
    rw [hself, hrequested]
    rfl
  have hrest : (s.begun i).foldl finish { s.nodes.node i with requested := rest } =
      { s.completed.node i with requested := rest ++ new } := hnew rest
  rw [TwoNodes.step, hfront]
  refine congrArg some (nodes_eq i ?_ ?_ rfl)
  · have hsender : (((s.nodes.setNode i { s.nodes.node i with requested := rest }).setNode (!i)
        ((s.nodes.node (!i)).onFrame signedChar m)).node i) =
          { s.nodes.node i with requested := rest } := by
      rw [TwoNodes.setNode_node_of_ne _ (Bool.not_ne_self i).symm, TwoNodes.setNode_node_self]
    rw [TwoNodes.setNode_node_of_ne _ (Bool.not_ne_self i).symm, TwoNodes.setNode_node_self]
    exact hrest.symm.trans (congrArg ((s.begun i).foldl finish) hsender.symm)
  · rw [TwoNodes.setNode_node_self, node_completed_of_begun hs]
    refine ((node_completed_of_begun ?_).trans (TwoNodes.setNode_node_self _)).symm
    exact hs

/-- A call that goes on when no other one is half done at its node. -/
theorem completed_advance {c : HalfCall} (hs : s.begun i = [c]) :
    completed
      { nodes := s.nodes.setNode i ((s.nodes.node i).advance c).1
        begun := Function.update s.begun i ((s.nodes.node i).advance c).2 } = s.completed := by
  refine nodes_eq i ?_ ?_ rfl
  · rw [node_completed, node_completed, hs]
    dsimp only
    rw [Function.update_self, TwoNodes.setNode_node_self]
    exact foldl_finish_advance c
  · rw [node_completed, node_completed]
    dsimp only
    rw [Function.update_of_ne (Bool.not_ne_self i), TwoNodes.setNode_node_not]

/-- The call that goes on is the only one of its node. -/
theorem begun_eq_of_oneCall (hs : s.OneCall) {n : ℕ} {c : HalfCall}
    (hc : (s.begun i)[n]? = some c) : n = 0 ∧ s.begun i = [c] := by
  have hlt := (List.getElem?_eq_some_iff.mp hc).1
  have hle := hs i
  obtain rfl : n = 0 := by omega
  obtain ⟨c', hc'⟩ := List.length_eq_one_iff.mp (Nat.le_antisymm hle hlt)
  rw [hc'] at hc
  exact ⟨rfl, by rw [hc', Option.some_inj.mp hc]⟩

/-- **Uninterrupted calls are whole calls.** Each step is one of the completed nodes, and the other
steps of a call are none. -/
theorem completed_step (hs : s.OneCall) {e : CallingEvent} (he : s.Undisturbed e)
    (ht : s.step signedChar e = some t) : t.OneCall ∧
      run (TwoNodes.step signedChar) s.completed e.whole.toList = some t.completed := by
  cases e with
  | event e =>
    suffices hone : t.OneCall ∧ s.completed.step signedChar e = some t.completed by
      refine ⟨hone.1, ?_⟩
      show run _ s.completed [e] = _
      rw [run_cons, hone.2]
      rfl
    cases e with
    | link i h k h' =>
      obtain ⟨o, o', ho, ho', rfl⟩ := step_link ht
      obtain ⟨u, hu, hpid⟩ := exists_object_completed ho'
      refine ⟨oneCall_afterBegin hs he (length_beginLink_le _ _ _), ?_⟩
      rw [TwoNodes.step, opened_completed_of_begun he, ho, hu, completed_afterBegin he,
        foldl_finish_beginLink, node_completed_of_begun he]
      dsimp only
      rw [hpid]
    | unlink i h k h' =>
      obtain ⟨o, o', ho, ho', rfl⟩ := step_unlink ht
      obtain ⟨u, hu, hpid⟩ := exists_object_completed ho'
      refine ⟨oneCall_afterBegin hs he (length_beginUnlink_le _ _ _), ?_⟩
      rw [TwoNodes.step, opened_completed_of_begun he, ho, hu, completed_afterBegin he,
        foldl_finish_beginUnlink, node_completed_of_begun he]
      dsimp only
      rw [hpid]
    | close i h reason =>
      obtain ⟨o, ho, rfl⟩ := step_close ht
      refine ⟨oneCall_afterBegin (s := { s with nodes := s.nodes.markClosed i h }) hs he
        (Nat.le_refl 1), ?_⟩
      rw [TwoNodes.step, opened_completed_of_begun he, ho,
        completed_afterBegin (s := { s with nodes := s.nodes.markClosed i h }) he,
        foldl_finish_beginClose, node_completed_of_begun he]
      rfl
    | deliver i =>
      obtain ⟨nodes, hnodes, rfl⟩ := step_deliver ht
      exact ⟨hs, completed_deliver he hnodes⟩
  | advance i n =>
    obtain ⟨c, hc, rfl⟩ := step_advance ht
    obtain ⟨rfl, hbegun⟩ := begun_eq_of_oneCall hs hc
    have hleft : (s.begun i).eraseIdx 0 ++ ((s.nodes.node i).advance c).2 =
        ((s.nodes.node i).advance c).2 := by
      rw [hbegun]
      rfl
    rw [hleft, completed_advance hbegun]
    refine ⟨fun j => ?_, rfl⟩
    by_cases hj : j = i
    · subst hj
      dsimp only
      rw [Function.update_self]
      exact length_advance_le c
    · dsimp only
      rw [Function.update_of_ne hj]
      exact hs j

/-! ### Runs -/

variable {es : List CallingEvent}

/-- **A run without interruptions** is a run of whole calls. -/
theorem completed_run (hs : s.OneCall) (hes : EveryStep (step signedChar) Undisturbed s es)
    (ht : run (step signedChar) s es = some t) : t.OneCall ∧
      run (TwoNodes.step signedChar) s.completed (es.filterMap CallingEvent.whole) =
        some t.completed := by
  induction es generalizing s with
  | nil =>
    obtain rfl := Option.some_inj.mp ht
    exact ⟨hs, rfl⟩
  | cons e es ih =>
    obtain ⟨s', hs', ht⟩ := Option.bind_eq_some_iff.mp ht
    obtain ⟨he, hes⟩ := everyStep_cons.mp hes
    obtain ⟨hone, hstep⟩ := completed_step hs he hs'
    obtain ⟨hone', hrun⟩ := ih hone (hes s' hs') ht
    have hsplit : (e :: es).filterMap CallingEvent.whole =
        e.whole.toList ++ es.filterMap CallingEvent.whole := by
      cases e <;> rfl
    rw [hsplit, run_append, hstep]
    exact ⟨hone', hrun⟩

/-- A condition on the events of the completed nodes. -/
def Meets (G : TwoNodes → TwoNodesEvent → Prop) (s : CallingNodes) (e : CallingEvent) : Prop :=
  s.Undisturbed e ∧ ∀ e', e = .event e' → G s.completed e'

/-- **What is asked of each step** holds of each step of the whole calls. -/
theorem everyStep_whole {G : TwoNodes → TwoNodesEvent → Prop} (hs : s.OneCall)
    (hes : EveryStep (step signedChar) (Meets G) s es) (ht : run (step signedChar) s es = some t) :
    EveryStep (TwoNodes.step signedChar) G s.completed (es.filterMap CallingEvent.whole) := by
  induction es generalizing s with
  | nil => exact everyStep_nil
  | cons e es ih =>
    obtain ⟨s', hs', ht⟩ := Option.bind_eq_some_iff.mp ht
    obtain ⟨⟨hundisturbed, he⟩, hes⟩ := everyStep_cons.mp hes
    obtain ⟨hone, hstep⟩ := completed_step hs hundisturbed hs'
    have hrest := ih hone (hes s' hs') ht
    cases e with
    | advance i n =>
      have hsame : s'.completed = s.completed := (Option.some_inj.mp hstep).symm
      rw [hsame] at hrest
      exact hrest
    | event e =>
      refine everyStep_cons.mpr ⟨he e rfl, fun u hu => ?_⟩
      have hstep' : run (TwoNodes.step signedChar) s.completed [e] = some s'.completed := hstep
      rw [run_cons, hu] at hstep'
      obtain rfl := Option.some_inj.mp hstep'
      exact hrest

/-! ### Runs with interruptions -/

/-- What is true in every run. -/
structure Wf (s : CallingNodes) : Prop where
  nodes : s.nodes.Wf
  begun : ∀ i, ∀ c ∈ s.begun i, s.nodes.Begun i c

theorem wf_ofNodes {nodes : TwoNodes} (hs : nodes.Wf) : (ofNodes nodes).Wf :=
  ⟨hs, by rintro i c ⟨⟩⟩

/-- A step of a call at a node, with what is left to do afterwards. -/
theorem Wf.update (hs : s.Wf) {n : ActualNode} {closed : Bool → List Handle} {cs : List HalfCall}
    (hn : TwoNodes.Wf ⟨Function.update s.nodes.node i n, closed⟩)
    (hname : n.nodeName = (s.nodes.node i).nodeName)
    (hobjects : ∀ h : Handle, n.objects[h]?.map (fun o => (o.ownPid, o.expired)) =
      (s.nodes.node i).objects[h]?.map fun o => (o.ownPid, o.expired))
    (hclosed : ∀ j, s.nodes.closed j ⊆ closed j)
    (hcs : ∀ c ∈ cs, c ∈ s.begun i ∨
      TwoNodes.Begun ⟨Function.update s.nodes.node i n, closed⟩ i c) :
    Wf ⟨⟨Function.update s.nodes.node i n, closed⟩, Function.update s.begun i cs⟩ := by
  have hpids := TwoNodes.pidOf_update (s := s.nodes) closed hobjects
  have hstill {j : Bool} {c : HalfCall} (hc : c ∈ s.begun j) :
      TwoNodes.Begun ⟨Function.update s.nodes.node i n, closed⟩ j c := by
    refine (hs.begun j c hc).mono ?_ hpids (hclosed j)
    dsimp only
    by_cases hj : j = i
    · subst hj
      rw [Function.update_self]
      exact hname
    · rw [Function.update_of_ne hj]
  refine ⟨hn, fun j c hc => ?_⟩
  dsimp only at hc
  by_cases hj : j = i
  · subst hj
    rw [Function.update_self] at hc
    exact (hcs c hc).elim hstill id
  · rw [Function.update_of_ne hj] at hc
    exact hstill hc

/-- A link is stored. -/
theorem wf_incomingLink {nodes : TwoNodes} {p q : EPid} (hs : nodes.Wf) (hpfit : p.InWireRange)
    (hqfit : q.InWireRange) : (nodes.setNode i ((nodes.node i).incomingLink p q)).Wf := by
  refine hs.setNode (.of_linker _ _) (fun a b hab => ?_) (hs.sent i)
  rcases Linker.linked_link.mp hab with (hsame | hsame) | hab
  · rw [(Prod.mk.inj hsame).1]
    exact hpfit
  · rw [(Prod.mk.inj hsame).1]
    exact hqfit
  · exact hs.links i a b hab

/-- A message is sent. -/
theorem wf_request {nodes : TwoNodes} {m : ControlMsg} {q : EPid} (hs : nodes.Wf)
    (hm : m.IsFrom (nodes.node i).nodeName) :
    (nodes.setNode i ((nodes.node i).request allReachable m q).2).Wf := by
  refine hs.setNode (.of_linker _ _) (hs.links i) fun x hx => ?_
  rcases List.mem_append.mp hx with hx | hx
  · exact hs.sent i x hx
  · rw [List.mem_singleton.mp hx]
    exact hm

/-- The first step of `link` sends or stores. -/
theorem wf_beginLink {nodes : TwoNodes} {p q : EPid} (hs : nodes.Wf)
    (hp : p.nodeName = (nodes.node i).nodeName) (hpfit : p.InWireRange) (hqfit : q.InWireRange) :
    (nodes.setNode i ((nodes.node i).beginLink p q).1).Wf := by
  rw [beginLink]
  split
  · exact wf_request hs ⟨hp, hpfit, hqfit⟩
  · exact wf_incomingLink hs hpfit hqfit

/-- That of `unlink` erases. -/
theorem wf_incomingUnlink {nodes : TwoNodes} {p q : EPid} (hs : nodes.Wf) :
    (nodes.setNode i ((nodes.node i).incomingUnlink p q)).Wf :=
  hs.setNode (.of_linker _ _) (fun a b hab => hs.links i a b (Linker.linked_unlink.mp hab).1)
    (hs.sent i)

/-- And so does that of a close. -/
theorem wf_beginClose {nodes : TwoNodes} (hs : nodes.Wf) (p : EPid) (name reason : Str) :
    ((nodes.markClosed i h).setNode i ((nodes.node i).beginClose p name reason).1).Wf :=
  hs.update rfl (fun _ => rfl) (List.subset_cons_self h _)
    (fun h' o _ ho => hs.filed i h' o ho)
    (fun a b hab => hs.links i a b (Linker.linked_removeLinksFrom.mp hab).1) (hs.sent i)

/-- A pid is told of the end of a mailbox. -/
theorem wf_requestExit2 {nodes : TwoNodes} {id pid : EPid} {reason : Str} (hs : nodes.Wf)
    (hid : nodes.Closed i id) (hpid : pid.InWireRange) :
    (nodes.setNode i ((nodes.node i).requestExit2 allReachable id pid reason).2).Wf := by
  obtain ⟨g, -, hg⟩ := hid
  obtain ⟨o, ho, rfl⟩ := Option.map_eq_some_iff.mp hg
  by_cases hremote : pid.nodeName ≠ (nodes.node i).nodeName
  · rw [requestExit2, if_pos hremote]
    exact wf_request hs ⟨(hs.here i g o ho).2, hs.pidsFit i g o ho, hpid⟩
  · refine hs.setNode (sameMailboxes_requestExit2 pid)
      (fun a b hab => hs.links i a b (linked_of_requestExit2 hab)) ?_
    rw [requestExit2, if_neg hremote, requested_incomingExit]
    exact hs.sent i

/-- The tables are cleared. -/
theorem wf_remove {nodes : TwoNodes} {id : EPid} {name : Str} (hs : nodes.Wf)
    (hid : nodes.Closed i id) : (nodes.setNode i ((nodes.node i).remove id name)).Wf := by
  obtain ⟨g, hclosed, hg⟩ := hid
  obtain ⟨o, ho, rfl⟩ := Option.map_eq_some_iff.mp hg
  have hupdate := hs.update (n := (nodes.node i).remove o.ownPid name) rfl (fun _ => rfl)
    (List.Subset.refl _) (fun h' o' hopen ho' => ?_) (hs.links i) (hs.sent i)
  · rw [Function.update_eq_self] at hupdate
    exact hupdate
  · have hne : o'.ownPid.key ≠ o.ownPid.key := by
      intro hkey
      obtain rfl := hs.unique i h' g o' o (TwoNodes.opened_eq_some.mp ho').2 ho hkey
      exact hopen hclosed
    rw [remove, erase]
    dsimp only
    rw [Function.update_of_ne hne]
    exact hs.filed i h' o' ho'

theorem wf_advance {nodes : TwoNodes} {c : HalfCall} (hs : nodes.Wf) (hc : nodes.Begun i c) :
    (nodes.setNode i ((nodes.node i).advance c).1).Wf := by
  cases c with
  | store p q => exact wf_incomingLink hs hc.2.1 hc.2.2
  | send p q => exact wf_request hs hc
  | notify id name reason pids =>
    cases pids with
    | nil => exact wf_remove hs hc.1
    | cons pid pids =>
      rw [(advance_notify _ _ _ _ _ _).1]
      exact wf_requestExit2 hs hc.1 (hc.2 pid List.mem_cons_self)

theorem begun_of_mem_advance {nodes : TwoNodes} {c d : HalfCall} {n : ActualNode}
    (hc : nodes.Begun i c) (hd : d ∈ (n.advance c).2) : nodes.Begun i d := by
  obtain ⟨id, name, reason, pid, pids, rfl, rfl⟩ := exists_of_mem_advance hd
  exact ⟨hc.1, fun q hq => hc.2 q (List.mem_cons_of_mem pid hq)⟩

/-- **What is true in every run**, whatever interrupts whatever. -/
theorem Wf.step (hs : s.Wf) {e : CallingEvent} (ht : s.step signedChar e = some t) : t.Wf := by
  cases e with
  | event e =>
    cases e with
    | link i h k h' =>
      obtain ⟨o, o', ho, ho', rfl⟩ := step_link ht
      have hobject := (TwoNodes.opened_eq_some.mp ho).2
      have hp := (hs.nodes.here i h o hobject).2
      have hpfit := hs.nodes.pidsFit i h o hobject
      have hqfit := hs.nodes.pidsFit k h' o' ho'
      have hname := nodeName_beginLink o.ownPid o'.ownPid (s.nodes.node i)
      refine hs.update (wf_beginLink hs.nodes hp hpfit hqfit) hname
        (fun g => by rw [objects_beginLink]) (fun _ => List.Subset.refl _) fun c hc => ?_
      refine (List.mem_append.mp hc).imp_right fun hc => ?_
      rw [beginLink] at hc
      split at hc
      · rw [List.mem_singleton.mp hc]
        refine ⟨hp.trans (hname.symm.trans ?_), hpfit, hqfit⟩
        exact congrArg ActualNode.nodeName (TwoNodes.setNode_node_self _).symm
      · cases hc
    | unlink i h k h' =>
      obtain ⟨o, o', ho, ho', rfl⟩ := step_unlink ht
      have hobject := (TwoNodes.opened_eq_some.mp ho).2
      have hp := (hs.nodes.here i h o hobject).2
      have hfirst := beginUnlink_fst o.ownPid o'.ownPid (s.nodes.node i)
      have hn : (s.nodes.setNode i ((s.nodes.node i).beginUnlink o.ownPid o'.ownPid).1).Wf := by
        rw [hfirst]
        exact wf_incomingUnlink hs.nodes
      refine hs.update hn (by rw [hfirst]; rfl) (fun g => by rw [hfirst]; rfl)
        (fun _ => List.Subset.refl _) fun c hc => ?_
      refine (List.mem_append.mp hc).imp_right fun hc => ?_
      rw [beginUnlink] at hc
      split at hc
      · rw [List.mem_singleton.mp hc]
        refine ⟨hp.trans ?_, hs.nodes.pidsFit i h o hobject, hs.nodes.pidsFit k h' o' ho'⟩
        refine Eq.trans ?_ (congrArg ActualNode.nodeName (TwoNodes.setNode_node_self _).symm)
        rw [hfirst]
        rfl
      · cases hc
    | close i h reason =>
      obtain ⟨o, ho, rfl⟩ := step_close ht
      have hclosed (j : Bool) : s.nodes.closed j ⊆ (s.nodes.markClosed i h).closed j := by
        rw [TwoNodes.markClosed]
        by_cases hj : j = i
        · subst hj
          dsimp only
          rw [Function.update_self]
          exact List.subset_cons_self h _
        · dsimp only
          rw [Function.update_of_ne hj]
          exact List.Subset.refl _
      refine hs.update (wf_beginClose hs.nodes _ _ _) rfl (fun _ => rfl) hclosed fun c hc => ?_
      refine (List.mem_append.mp hc).imp_right fun hc => ?_
      have hobject := (TwoNodes.opened_eq_some.mp ho).2
      rw [List.mem_singleton.mp hc]
      refine ⟨⟨h, ?_, ?_⟩, fun pid hpid => ?_⟩
      · show h ∈ (s.nodes.markClosed i h).closed i
        rw [TwoNodes.markClosed]
        dsimp only
        rw [Function.update_self]
        exact List.mem_cons_self
      · have hpids := TwoNodes.pidOf_update (s := s.nodes) (s.nodes.markClosed i h).closed
          (n := ((s.nodes.node i).beginClose o.ownPid o.ownName reason).1) fun _ => rfl
        rw [hpids]
        exact TwoNodes.pidOf_of_object hobject
      · have hlinked : (s.nodes.node i).mailboxLinker.Linked pid o.ownPid :=
          (Linker.mem_linkedPids.mp hpid).symm
        exact hs.nodes.links i pid _ hlinked
    | deliver i =>
      obtain ⟨nodes, hnodes, rfl⟩ := step_deliver ht
      refine ⟨hs.nodes.step hnodes, fun j c hc => (hs.begun j c hc).mono
        (TwoNodes.nodeName_of_step hs.nodes hnodes j) (TwoNodes.pidOf_of_step hs.nodes hnodes) ?_⟩
      obtain ⟨to_, m, rest, -, rfl⟩ := TwoNodes.step_deliver hnodes
      exact List.Subset.refl _
  | advance i n =>
    obtain ⟨c, hc, rfl⟩ := step_advance ht
    have hbegun := hs.begun i c (List.mem_of_getElem? hc)
    refine hs.update (wf_advance hs.nodes hbegun) (nodeName_advance _ c)
      (objects_advance _ c) (fun _ => List.Subset.refl _) fun d hd => ?_
    rcases List.mem_append.mp hd with hd | hd
    · exact .inl (List.mem_of_mem_eraseIdx hd)
    · refine .inr ((begun_of_mem_advance hbegun hd).mono ?_ ?_ (List.Subset.refl _))
      · exact (congrArg ActualNode.nodeName (TwoNodes.setNode_node_self _)).trans
          (nodeName_advance _ c)
      · exact TwoNodes.pidOf_update _ (objects_advance _ c)

/-! ### Whole calls and their steps -/

/-- **From whole calls to their steps**: what is the case whenever nothing is in flight. -/
theorem throughout_quiet {G : TwoNodes → TwoNodesEvent → Prop} {P : TwoNodes → Prop}
    {nodes : TwoNodes} (hall : ∀ es, EveryStep (TwoNodes.step signedChar) G nodes es →
      Throughout (TwoNodes.step signedChar) (fun t => t.Quiet → P t) nodes es)
    (hes : EveryStep (step signedChar) (Meets G) (ofNodes nodes) es) :
    Throughout (step signedChar) (fun t => t.Quiet → P t.nodes) (ofNodes nodes) es := by
  intro done hd t ht hquiet
  have hdone : EveryStep (step signedChar) (Meets G) (ofNodes nodes) done :=
    fun pre e hpre => hes pre e (hpre.trans hd)
  have hundisturbed : EveryStep (step signedChar) Undisturbed (ofNodes nodes) done :=
    fun pre e hpre u hu => (hdone pre e hpre u hu).1
  obtain ⟨-, hrun⟩ := completed_run (oneCall_ofNodes nodes) hundisturbed ht
  have hwhole := everyStep_whole (oneCall_ofNodes nodes) hdone ht
  rw [completed_ofNodes] at hrun hwhole
  have hP := hall _ hwhole _ (List.prefix_refl _) _ hrun
  rw [completed_of_quiet hquiet] at hP
  exact hP hquiet.1

end CallingNodes

end TinchPp
