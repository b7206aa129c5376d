import TinchPp.CompleteClosing
import TinchPp.DispatchedFrames
import TinchPp.Lib.Replicas

/-!
# Two nodes

Two nodes with a connection between them, as far as it is about the links of their mailboxes. What a
node asks its connection to send is in flight until it is delivered, in the order in which it was
asked for; the other node then does what its dispatcher calls for. The version check in front of the
handlers compares a `char` with 131, so that it is a matter of the platform whether a message gets
through at all: where characters are signed, none does (`ControlMsg.dispatch_frame_true`). Both cases are
here, and `signedChar` tells them apart.

Mailboxes are linked and unlinked from either side, with a mailbox of the same node or of the other
one, and closed. No more operations are allowed on a mailbox that has been closed, but a client can
still have its pid. A call is one event here, and so is a close: nothing happens at its node between
its steps. In the source it can be interrupted (`CallingNodes`).

What the two linkers say about the link between two mailboxes, and what the messages in flight say
about it, is a register in two replicas (`TwoNodes.pair`): a call writes it, and a delivery of a
message is a delivery of a word, if the message is heard. A close is heard by the mailboxes that are
in the linker of its own node.

## Main results

* `TwoNodes.Wf.step` — what is true in every run
* `TwoNodes.pair_link`, `TwoNodes.pair_unlink` — the calls as writes
* `TwoNodes.settled_deliver`, `TwoNodes.settled_close` — deliveries and closes, as they are seen
  from an open mailbox
* `TwoNodes.exists_quiet` — everything that is in flight arrives in the end
* `TwoNodes.everyStep_iff_onceQuiet` — from one step to all runs, for what is the case when nothing
  is in flight
-/

namespace TinchPp

open EventSystem ActualNode

namespace ControlMsg

/-- What a message says about the link between two pids: that it is made, or that it is gone. -/
def relinks (x y : EPid) : ControlMsg → Option Bool
  | .link p q => if Linker.SamePair (x, y) (p, q) then some true else none
  | .unlink p q | .exit p q _ | .exit2 p q _ =>
    if Linker.SamePair (x, y) (p, q) then some false else none
  | .send _ _ | .regSend _ _ _ => none

/-- A message about a link of a mailbox of the node, with pids that fit their fields. -/
def IsFrom (nodeName : Str) : ControlMsg → Prop
  | .link p q | .unlink p q | .exit p q _ | .exit2 p q _ =>
    p.nodeName = nodeName ∧ p.InWireRange ∧ q.InWireRange
  | .send _ _ | .regSend _ _ _ => False

theorem IsFrom.exists_ends {nodeName : Str} {m : ControlMsg} (hm : m.IsFrom nodeName) :
    ∃ p q, m.ends = some (p, q) ∧ p.InWireRange ∧ q.InWireRange := by
  cases m with
  | send | regSend => cases hm
  | link p q | unlink p q | exit p q reason | exit2 p q reason => exact ⟨p, q, rfl, hm.2⟩

/-! Whatever becomes of a reason, a message is about the same link. -/

theorem IsFrom.received {nodeName : Str} {m : ControlMsg} (hm : m.IsFrom nodeName) :
    m.received.IsFrom nodeName := by
  cases m with
  | send | regSend => cases hm
  | link | unlink | exit | exit2 => exact hm

@[simp] theorem relinks_received (x y : EPid) (m : ControlMsg) :
    m.received.relinks x y = m.relinks x y := by
  cases m <;> rfl

@[simp] theorem ends_received (m : ControlMsg) : m.received.ends = m.ends := by
  cases m <;> rfl

theorem eq_unlink_of_received {x y : EPid} {m : ControlMsg} (hm : m.received = .unlink x y) :
    m = .unlink x y := by
  cases m with
  | exit | exit2 => cases hm
  | send | regSend | link | unlink => exact hm

/-- The calls that a frame makes on the access of its receiver. -/
def accessCalls (signedChar : Bool) (m : ControlMsg) : List AccessCall :=
  (dispatch signedChar m.frame).calls

theorem accessCalls_true (m : ControlMsg) : m.accessCalls true = [] := by
  rw [accessCalls, dispatch_frame_true]
  rfl

theorem accessCalls_of_inWireRange {m : ControlMsg} (hm : m.InWireRange) :
    m.accessCalls false = [m.call] := by
  rw [accessCalls, dispatch_frame_false hm]

theorem accessCalls_false {m : ControlMsg} {nodeName : Str} (hm : m.IsFrom nodeName) :
    m.accessCalls false = [m.received.call] := by
  obtain ⟨p, q, hends, hp, hq⟩ := hm.exists_ends
  rw [accessCalls, dispatch_frame_received hends hp hq]

end ControlMsg

/-- What a connection does to its node when a handler calls it. -/
def ActualNode.perform : AccessCall → ActualNode → NodeResult
  | .deliverReceivedPid msg toPid, n => n.receiveIncoming msg toPid
  | .deliverReceivedName msg toName, n => n.receiveIncomingName msg toName
  | .requestLink fromPid toPid, n => (.ok (), n.incomingLink fromPid toPid)
  | .requestUnlink fromPid toPid, n => (.ok (), n.incomingUnlink fromPid toPid)
  | .requestExit fromPid toPid reason, n => n.incomingExit fromPid toPid reason
  | .requestExit2 fromPid toPid reason, n => n.incomingExit fromPid toPid reason

/-- A frame arrives. What is raised is printed by the I/O thread. -/
def ActualNode.onFrame (signedChar : Bool) (m : ControlMsg) (n : ActualNode) : ActualNode :=
  (m.accessCalls signedChar).foldl (fun n c => (n.perform c).2) n

theorem ActualNode.onFrame_true (m : ControlMsg) (n : ActualNode) : n.onFrame true m = n := by
  rw [onFrame, ControlMsg.accessCalls_true]
  rfl

theorem ActualNode.onFrame_of_inWireRange {m : ControlMsg} (hm : m.InWireRange) (n : ActualNode) :
    n.onFrame false m = (n.perform m.call).2 := by
  rw [onFrame, ControlMsg.accessCalls_of_inWireRange hm]
  rfl

theorem ActualNode.onFrame_false {m : ControlMsg} {nodeName : Str} (hm : m.IsFrom nodeName)
    (n : ActualNode) : n.onFrame false m = (n.perform m.received.call).2 := by
  rw [onFrame, ControlMsg.accessCalls_false hm]
  rfl

/-! ### What an operation leaves alone -/

namespace ActualNode

/-- The mailboxes are those that were there before, and are found where they were. -/
structure SameMailboxes (n n' : ActualNode) : Prop where
  nodeName : n'.nodeName = n.nodeName
  objects : ∀ h : Handle, n'.objects[h]?.map (fun o => (o.ownPid, o.expired)) =
    n.objects[h]?.map fun o => (o.ownPid, o.expired)
  mailboxes : ∀ k h, n.mailboxes k = some h → n.isExpired h = false → n'.mailboxes k = some h

variable {n : ActualNode} {p q : EPid}

theorem SameMailboxes.of_linker (k : Linker) (requested : List (Str × ControlMsg)) :
    SameMailboxes n { n with mailboxLinker := k, requested := requested } :=
  ⟨rfl, fun _ => rfl, fun _ _ h _ => h⟩

theorem objects_onMailbox (h : Handle) (act : ActualMailbox → ActualMailbox) (n : ActualNode)
    (h' : Handle) : (n.onMailbox h act).objects[h']?.map (fun o => (o.ownPid, o.expired)) =
      n.objects[h']?.map fun o => (o.ownPid, o.expired) := by
  rcases ho : n.objects[h']? with _ | o
  · simp [onMailbox, List.getElem?_modify, ho]
  · by_cases hh : h = h' <;> simp [onMailbox, ho, hh]

/-- **An exit signal comes in**: it is for a mailbox, or it is dropped. -/
theorem incomingExit_cases (p q : EPid) (reason : Str) (n : ActualNode) :
    (∃ h, n.mailboxes q.key = some h ∧ n.isExpired h = false ∧ (n.incomingExit p q reason).2 =
      (n.onMailbox h (.onLinkBroken reason p)).incomingUnlink p q) ∨
    (∀ h, n.mailboxes q.key = some h → n.isExpired h = true) ∧ ∃ table,
      (n.incomingExit p q reason).2 = { n with mailboxes := table } ∧
        ∀ k h, n.mailboxes k = some h → n.isExpired h = false → table k = some h := by
  rw [incomingExit]
  rcases hm : n.mailboxes q.key with _ | h
  · rw [fetchMailbox_of_none hm]
    exact .inr ⟨by rintro _ ⟨⟩, _, rfl, fun k h hk _ => hk⟩
  · cases hexp : n.isExpired h with
    | false =>
      rw [fetchMailbox_of_owned hm hexp]
      exact .inl ⟨h, rfl, hexp, rfl⟩
    | true =>
      rw [fetchMailbox_of_expired hm hexp]
      refine .inr ⟨fun h' hh' => Option.some_inj.mp hh' ▸ hexp, _, rfl, fun k h' hk hexp' => ?_⟩
      have hne : k ≠ q.key := by
        rintro rfl
        obtain rfl := Option.some_inj.mp (hm.symm.trans hk)
        rw [hexp] at hexp'
        cases hexp'
      rw [erase, Function.update_of_ne hne]
      exact hk

theorem sameMailboxes_incomingExit (p q : EPid) (reason : Str) (n : ActualNode) :
    SameMailboxes n (n.incomingExit p q reason).2 := by
  rcases incomingExit_cases p q reason n with ⟨h, -, -, heq⟩ | ⟨-, table, heq, htable⟩
  · rw [heq]
    exact ⟨rfl, objects_onMailbox h _ n, fun _ _ hk _ => hk⟩
  · rw [heq]
    exact ⟨rfl, fun _ => rfl, htable⟩

theorem requested_incomingExit (p q : EPid) (reason : Str) (n : ActualNode) :
    (n.incomingExit p q reason).2.requested = n.requested := by
  rcases incomingExit_cases p q reason n with ⟨h, -, -, heq⟩ | ⟨-, table, heq, -⟩
  · rw [heq]
    rfl
  · rw [heq]

theorem perform_frame {m : ControlMsg} {nodeName : Str} (hm : m.IsFrom nodeName) (n : ActualNode) :
    SameMailboxes n (n.perform m.call).2 ∧ (n.perform m.call).2.requested = n.requested := by
  cases m with
  | send payload toPid => cases hm
  | regSend payload toName fromPid => cases hm
  | link p q => exact ⟨.of_linker _ _, rfl⟩
  | unlink p q => exact ⟨.of_linker _ _, rfl⟩
  | exit p q reason =>
    exact ⟨sameMailboxes_incomingExit p q reason n, requested_incomingExit p q reason n⟩
  | exit2 p q reason =>
    exact ⟨sameMailboxes_incomingExit p q reason n, requested_incomingExit p q reason n⟩

/-- A message about a link is not answered. -/
theorem onFrame_frame (signedChar : Bool) {m : ControlMsg} {nodeName : Str} (hm : m.IsFrom nodeName)
    (n : ActualNode) : SameMailboxes n (n.onFrame signedChar m) ∧
      (n.onFrame signedChar m).requested = n.requested := by
  cases signedChar with
  | true =>
    rw [onFrame_true]
    exact ⟨⟨rfl, fun _ => rfl, fun _ _ h _ => h⟩, rfl⟩
  | false =>
    rw [onFrame_false hm]
    exact perform_frame hm.received n

/-- An exit signal adds nothing to a linker. -/
theorem linked_of_incomingExit {a b : EPid} {reason : Str}
    (hlinked : (n.incomingExit a b reason).2.mailboxLinker.Linked p q) :
    n.mailboxLinker.Linked p q := by
  rcases incomingExit_cases a b reason n with ⟨h, -, -, heq⟩ | ⟨-, table, heq, -⟩
  · rw [heq] at hlinked
    exact (Linker.linked_unlink.mp hlinked).1
  · rwa [heq] at hlinked

/-- What a message adds to it. -/
theorem linked_of_perform {n : ActualNode} {m : ControlMsg} {nodeName : Str}
    (hm : m.IsFrom nodeName) (hlinked : (n.perform m.call).2.mailboxLinker.Linked p q) :
    n.mailboxLinker.Linked p q ∨ ∃ a b, m.ends = some (a, b) ∧ Linker.SamePair (p, q) (a, b) := by
  cases m with
  | send payload toPid => cases hm
  | regSend payload toName fromPid => cases hm
  | link a b =>
    rcases Linker.linked_link.mp hlinked with hsame | hlinked
    · exact .inr ⟨a, b, rfl, hsame⟩
    · exact .inl hlinked
  | unlink a b => exact .inl (Linker.linked_unlink.mp hlinked).1
  | exit a b reason => exact .inl (linked_of_incomingExit hlinked)
  | exit2 a b reason => exact .inl (linked_of_incomingExit hlinked)

theorem linked_of_onFrame {signedChar : Bool} {n : ActualNode} {m : ControlMsg} {nodeName : Str}
    (hm : m.IsFrom nodeName) (hlinked : (n.onFrame signedChar m).mailboxLinker.Linked p q) :
    n.mailboxLinker.Linked p q ∨ ∃ a b, m.ends = some (a, b) ∧ Linker.SamePair (p, q) (a, b) := by
  cases signedChar with
  | true =>
    rw [onFrame_true] at hlinked
    exact .inl hlinked
  | false =>
    rw [onFrame_false hm] at hlinked
    rw [← ControlMsg.ends_received m]
    exact linked_of_perform hm.received hlinked

/-- A link over a connection that works. -/
theorem link_allReachable (p q : EPid) (n : ActualNode) : (n.link allReachable p q).2 =
    { n with
      mailboxLinker := n.mailboxLinker.link p q
      requested := n.requested ++
        if q.nodeName ≠ n.nodeName then [(q.nodeName, .link p q)] else [] } := by
  rw [link]
  by_cases hq : q.nodeName ≠ n.nodeName
  · rw [if_pos hq, if_pos hq]
    rfl
  · rw [if_neg hq, if_neg hq, List.append_nil]
    rfl

theorem unlink_allReachable (p q : EPid) (n : ActualNode) : (n.unlink allReachable p q).2 =
    { n with
      mailboxLinker := n.mailboxLinker.unlink p q
      requested := n.requested ++
        if q.nodeName ≠ n.nodeName then [(q.nodeName, .unlink p q)] else [] } := by
  rw [unlink]
  by_cases hq : q.nodeName ≠ n.nodeName
  · rw [if_pos hq, if_pos hq]
    rfl
  · rw [if_neg hq, if_neg hq, List.append_nil]
    rfl

end ActualNode

namespace Closing

variable {c : Closing}

/-- The linked pids that are told: those in front of the first that cannot be told. -/
def reached (c : Closing) : List EPid := c.linkedPids.takeWhile (notifiable c.net c.before)

/-- Those of the other node that will hear of it. -/
def heard (signedChar : Bool) (c : Closing) : List EPid := if signedChar then [] else c.reached

theorem delivers_reached (c : Closing) : c.Delivers c.reached := by
  rcases all_notifiable_or_first c.net c.before c.linkedPids with
    hall | ⟨pre, p, rest, hl, hpre, hp⟩
  · rw [reached, List.takeWhile_eq_self_iff.mpr hall]
    exact delivers_of_notifiable hall
  · rw [reached, hl, List.takeWhile_append_of_pos hpre,
      List.takeWhile_cons_of_neg (by simp [hp]), List.append_nil]
    exact delivers_of_not_notifiable hl hpre hp

theorem nodeName_after (c : Closing) : c.after.nodeName = c.before.nodeName := by
  rcases all_notifiable_or_first c.net c.before c.linkedPids with
    hall | ⟨pre, p, rest, hl, hpre, hp⟩
  · rw [after_of_notifiable hall]
    exact (sameTables_notifiedAll c.id c.reason c.linkedPids c.detached).nodeName
  · rw [after_of_not_notifiable hl hpre hp, withoutExpired_eq]
    exact (sameTables_notifiedAll c.id c.reason pre c.detached).nodeName

theorem objects_after (c : Closing) (h : Handle) :
    c.after.objects[h]?.map (fun o => (o.ownPid, o.expired)) =
      c.before.objects[h]?.map fun o => (o.ownPid, o.expired) := by
  rcases all_notifiable_or_first c.net c.before c.linkedPids with
    hall | ⟨pre, p, rest, hl, hpre, hp⟩
  · rw [after_of_notifiable hall]
    exact objects_notifiedAll c.id c.reason c.linkedPids h c.detached
  · rw [after_of_not_notifiable hl hpre hp, withoutExpired_eq]
    exact objects_notifiedAll c.id c.reason pre h c.detached

/-- The other mailboxes are found where they were. -/
theorem mailboxes_after {k : UInt32 × UInt32} {h : Handle} (hk : c.before.mailboxes k = some h)
    (hexp : c.before.isExpired h = false) (hne : k ≠ c.id.key) :
    c.after.mailboxes k = some h := by
  rcases all_notifiable_or_first c.net c.before c.linkedPids with
    hall | ⟨pre, p, rest, hl, hpre, hp⟩
  · rw [mailboxes_of_notifiable hall, erase, Function.update_of_ne hne]
    exact hk
  · have hsame := sameTables_notifiedAll c.id c.reason pre c.detached
    rw [after_of_not_notifiable hl hpre hp, withoutExpired_eq_some_iff, hsame.mailboxes,
      hsame.isExpired]
    refine ⟨hk, ?_⟩
    rintro ⟨-, -, hexp'⟩
    rw [show c.detached.isExpired h = false from hexp] at hexp'
    cases hexp'

end Closing

/-- The two nodes, and the mailboxes that their clients have closed. -/
structure TwoNodes where
  node : Bool → ActualNode
  closed : Bool → List Handle

/-- What happens to them: mailbox `h` of node `i` is linked to mailbox `h'` of node `k`, or
unlinked, a mailbox is closed, or the oldest message from a node arrives. -/
inductive TwoNodesEvent
  | link (i : Bool) (h : Handle) (k : Bool) (h' : Handle)
  | unlink (i : Bool) (h : Handle) (k : Bool) (h' : Handle)
  | close (i : Bool) (h : Handle) (reason : Str)
  | deliver (i : Bool)
deriving DecidableEq, Repr

namespace TwoNodes

def setNode (i : Bool) (n : ActualNode) (s : TwoNodes) : TwoNodes :=
  { s with node := Function.update s.node i n }

/-- The mailbox, if it is open. Only then are operations on it allowed. -/
def opened (s : TwoNodes) (i : Bool) (h : Handle) : Option MailboxObject :=
  if h ∈ s.closed i then none else (s.node i).objects[h]?

/-- The connection works. -/
def step (signedChar : Bool) (s : TwoNodes) : TwoNodesEvent → Option TwoNodes
  | .link i h k h' =>
    match s.opened i h, (s.node k).objects[h']? with
    | some o, some o' => some (s.setNode i ((s.node i).link allReachable o.ownPid o'.ownPid).2)
    | _, _ => none
  | .unlink i h k h' =>
    match s.opened i h, (s.node k).objects[h']? with
    | some o, some o' => some (s.setNode i ((s.node i).unlink allReachable o.ownPid o'.ownPid).2)
    | _, _ => none
  | .close i h reason =>
    match s.opened i h with
    | some o => some
      { node := Function.update s.node i
          ((s.node i).closeMailbox allReachable o.ownPid o.ownName reason).2
        closed := Function.update s.closed i (h :: s.closed i) }
    | none => none
  | .deliver i =>
    match (s.node i).requested with
    | (_, m) :: rest => some ((s.setNode i { s.node i with requested := rest }).setNode (!i)
        ((s.node (!i)).onFrame signedChar m))
    | [] => none

/-- Nothing is in flight. -/
def Quiet (s : TwoNodes) : Prop := ∀ i, (s.node i).requested = []

/-- Two nodes with open mailboxes, each of which is found under its pid, and no links yet. -/
structure Fresh (s : TwoNodes) : Prop where
  names : ∀ i, (s.node (!i)).nodeName ≠ (s.node i).nodeName
  linker : ∀ i, (s.node i).mailboxLinker = .create
  quiet : s.Quiet
  closed : ∀ i, s.closed i = []
  mailboxes : ∀ (i : Bool) (h : Handle) (o : MailboxObject), (s.node i).objects[h]? = some o →
    o.expired = false ∧ o.ownPid.nodeName = (s.node i).nodeName ∧
      (s.node i).mailboxes o.ownPid.key = some h

/-- The pids of the mailboxes fit their fields. -/
def PidsFit (s : TwoNodes) : Prop :=
  ∀ (i : Bool) (h : Handle) (o : MailboxObject), (s.node i).objects[h]? = some o →
    o.ownPid.InWireRange

/-! ### What the nodes say about a link -/

def pidOf (s : TwoNodes) (i : Bool) (h : Handle) : Option EPid :=
  (s.node i).objects[h]?.map (·.ownPid)

/-- The pid of an open mailbox of node `i`. -/
def Opened (s : TwoNodes) (i : Bool) (p : EPid) : Prop := ∃ h, h ∉ s.closed i ∧ s.pidOf i h = some p

/-- The pid of a mailbox of node `i` that has been closed. -/
def Closed (s : TwoNodes) (i : Bool) (p : EPid) : Prop := ∃ h ∈ s.closed i, s.pidOf i h = some p

/-- What the other node is going to hear of the link between two pids. -/
def said (signedChar : Bool) (requested : List (Str × ControlMsg)) (x y : EPid) : List Bool :=
  if signedChar then [] else requested.filterMap fun m => m.2.relinks x y

/-- The link between two pids, as the two linkers and the messages in flight have it. -/
def pair (signedChar : Bool) (s : TwoNodes) (x y : EPid) : Replicas Bool where
  value i := decide ((s.node i).mailboxLinker.Linked x y)
  inFlight i := said signedChar (s.node i).requested x y

/-! ### The invariant -/

/-- What is true in every run. -/
structure Wf (s : TwoNodes) : Prop where
  names : ∀ i, (s.node (!i)).nodeName ≠ (s.node i).nodeName
  here : ∀ (i : Bool) (h : Handle) (o : MailboxObject), (s.node i).objects[h]? = some o →
    o.expired = false ∧ o.ownPid.nodeName = (s.node i).nodeName
  pidsFit : s.PidsFit
  unique : ∀ (i : Bool) (h h' : Handle) (o o' : MailboxObject), (s.node i).objects[h]? = some o →
    (s.node i).objects[h']? = some o' → o.ownPid.key = o'.ownPid.key → h = h'
  filed : ∀ i h o, s.opened i h = some o → (s.node i).mailboxes o.ownPid.key = some h
  links : ∀ i p q, (s.node i).mailboxLinker.Linked p q → p.InWireRange
  sent : ∀ i, ∀ m ∈ (s.node i).requested, m.2.IsFrom (s.node i).nodeName

variable {signedChar : Bool} {s t : TwoNodes} {i j : Bool} {x y p q : EPid}

theorem opened_eq_some {h : Handle} {o : MailboxObject} :
    s.opened i h = some o ↔ h ∉ s.closed i ∧ (s.node i).objects[h]? = some o := by
  rw [opened]
  by_cases hclosed : h ∈ s.closed i
  · rw [if_pos hclosed]
    exact ⟨by rintro ⟨⟩, fun ho => absurd hclosed ho.1⟩
  · rw [if_neg hclosed]
    exact ⟨fun ho => ⟨hclosed, ho⟩, And.right⟩

theorem Opened.exists_opened (hx : s.Opened i x) : ∃ h o, s.opened i h = some o ∧ o.ownPid = x := by
  obtain ⟨h, hopen, hpid⟩ := hx
  obtain ⟨o, ho, hpid⟩ := Option.map_eq_some_iff.mp hpid
  exact ⟨h, o, opened_eq_some.mpr ⟨hopen, ho⟩, hpid⟩

theorem pidOf_of_object {h : Handle} {o : MailboxObject} (ho : (s.node i).objects[h]? = some o) :
    s.pidOf i h = some o.ownPid := by
  rw [pidOf, ho, Option.map_some]

theorem opened_of_eq_some {h : Handle} {o : MailboxObject} (ho : s.opened i h = some o) :
    s.Opened i o.ownPid := by
  obtain ⟨hopen, ho⟩ := opened_eq_some.mp ho
  exact ⟨h, hopen, pidOf_of_object ho⟩

/-- What is in flight is about mailboxes of its sender. -/
theorem Wf.isFrom_of_requested (hs : s.Wf) {to_ : Str} {m : ControlMsg}
    {rest : List (Str × ControlMsg)} (h : (s.node i).requested = (to_, m) :: rest) :
    m.IsFrom (s.node i).nodeName :=
  hs.sent i (to_, m) (by rw [h]; exact List.mem_cons_self)

theorem Fresh.wf (hs : s.Fresh) (hfit : s.PidsFit) : s.Wf where
  names := hs.names
  here i h o ho := ⟨(hs.mailboxes i h o ho).1, (hs.mailboxes i h o ho).2.1⟩
  pidsFit := hfit
  unique i h h' o o' ho ho' hkey := by
    have hfiled := (hs.mailboxes i h o ho).2.2
    rw [hkey, (hs.mailboxes i h' o' ho').2.2] at hfiled
    exact (Option.some_inj.mp hfiled).symm
  filed i h o ho := (hs.mailboxes i h o (opened_eq_some.mp ho).2).2.2
  links i p q hlinked := by
    rw [hs.linker i] at hlinked
    exact absurd hlinked Linker.not_linked_create
  sent i m hm := by
    rw [hs.quiet i] at hm
    cases hm

@[simp] theorem setNode_node_self (n : ActualNode) : (s.setNode i n).node i = n :=
  Function.update_self ..

theorem setNode_node_of_ne (n : ActualNode) (h : j ≠ i) : (s.setNode i n).node j = s.node j :=
  Function.update_of_ne h ..

@[simp] theorem setNode_node_not (n : ActualNode) : (s.setNode i n).node (!i) = s.node (!i) :=
  setNode_node_of_ne n (Bool.not_ne_self i)

/-! ### Runs -/

/-- A mailbox that is there is not expired. -/
theorem Wf.isExpired (hs : s.Wf) {h : Handle} {o : MailboxObject}
    (ho : (s.node i).objects[h]? = some o) : (s.node i).isExpired h = false := by
  rw [ActualNode.isExpired, ho]
  exact (hs.here i h o ho).1

/-- A node does something, and a mailbox may be closed by it. -/
theorem Wf.update (hs : s.Wf) {n : ActualNode} {closed : List Handle}
    (hname : n.nodeName = (s.node i).nodeName)
    (hobjects : ∀ h : Handle, n.objects[h]?.map (fun o => (o.ownPid, o.expired)) =
      (s.node i).objects[h]?.map fun o => (o.ownPid, o.expired))
    (hclosed : s.closed i ⊆ closed)
    (hmailboxes : ∀ h o, h ∉ closed → s.opened i h = some o → n.mailboxes o.ownPid.key = some h)
    (hlinks : ∀ p q, n.mailboxLinker.Linked p q → p.InWireRange)
    (hsent : ∀ m ∈ n.requested, m.2.IsFrom n.nodeName) :
    Wf ⟨Function.update s.node i n, Function.update s.closed i closed⟩ := by
  have hobject {h : Handle} {o : MailboxObject} (ho : n.objects[h]? = some o) :
      ∃ o', (s.node i).objects[h]? = some o' ∧ o'.ownPid = o.ownPid ∧ o'.expired = o.expired := by
    have hh := hobjects h
    rw [ho] at hh
    obtain ⟨o', ho', heq⟩ := Option.map_eq_some_iff.mp hh.symm
    exact ⟨o', ho', (Prod.mk.inj heq).1, (Prod.mk.inj heq).2⟩
  have hnames (j : Bool) : (Function.update s.node i n j).nodeName = (s.node j).nodeName := by
    by_cases hj : j = i
    · subst hj
      rw [Function.update_self]
      exact hname
    · rw [Function.update_of_ne hj]
  refine ⟨fun j => ?_, fun j h o ho => ?_, fun j h o ho => ?_,
    fun j h h' o o' ho ho' hkey => ?_, fun j h o ho => ?_, fun j p q hlinked => ?_,
    fun j m hm => ?_⟩
  · rw [hnames, hnames]
    exact hs.names j
  · rw [hnames]
    by_cases hj : j = i
    · subst hj
      dsimp only at ho
      rw [Function.update_self] at ho
      obtain ⟨o', ho', hpid, hexp⟩ := hobject ho
      rw [← hpid, ← hexp]
      exact hs.here j h o' ho'
    · dsimp only at ho
      rw [Function.update_of_ne hj] at ho
      exact hs.here j h o ho
  · by_cases hj : j = i
    · subst hj
      dsimp only at ho
      rw [Function.update_self] at ho
      obtain ⟨o', ho', hpid, -⟩ := hobject ho
      rw [← hpid]
      exact hs.pidsFit j h o' ho'
    · dsimp only at ho
      rw [Function.update_of_ne hj] at ho
      exact hs.pidsFit j h o ho
  · by_cases hj : j = i
    · subst hj
      dsimp only at ho ho'
      rw [Function.update_self] at ho ho'
      obtain ⟨u, hu, hpid, -⟩ := hobject ho
      obtain ⟨u', hu', hpid', -⟩ := hobject ho'
      rw [← hpid, ← hpid'] at hkey
      exact hs.unique j h h' u u' hu hu' hkey
    · dsimp only at ho ho'
      rw [Function.update_of_ne hj] at ho ho'
      exact hs.unique j h h' o o' ho ho' hkey
  · obtain ⟨hopen, ho⟩ := opened_eq_some.mp ho
    by_cases hj : j = i
    · subst hj
      dsimp only at hopen ho ⊢
      rw [Function.update_self] at hopen ho ⊢
      obtain ⟨o', ho', hpid, -⟩ := hobject ho
      rw [← hpid]
      exact hmailboxes h o' hopen (opened_eq_some.mpr ⟨fun hmem => hopen (hclosed hmem), ho'⟩)
    · dsimp only at hopen ho ⊢
      rw [Function.update_of_ne hj] at hopen ho ⊢
      exact hs.filed j h o (opened_eq_some.mpr ⟨hopen, ho⟩)
  · by_cases hj : j = i
    · subst hj
      dsimp only at hlinked
      rw [Function.update_self] at hlinked
      exact hlinks p q hlinked
    · dsimp only at hlinked
      rw [Function.update_of_ne hj] at hlinked
      exact hs.links j p q hlinked
  · rw [hnames]
    by_cases hj : j = i
    · subst hj
      dsimp only at hm
      rw [Function.update_self] at hm
      rw [← hname]
      exact hsent m hm
    · dsimp only at hm
      rw [Function.update_of_ne hj] at hm
      exact hs.sent j m hm

theorem Wf.setNode (hs : s.Wf) {n : ActualNode} (hn : SameMailboxes (s.node i) n)
    (hlinks : ∀ p q, n.mailboxLinker.Linked p q → p.InWireRange)
    (hsent : ∀ m ∈ n.requested, m.2.IsFrom (s.node i).nodeName) : (s.setNode i n).Wf := by
  have hupdate := hs.update hn.nodeName hn.objects (List.Subset.refl _) (fun h o _ ho =>
    hn.mailboxes _ h (hs.filed i h o ho) (hs.isExpired (opened_eq_some.mp ho).2)) hlinks
    (by rw [hn.nodeName]; exact hsent)
  rw [Function.update_eq_self] at hupdate
  exact hupdate

variable {h h' : Handle} {k : Bool}

theorem step_link (ht : s.step signedChar (.link i h k h') = some t) :
    ∃ o o', s.opened i h = some o ∧ (s.node k).objects[h']? = some o' ∧
      t = s.setNode i ((s.node i).link allReachable o.ownPid o'.ownPid).2 := by
  rw [step] at ht
  split at ht
  · next o o' ho ho' => exact ⟨o, o', ho, ho', (Option.some_inj.mp ht).symm⟩
  · cases ht

theorem step_unlink (ht : s.step signedChar (.unlink i h k h') = some t) :
    ∃ o o', s.opened i h = some o ∧ (s.node k).objects[h']? = some o' ∧
      t = s.setNode i ((s.node i).unlink allReachable o.ownPid o'.ownPid).2 := by
  rw [step] at ht
  split at ht
  · next o o' ho ho' => exact ⟨o, o', ho, ho', (Option.some_inj.mp ht).symm⟩
  · cases ht

/-- The call of `close_mailbox` that a close makes. -/
def closing (s : TwoNodes) (i : Bool) (h : Handle) (o : MailboxObject) (reason : Str) : Closing :=
  ⟨h, o.ownPid, o.ownName, reason, allReachable, s.node i⟩

theorem step_close {reason : Str} (ht : s.step signedChar (.close i h reason) = some t) :
    ∃ o, s.opened i h = some o ∧ t =
      ⟨Function.update s.node i (s.closing i h o reason).after,
        Function.update s.closed i (h :: s.closed i)⟩ := by
  rw [step] at ht
  split at ht
  · next o ho => exact ⟨o, ho, (Option.some_inj.mp ht).symm⟩
  · cases ht

theorem step_deliver (ht : s.step signedChar (.deliver i) = some t) : ∃ to_ m rest,
    (s.node i).requested = (to_, m) :: rest ∧
      t = (s.setNode i { s.node i with requested := rest }).setNode (!i)
        ((s.node (!i)).onFrame signedChar m) := by
  rw [step] at ht
  split at ht
  · next to_ m rest heq => exact ⟨to_, m, rest, heq, (Option.some_inj.mp ht).symm⟩
  · cases ht

/-- What a node does for an open mailbox is about this mailbox and another one. -/
theorem Wf.setNode_call (hs : s.Wf) {n : ActualNode} {linker : Linker}
    {new : List (Str × ControlMsg)} (hn : n = { s.node i with
      mailboxLinker := linker
      requested := (s.node i).requested ++ new })
    (hnew : ∀ m ∈ new, m.2.IsFrom (s.node i).nodeName) (hp : p.InWireRange) (hq : q.InWireRange)
    (hlinked : ∀ a b, linker.Linked a b →
      (s.node i).mailboxLinker.Linked a b ∨ Linker.SamePair (a, b) (p, q)) :
    (s.setNode i n).Wf := by
  subst hn
  refine hs.setNode (.of_linker _ _) (fun a b hab => ?_) fun x hx => ?_
  · rcases hlinked a b hab with hab | hsame | hsame
    · exact hs.links i a b hab
    · rw [(Prod.mk.inj hsame).1]
      exact hp
    · rw [(Prod.mk.inj hsame).1]
      exact hq
  · rcases List.mem_append.mp hx with hx | hx
    · exact hs.sent i x hx
    · exact hnew x hx

/-- A message that is sent only to another node. -/
theorem isFrom_of_mem {c : Prop} [Decidable c] {m x : Str × ControlMsg} {nodeName : Str}
    (hm : m.2.IsFrom nodeName) (hx : x ∈ if c then [m] else []) : x.2.IsFrom nodeName := by
  split at hx
  · rw [List.mem_singleton.mp hx]
    exact hm
  · cases hx

/-- **What is true in every run.** -/
theorem Wf.step (hs : s.Wf) {e : TwoNodesEvent} (ht : s.step signedChar e = some t) : t.Wf := by
  cases e with
  | link i h k h' =>
    obtain ⟨o, o', ho, ho', rfl⟩ := step_link ht
    obtain ⟨-, hobject⟩ := opened_eq_some.mp ho
    have hp := hs.pidsFit i h o hobject
    have hq := hs.pidsFit k h' o' ho'
    refine hs.setNode_call (link_allReachable _ _ _) (fun m hm => ?_) hp hq
      fun a b hab => (Linker.linked_link.mp hab).symm
    refine isFrom_of_mem ?_ hm
    exact ⟨(hs.here i h o hobject).2, hp, hq⟩
  | unlink i h k h' =>
    obtain ⟨o, o', ho, ho', rfl⟩ := step_unlink ht
    obtain ⟨-, hobject⟩ := opened_eq_some.mp ho
    have hp := hs.pidsFit i h o hobject
    have hq := hs.pidsFit k h' o' ho'
    refine hs.setNode_call (unlink_allReachable _ _ _) (fun m hm => ?_) hp hq
      fun a b hab => .inl (Linker.linked_unlink.mp hab).1
    refine isFrom_of_mem ?_ hm
    exact ⟨(hs.here i h o hobject).2, hp, hq⟩
  | close i h reason =>
    obtain ⟨o, ho, rfl⟩ := step_close ht
    obtain ⟨hopen, hobject⟩ := opened_eq_some.mp ho
    refine hs.update (Closing.nodeName_after _) (Closing.objects_after _)
      (List.subset_cons_self h _) (fun h' o' hh' ho' => ?_) (fun a b hab => ?_) fun m hm => ?_
    · have hobject' := (opened_eq_some.mp ho').2
      refine Closing.mailboxes_after (hs.filed i h' o' ho') (hs.isExpired hobject') fun hkey => ?_
      obtain rfl := hs.unique i h' h o' o hobject' hobject hkey
      exact hh' List.mem_cons_self
    · rw [Closing.mailboxLinker_after] at hab
      exact hs.links i a b (Linker.linked_removeLinksFrom.mp hab).1
    · rw [(Closing.delivers_reached _).requested] at hm
      rw [Closing.nodeName_after]
      rcases List.mem_append.mp hm with hm | hm
      · exact hs.sent i m hm
      · obtain ⟨q, hq, rfl⟩ := List.mem_map.mp hm
        have hlinked : (s.node i).mailboxLinker.Linked q o.ownPid :=
          (Linker.mem_linkedPids.mp (List.takeWhile_subset _ (List.mem_of_mem_filter hq))).symm
        exact ⟨(hs.here i h o hobject).2, hs.pidsFit i h o hobject, hs.links i q _ hlinked⟩
  | deliver i =>
    obtain ⟨to_, m, rest, hrequested, rfl⟩ := step_deliver ht
    have hfrom := hs.isFrom_of_requested hrequested
    have htail : (s.setNode i { s.node i with requested := rest }).Wf :=
      hs.setNode (.of_linker _ _) (hs.links i) fun x hx =>
        hs.sent i x (by rw [hrequested]; exact List.mem_cons_of_mem _ hx)
    obtain ⟨hsame, hrequested'⟩ := onFrame_frame signedChar hfrom (s.node (!i))
    refine htail.setNode ?_ (fun a b hab => ?_) ?_
    · rw [setNode_node_not]
      exact hsame
    · rcases linked_of_onFrame hfrom hab with hab | ⟨c, d, hends, hpair⟩
      · exact hs.links (!i) a b hab
      · obtain ⟨p, q, hends', hp, hq⟩ := hfrom.exists_ends
        obtain ⟨rfl, rfl⟩ := Prod.mk.inj (Option.some_inj.mp (hends'.symm.trans hends))
        rcases hpair with hpair | hpair
        · rw [(Prod.mk.inj hpair).1]
          exact hp
        · rw [(Prod.mk.inj hpair).1]
          exact hq
    · rw [setNode_node_not, hrequested']
      exact hs.sent (!i)

/-! ### Calls -/

theorem said_append (requested requested' : List (Str × ControlMsg)) :
    said signedChar (requested ++ requested') x y =
      said signedChar requested x y ++ said signedChar requested' x y := by
  rw [said, said, said]
  split
  · rfl
  · exact List.filterMap_append

theorem pair_setNode (n : ActualNode) : (s.setNode i n).pair signedChar x y =
    { value := Function.update (s.pair signedChar x y).value i
        (decide (n.mailboxLinker.Linked x y))
      inFlight := Function.update (s.pair signedChar x y).inFlight i
        (said signedChar n.requested x y) } := by
  rw [pair, Replicas.mk.injEq]
  constructor
  · funext j
    exact Function.apply_update (fun _ m => decide (m.mailboxLinker.Linked x y)) s.node i n j
  · funext j
    exact Function.apply_update (fun _ m => said signedChar m.requested x y) s.node i n j

/-- What a node does that says nothing about a link. -/
theorem pair_setNode_of_same {n : ActualNode}
    (hlinked : n.mailboxLinker.Linked x y ↔ (s.node i).mailboxLinker.Linked x y)
    (hrequested : said signedChar n.requested x y = said signedChar (s.node i).requested x y) :
    (s.setNode i n).pair signedChar x y = s.pair signedChar x y := by
  rw [pair_setNode, hrequested, decide_eq_decide.mpr hlinked]
  show Replicas.mk (Function.update _ i ((s.pair signedChar x y).value i))
    (Function.update _ i ((s.pair signedChar x y).inFlight i)) = _
  rw [Function.update_eq_self, Function.update_eq_self]

/-- What it does that changes the link, and tells the other node. -/
theorem pair_setNode_of_write {n : ActualNode} {v : Bool} {m : Str × ControlMsg}
    (hlinked : decide (n.mailboxLinker.Linked x y) = v)
    (hrequested : n.requested = (s.node i).requested ++ [m]) (hm : m.2.relinks x y = some v) :
    (s.setNode i n).pair signedChar x y = (s.pair signedChar x y).write (!signedChar) i v := by
  rw [pair_setNode, hrequested, said_append, hlinked, Replicas.write, Replicas.mk.injEq]
  refine ⟨rfl, ?_⟩
  cases signedChar with
  | true => exact Function.update_eq_self i (s.pair true x y).inFlight
  | false =>
    have hsaid : said false [m] x y = [v] := by simp [said, hm]
    rw [hsaid]
    rfl

/-- Mailboxes of different nodes are not the two ends of a link within a node. -/
theorem ne_nodeName_of_samePair (hxy : x.nodeName ≠ y.nodeName)
    (h : Linker.SamePair (x, y) (p, q)) : q.nodeName ≠ p.nodeName := by
  rcases h with h | h
  · obtain ⟨rfl, rfl⟩ := Prod.mk.inj h
    exact hxy.symm
  · obtain ⟨rfl, rfl⟩ := Prod.mk.inj h
    exact hxy

/-- **A call of `link` is a write.** -/
theorem pair_link (hp : p.nodeName = (s.node i).nodeName) (hxy : x.nodeName ≠ y.nodeName) :
    (s.setNode i ((s.node i).link allReachable p q).2).pair signedChar x y =
      if Linker.SamePair (x, y) (p, q) then (s.pair signedChar x y).write (!signedChar) i true
      else s.pair signedChar x y := by
  rw [link_allReachable]
  by_cases hsame : Linker.SamePair (x, y) (p, q)
  · have hq := ne_nodeName_of_samePair hxy hsame
    rw [if_pos hsame, if_pos (by rwa [← hp])]
    refine pair_setNode_of_write ?_ rfl ?_
    · exact decide_eq_true (Linker.linked_link.mpr (.inl hsame))
    · rw [ControlMsg.relinks, if_pos hsame]
  · rw [if_neg hsame]
    refine pair_setNode_of_same ?_ ?_
    · rw [Linker.linked_link]
      exact or_iff_right hsame
    · rw [said_append]
      split <;> simp [said, ControlMsg.relinks, hsame]

/-- **And so is one of `unlink`.** -/
theorem pair_unlink (hp : p.nodeName = (s.node i).nodeName) (hxy : x.nodeName ≠ y.nodeName) :
    (s.setNode i ((s.node i).unlink allReachable p q).2).pair signedChar x y =
      if Linker.SamePair (x, y) (p, q) then (s.pair signedChar x y).write (!signedChar) i false
      else s.pair signedChar x y := by
  rw [unlink_allReachable]
  by_cases hsame : Linker.SamePair (x, y) (p, q)
  · have hq := ne_nodeName_of_samePair hxy hsame
    rw [if_pos hsame, if_pos (by rwa [← hp])]
    refine pair_setNode_of_write ?_ rfl ?_
    · exact decide_eq_false fun hlinked => (Linker.linked_unlink.mp hlinked).2 hsame
    · rw [ControlMsg.relinks, if_pos hsame]
  · rw [if_neg hsame]
    refine pair_setNode_of_same ?_ ?_
    · rw [Linker.linked_unlink]
      exact and_iff_left hsame
    · rw [said_append]
      split <;> simp [said, ControlMsg.relinks, hsame]

/-! ### Deliveries -/

/-- What the handler of a message does to the link of an open mailbox. -/
theorem linked_perform {n : ActualNode} {m : ControlMsg} {nodeName : Str} (hm : m.IsFrom nodeName)
    (hx : x.nodeName ≠ nodeName) (hfiled : n.mailboxes x.key = some h)
    (hexp : n.isExpired h = false) : (n.perform m.call).2.mailboxLinker.Linked x y ↔
      (m.relinks x y).getD (decide (n.mailboxLinker.Linked x y)) = true := by
  have hexit (p q : EPid) (reason : Str) (hp : p.nodeName = nodeName) :
      (n.incomingExit p q reason).2.mailboxLinker.Linked x y ↔
        ((if Linker.SamePair (x, y) (p, q) then some false else none).getD
          (decide (n.mailboxLinker.Linked x y))) = true := by
    by_cases hsame : Linker.SamePair (x, y) (p, q)
    · rw [if_pos hsame, Option.getD_some]
      -- the signal is for the open mailbox
      have hq : x = q := by
        rcases hsame with hsame | hsame
        · exact absurd ((Prod.mk.inj hsame).1 ▸ hp) hx
        · exact (Prod.mk.inj hsame).1
      rcases incomingExit_cases p q reason n with ⟨h', -, -, heq⟩ | ⟨hall, -⟩
      · rw [heq]
        refine iff_of_false (fun hlinked => ?_) (by rintro ⟨⟩)
        exact (Linker.linked_unlink.mp hlinked).2 hsame
      · rw [← hq] at hall
        rw [hall h hfiled] at hexp
        cases hexp
    · rw [if_neg hsame, Option.getD_none, decide_eq_true_iff]
      rcases incomingExit_cases p q reason n with ⟨h', -, -, heq⟩ | ⟨-, table, heq, -⟩
      · rw [heq]
        exact Linker.linked_unlink.trans (and_iff_left hsame)
      · rw [heq]
  cases m with
  | send payload toPid => cases hm
  | regSend payload toName fromPid => cases hm
  | link p q =>
    show (n.mailboxLinker.link p q).Linked x y ↔ _
    rw [Linker.linked_link, ControlMsg.relinks]
    by_cases hsame : Linker.SamePair (x, y) (p, q) <;> simp [hsame]
  | unlink p q =>
    show (n.mailboxLinker.unlink p q).Linked x y ↔ _
    rw [Linker.linked_unlink, ControlMsg.relinks]
    by_cases hsame : Linker.SamePair (x, y) (p, q) <;> simp [hsame]
  | exit p q reason => exact hexit p q reason hm.1
  | exit2 p q reason => exact hexit p q reason hm.1

theorem Wf.nodeName_of_opened (hs : s.Wf) (hx : s.Opened j x) :
    x.nodeName = (s.node j).nodeName := by
  obtain ⟨h, o, ho, rfl⟩ := hx.exists_opened
  exact (hs.here j h o (opened_eq_some.mp ho).2).2

theorem Wf.eq_of_nodeName (hs : s.Wf) (h : (s.node i).nodeName = (s.node j).nodeName) :
    i = j := by
  by_contra hij
  obtain rfl : i = !j := Bool.eq_not_of_ne hij
  exact hs.names j h

/-- A pid leads to the node of its mailbox. -/
theorem Wf.eq_of_opened (hs : s.Wf) {h : Handle} {o : MailboxObject}
    (ho : (s.node i).objects[h]? = some o) (hx : s.Opened j o.ownPid) : j = i :=
  hs.eq_of_nodeName ((hs.nodeName_of_opened hx).symm.trans (hs.here i h o ho).2)

theorem Wf.nodeName_ne (hs : s.Wf) (hx : s.Opened i x) (hy : s.Opened (!i) y) :
    x.nodeName ≠ y.nodeName := by
  rw [hs.nodeName_of_opened hx, hs.nodeName_of_opened hy]
  exact (hs.names i).symm

/-- **A delivery is a delivery** of what the message says about the link, if anything, to an open
mailbox. -/
theorem pair_deliver (hs : s.Wf) {to_ : Str} {m : ControlMsg} {rest : List (Str × ControlMsg)}
    (hrequested : (s.node i).requested = (to_, m) :: rest) (hx : s.Opened (!i) x) (y : EPid) :
    ((s.setNode i { s.node i with requested := rest }).setNode (!i)
      ((s.node (!i)).onFrame false m)).pair false x y =
        if (m.relinks x y).isSome then (s.pair false x y).deliver i else s.pair false x y := by
  have hfrom := hs.isFrom_of_requested hrequested
  obtain ⟨-, hrequested'⟩ := onFrame_frame false hfrom (s.node (!i))
  obtain ⟨h, o, ho, rfl⟩ := hx.exists_opened
  obtain ⟨-, hobject⟩ := opened_eq_some.mp ho
  have hremote : o.ownPid.nodeName ≠ (s.node i).nodeName := by
    rw [(hs.here (!i) h o hobject).2]
    exact hs.names i
  have hlinked := linked_perform (y := y) hfrom.received hremote (hs.filed (!i) h o ho)
    (hs.isExpired hobject)
  rw [← onFrame_false hfrom, ControlMsg.relinks_received] at hlinked
  have hflight : (s.pair false o.ownPid y).inFlight i =
      (m.relinks o.ownPid y).toList ++ said false rest o.ownPid y := by
    show (s.node i).requested.filterMap _ = _
    rw [hrequested]
    cases hrelinks : m.relinks o.ownPid y <;> simp [said, hrelinks]
  cases hrelinks : m.relinks o.ownPid y with
  | none =>
    rw [hrelinks, Option.getD_none, decide_eq_true_iff] at hlinked
    rw [hrelinks] at hflight
    have htail : (s.setNode i { s.node i with requested := rest }).pair false o.ownPid y =
        s.pair false o.ownPid y := pair_setNode_of_same Iff.rfl hflight.symm
    rw [pair_setNode_of_same (by rw [setNode_node_not]; exact hlinked)
      (by rw [setNode_node_not, hrequested']), htail]
    rfl
  | some v =>
    rw [hrelinks] at hflight
    have hflight : (s.pair false o.ownPid y).inFlight i = v :: said false rest o.ownPid y := hflight
    rw [hrelinks, Option.getD_some] at hlinked
    have hvalue : decide (((s.node (!i)).onFrame false m).mailboxLinker.Linked o.ownPid y) = v :=
      Bool.eq_iff_iff.mpr (decide_eq_true_iff.trans hlinked)
    have hself : decide ((s.node i).mailboxLinker.Linked o.ownPid y) =
      (s.pair false o.ownPid y).value i := rfl
    rw [pair_setNode, pair_setNode, hvalue, hrequested', hself, Function.update_eq_self,
      Replicas.deliver, hflight]
    dsimp only
    rw [Option.isSome_some, if_pos rfl, Replicas.mk.injEq]
    refine ⟨rfl, ?_⟩
    rw [Function.update_eq_iff]
    refine ⟨?_, fun _ _ => rfl⟩
    rw [Function.update_of_ne (Bool.not_ne_self i)]
    rfl

/-- What is not heard changes nothing. -/
theorem pair_deliver_true {m : ControlMsg} {rest : List (Str × ControlMsg)} :
    ((s.setNode i { s.node i with requested := rest }).setNode (!i)
      ((s.node (!i)).onFrame true m)).pair true x y = s.pair true x y := by
  rw [onFrame_true]
  have hsender : (s.setNode i { s.node i with requested := rest }).pair true x y =
      s.pair true x y := pair_setNode_of_same Iff.rfl rfl
  have hreceiver {s' : TwoNodes} (h : s'.node (!i) = s.node (!i)) :
      (s'.setNode (!i) (s.node (!i))).pair true x y = s'.pair true x y :=
    pair_setNode_of_same (by rw [h]) rfl
  exact (hreceiver (setNode_node_not _)).trans hsender

/-- **A delivery settles nothing new**, as an open mailbox sees it. -/
theorem settled_deliver (hs : s.Wf) (ht : s.step signedChar (.deliver i) = some t)
    (hx : s.Opened j x) (y : EPid) :
    (t.pair signedChar x y).settled j = (s.pair signedChar x y).settled j := by
  obtain ⟨to_, m, rest, hrequested, rfl⟩ := step_deliver ht
  cases signedChar with
  | true => rw [pair_deliver_true]
  | false =>
    by_cases hj : j = i
    · -- the sender does not notice
      subst hj
      have hfrom := hs.isFrom_of_requested hrequested
      obtain ⟨-, hrequested'⟩ := onFrame_frame false hfrom (s.node (!j))
      rw [pair_setNode, pair_setNode, hrequested']
      refine Replicas.settled_congr ?_ (Function.update_self ..)
      dsimp only
      rw [Function.update_of_ne (Bool.not_ne_self j).symm, Function.update_self]
      rfl
    · obtain rfl : j = !i := Bool.eq_not_of_ne hj
      rw [pair_deliver hs hrequested hx y]
      split
      · exact Replicas.settled_deliver (!i)
      · rfl

/-! ### Closes -/

/-- What a close says about a link of a mailbox of the other node: that it is gone, if the mailbox
is told of it. -/
theorem filterMap_remoteExits {n : ActualNode} (hx : x.nodeName ≠ n.nodeName) (hxp : x ≠ p)
    (reason : Str) (pids : List EPid) :
    ((remoteExits p reason n pids).filterMap fun m => m.2.relinks x y) =
      if y = p then (pids.filter (· = x)).map fun _ => false else [] := by
  induction pids with
  | nil => split <;> rfl
  | cons q pids ih =>
    rw [remoteExits_cons, List.filterMap_append, ih, remoteExits]
    by_cases hq : q = x
    · subst hq
      by_cases hy : y = p
      · subst hy
        simp [hx, ControlMsg.relinks, Linker.SamePair]
      · have hsame : ¬ Linker.SamePair (q, y) (p, q) := by
          rintro (h | h)
          · exact hxp (Prod.mk.inj h).1
          · exact hy (Prod.mk.inj h).2
        simp [hx, hy, ControlMsg.relinks, hsame]
    · have hsame : ¬ Linker.SamePair (x, y) (p, q) := by
        rintro (h | h)
        · exact hxp (Prod.mk.inj h).1
        · exact hq (Prod.mk.inj h).1.symm
      have hfilter : (q :: pids).filter (· = x) = pids.filter (· = x) :=
        List.filter_cons_of_neg (by simpa using hq)
      rw [hfilter]
      by_cases hremote : q.nodeName = n.nodeName <;> simp [hremote, ControlMsg.relinks, hsame]

/-- **A close is heard** by the mailboxes of the other node that it reaches. -/
theorem settled_close (hs : s.Wf) {h : Handle} {o : MailboxObject} (ho : s.opened i h = some o)
    (reason : Str) (hx : x.nodeName = (s.node j).nodeName) (hxo : x ≠ o.ownPid)
    (hy : y.nodeName ≠ (s.node j).nodeName) :
    (pair signedChar ⟨Function.update s.node i (s.closing i h o reason).after,
      Function.update s.closed i (h :: s.closed i)⟩ x y).settled j =
        if y = o.ownPid ∧ x ∈ (s.closing i h o reason).heard signedChar then false
        else (s.pair signedChar x y).settled j := by
  have hpair : pair signedChar ⟨Function.update s.node i (s.closing i h o reason).after,
      Function.update s.closed i (h :: s.closed i)⟩ x y =
        (s.setNode i (s.closing i h o reason).after).pair signedChar x y := rfl
  have howner : o.ownPid.nodeName = (s.node i).nodeName :=
    (hs.here i h o (opened_eq_some.mp ho).2).2
  rw [hpair, pair_setNode]
  by_cases hj : j = i
  · -- the node that closes the mailbox
    subst hj
    have hyo : y ≠ o.ownPid := by
      rintro rfl
      exact hy howner
    rw [if_neg fun hheard => hyo hheard.1]
    refine Replicas.settled_congr ?_ (Function.update_of_ne (Bool.not_ne_self j) ..)
    dsimp only
    rw [Function.update_self, Closing.mailboxLinker_after]
    refine decide_eq_decide.mpr ?_
    exact Linker.linked_removeLinksFrom.trans (and_iff_left ⟨hxo, hyo⟩)
  · obtain rfl : j = !i := Bool.eq_not_of_ne hj
    have hremote : x.nodeName ≠ (s.node i).nodeName := hx ▸ hs.names i
    have hrequested := (s.closing i h o reason).delivers_reached.requested
    have hexits := filterMap_remoteExits (y := y) hremote hxo reason
      (s.closing i h o reason).reached
    rw [Replicas.settled, Replicas.settled]
    dsimp only
    rw [Bool.not_not, Function.update_self, Function.update_of_ne (Bool.not_ne_self i), hrequested,
      said_append]
    cases signedChar with
    | true =>
      rw [if_neg fun hheard => List.not_mem_nil hheard.2]
      rfl
    | false =>
      rw [List.getLast?_append]
      show ((((remoteExits o.ownPid reason (s.node i)
        (s.closing i h o reason).reached).filterMap _)).getLast?.or _).getD _ =
          if y = o.ownPid ∧ x ∈ (s.closing i h o reason).reached then _ else _
      rw [hexits]
      by_cases hreached : y = o.ownPid ∧ x ∈ (s.closing i h o reason).reached
      · obtain ⟨hyo, hmem⟩ := hreached
        have hne : (s.closing i h o reason).reached.filter (· = x) ≠ [] :=
          List.ne_nil_of_mem (List.mem_filter.mpr ⟨hmem, decide_eq_true rfl⟩)
        rw [if_pos hyo, if_pos ⟨hyo, hmem⟩, List.getLast?_map, List.getLast?_eq_some_getLast hne]
        rfl
      · rw [if_neg hreached]
        by_cases hyo : y = o.ownPid
        · have hnone : (s.closing i h o reason).reached.filter (· = x) = [] := by
            refine List.filter_eq_nil_iff.mpr fun z hz => ?_
            rw [decide_eq_true_iff]
            rintro rfl
            exact hreached ⟨hyo, hz⟩
          rw [if_pos hyo, hnone]
          rfl
        · rw [if_neg hyo]
          rfl

/-! ### The mailboxes stay what they are -/

theorem pidOf_update {n : ActualNode} (closed : Bool → List Handle)
    (hobjects : ∀ h : Handle, n.objects[h]?.map (fun o => (o.ownPid, o.expired)) =
      (s.node i).objects[h]?.map fun o => (o.ownPid, o.expired)) :
    pidOf ⟨Function.update s.node i n, closed⟩ = s.pidOf := by
  funext j h
  by_cases hj : j = i
  · subst hj
    have hpid := congrArg (Option.map Prod.fst) (hobjects h)
    rw [Option.map_map, Option.map_map] at hpid
    rw [pidOf]
    dsimp only
    rw [Function.update_self]
    exact hpid
  · rw [pidOf]
    dsimp only
    rw [Function.update_of_ne hj]
    rfl

theorem pidOf_of_step (hs : s.Wf) {e : TwoNodesEvent} (ht : s.step signedChar e = some t) :
    t.pidOf = s.pidOf := by
  cases e with
  | link i h k h' =>
    obtain ⟨o, o', -, -, rfl⟩ := step_link ht
    rw [link_allReachable]
    exact pidOf_update s.closed (SameMailboxes.of_linker _ _).objects
  | unlink i h k h' =>
    obtain ⟨o, o', -, -, rfl⟩ := step_unlink ht
    rw [unlink_allReachable]
    exact pidOf_update s.closed (SameMailboxes.of_linker _ _).objects
  | close i h reason =>
    obtain ⟨o, -, rfl⟩ := step_close ht
    exact pidOf_update _ (Closing.objects_after _)
  | deliver i =>
    obtain ⟨to_, m, rest, hrequested, rfl⟩ := step_deliver ht
    have hfrom := hs.isFrom_of_requested hrequested
    obtain ⟨hsame, -⟩ := onFrame_frame signedChar hfrom (s.node (!i))
    have hreceive := pidOf_update (s := s.setNode i { s.node i with requested := rest }) (i := !i)
      s.closed (by rw [setNode_node_not]; exact hsame.objects)
    exact hreceive.trans (pidOf_update s.closed fun _ => rfl)

/-- Nodes keep their names. -/
theorem nodeName_of_step (hs : s.Wf) {e : TwoNodesEvent} (ht : s.step signedChar e = some t)
    (j : Bool) : (t.node j).nodeName = (s.node j).nodeName := by
  have hset {k : Bool} {n : ActualNode} (hn : n.nodeName = (s.node k).nodeName) :
      ((s.setNode k n).node j).nodeName = (s.node j).nodeName := by
    by_cases hj : j = k
    · subst hj
      rw [setNode_node_self, hn]
    · rw [setNode_node_of_ne n hj]
  cases e with
  | link i h k h' =>
    obtain ⟨o, o', -, -, rfl⟩ := step_link ht
    exact hset (by rw [link_allReachable])
  | unlink i h k h' =>
    obtain ⟨o, o', -, -, rfl⟩ := step_unlink ht
    exact hset (by rw [unlink_allReachable])
  | close i h reason =>
    obtain ⟨o, -, rfl⟩ := step_close ht
    exact hset (Closing.nodeName_after _)
  | deliver i =>
    obtain ⟨to_, m, rest, hrequested, rfl⟩ := step_deliver ht
    obtain ⟨hsame, -⟩ := onFrame_frame signedChar (hs.isFrom_of_requested hrequested)
      (s.node (!i))
    by_cases hj : j = !i
    · subst hj
      rw [setNode_node_self, hsame.nodeName]
    · rw [setNode_node_of_ne _ hj]
      exact hset rfl

/-- Only a close closes. -/
theorem closed_of_step {e : TwoNodesEvent} (hne : ∀ i h reason, e ≠ .close i h reason)
    (ht : s.step signedChar e = some t) : t.closed = s.closed := by
  cases e with
  | link i h k h' =>
    obtain ⟨o, o', -, -, rfl⟩ := step_link ht
    rfl
  | unlink i h k h' =>
    obtain ⟨o, o', -, -, rfl⟩ := step_unlink ht
    rfl
  | close i h reason => exact absurd rfl (hne i h reason)
  | deliver i =>
    obtain ⟨to_, m, rest, -, rfl⟩ := step_deliver ht
    rfl

theorem opened_iff_of_step (hs : s.Wf) {e : TwoNodesEvent}
    (hne : ∀ i h reason, e ≠ .close i h reason) (ht : s.step signedChar e = some t) :
    t.Opened j x ↔ s.Opened j x := by
  rw [Opened, pidOf_of_step hs ht, closed_of_step hne ht, Opened]

theorem closed_iff_of_step (hs : s.Wf) {e : TwoNodesEvent}
    (hne : ∀ i h reason, e ≠ .close i h reason) (ht : s.step signedChar e = some t) :
    t.Closed j x ↔ s.Closed j x := by
  rw [Closed, pidOf_of_step hs ht, closed_of_step hne ht, Closed]

/-- Mailboxes of a node have different pids. -/
theorem Wf.eq_of_pidOf (hs : s.Wf) {h h' : Handle} (hh : s.pidOf i h = some x)
    (hh' : s.pidOf i h' = some x) : h = h' := by
  obtain ⟨o, ho, hpid⟩ := Option.map_eq_some_iff.mp hh
  obtain ⟨o', ho', hpid'⟩ := Option.map_eq_some_iff.mp hh'
  exact hs.unique i h h' o o' ho ho' (by rw [hpid, hpid'])

theorem Wf.opened_of_ownPid (hs : s.Wf) {h : Handle} {o : MailboxObject}
    (ho : (s.node i).objects[h]? = some o) (hx : s.Opened i o.ownPid) : s.opened i h = some o := by
  obtain ⟨h', hopen, hpid⟩ := hx
  rw [← hs.eq_of_pidOf (pidOf_of_object ho) hpid] at hopen
  exact opened_eq_some.mpr ⟨hopen, ho⟩

theorem Wf.not_closed_of_opened (hs : s.Wf) (hx : s.Opened i x) : ¬ s.Closed i x := by
  rintro ⟨h', hclosed, hpid'⟩
  obtain ⟨h, hopen, hpid⟩ := hx
  rw [hs.eq_of_pidOf hpid hpid'] at hopen
  exact hopen hclosed

theorem mem_closed_of_close {h h' : Handle} {reason : Str}
    (ht : s.step signedChar (.close i h reason) = some t) :
    h' ∈ t.closed j ↔ h' ∈ s.closed j ∨ j = i ∧ h' = h := by
  obtain ⟨o, -, rfl⟩ := step_close ht
  dsimp only
  by_cases hj : j = i
  · subst hj
    rw [Function.update_self, List.mem_cons, or_comm, and_iff_right rfl]
  · rw [Function.update_of_ne hj]
    exact (or_iff_left fun hboth => hj hboth.1).symm

/-- What is open after a close was open before, and is not what has been closed. -/
theorem opened_iff_of_close (hs : s.Wf) {h : Handle} {o : MailboxObject} {reason : Str}
    (ho : s.opened i h = some o) (ht : s.step signedChar (.close i h reason) = some t) :
    t.Opened j x ↔ s.Opened j x ∧ x ≠ o.ownPid := by
  obtain ⟨-, hobject⟩ := opened_eq_some.mp ho
  rw [Opened, pidOf_of_step hs ht]
  constructor
  · rintro ⟨h', hopen, hpid⟩
    rw [mem_closed_of_close ht, not_or] at hopen
    have hx : s.Opened j x := ⟨h', hopen.1, hpid⟩
    refine ⟨hx, ?_⟩
    rintro rfl
    obtain rfl := hs.eq_of_opened hobject hx
    exact hopen.2 ⟨rfl, hs.eq_of_pidOf hpid (pidOf_of_object hobject)⟩
  · rintro ⟨⟨h', hopen, hpid⟩, hne⟩
    refine ⟨h', ?_, hpid⟩
    rw [mem_closed_of_close ht, not_or]
    refine ⟨hopen, ?_⟩
    rintro ⟨rfl, rfl⟩
    exact hne (Option.some_inj.mp (hpid.symm.trans (pidOf_of_object hobject)))

theorem closed_iff_of_close (hs : s.Wf) {h : Handle} {o : MailboxObject} {reason : Str}
    (ho : s.opened i h = some o) (ht : s.step signedChar (.close i h reason) = some t) :
    t.Closed j x ↔ s.Closed j x ∨ j = i ∧ x = o.ownPid := by
  have hpid' := pidOf_of_object (opened_eq_some.mp ho).2
  rw [Closed, pidOf_of_step hs ht, Closed]
  constructor
  · rintro ⟨h', hclosed, hpid⟩
    rcases (mem_closed_of_close ht).mp hclosed with hclosed | ⟨rfl, rfl⟩
    · exact .inl ⟨h', hclosed, hpid⟩
    · exact .inr ⟨rfl, Option.some_inj.mp (hpid.symm.trans hpid')⟩
  · rintro (⟨h', hclosed, hpid⟩ | ⟨rfl, rfl⟩)
    · exact ⟨h', (mem_closed_of_close ht).mpr (.inl hclosed), hpid⟩
    · exact ⟨h, (mem_closed_of_close ht).mpr (.inr ⟨rfl, rfl⟩), hpid'⟩

/-! ### When everything has arrived -/

theorem samePair_iff : Linker.SamePair (x, y) (p, q) ↔ Linker.SamePair (y, x) (p, q) :=
  Linker.samePair_swap (i := (y, x))

theorem pair_comm (s : TwoNodes) (x y : EPid) : s.pair signedChar x y = s.pair signedChar y x := by
  rw [pair, pair, Replicas.mk.injEq]
  refine ⟨funext fun i => decide_eq_decide.mpr Linker.linked_comm, funext fun i => ?_⟩
  have hrelinks : ControlMsg.relinks x y = ControlMsg.relinks y x := by
    funext m
    cases m <;> simp only [ControlMsg.relinks, samePair_iff]
  rw [said, said, hrelinks]

/-- When nothing is in flight, what is settled is what the linker says. -/
theorem settled_of_quiet (hs : s.Quiet) (j : Bool) (x y : EPid) :
    (s.pair signedChar x y).settled j = decide ((s.node j).mailboxLinker.Linked x y) := by
  refine Replicas.value_of_quiet ?_
  show said signedChar (s.node (!j)).requested x y = []
  rw [hs (!j), said, List.filterMap_nil, ite_self]

def OnlyDeliveries (es : List TwoNodesEvent) : Prop := ∀ e ∈ es, ∃ i, e = .deliver i

/-- What will be the case when everything that is in flight has arrived, in whatever order. -/
def OnceQuiet (signedChar : Bool) (P : TwoNodes → Prop) (s : TwoNodes) : Prop :=
  ∀ es t, OnlyDeliveries es → run (step signedChar) s es = some t → t.Quiet → P t

/-- What deliveries leave alone. -/
structure Awaited (signedChar : Bool) (s t : TwoNodes) : Prop where
  wf : t.Wf
  opened : ∀ j x, t.Opened j x ↔ s.Opened j x
  closed : ∀ j x, t.Closed j x ↔ s.Closed j x
  settled : ∀ j x y, s.Opened j x →
    (t.pair signedChar x y).settled j = (s.pair signedChar x y).settled j

theorem awaited_step (hs : s.Wf) (ht : s.step signedChar (.deliver i) = some t) :
    s.Awaited signedChar t where
  wf := hs.step ht
  opened _ _ := opened_iff_of_step (e := .deliver i) hs (by rintro _ _ _ ⟨⟩) ht
  closed _ _ := closed_iff_of_step (e := .deliver i) hs (by rintro _ _ _ ⟨⟩) ht
  settled _ _ y hx := settled_deliver hs ht hx y

theorem Awaited.trans {u : TwoNodes} (hst : s.Awaited signedChar t) (htu : t.Awaited signedChar u) :
    s.Awaited signedChar u where
  wf := htu.wf
  opened j x := (htu.opened j x).trans (hst.opened j x)
  closed j x := (htu.closed j x).trans (hst.closed j x)
  settled j x y hx :=
    (htu.settled j x y ((hst.opened j x).mpr hx)).trans (hst.settled j x y hx)

theorem awaited_run {es : List TwoNodesEvent} (hs : s.Wf) (hes : OnlyDeliveries es)
    (ht : run (step signedChar) s es = some t) : s.Awaited signedChar t := by
  induction es generalizing s with
  | nil =>
    obtain rfl := Option.some_inj.mp ht
    exact ⟨hs, fun _ _ => Iff.rfl, fun _ _ => Iff.rfl, fun _ _ _ _ => rfl⟩
  | cons e es ih =>
    obtain ⟨i, rfl⟩ := hes e List.mem_cons_self
    obtain ⟨s', hs', ht⟩ := Option.bind_eq_some_iff.mp ht
    have hfirst := awaited_step hs hs'
    exact hfirst.trans (ih hfirst.wf (fun e he => hes e (List.mem_cons_of_mem _ he)) ht)

/-- The number of the messages in flight. -/
def inFlight (s : TwoNodes) : ℕ := (s.node false).requested.length + (s.node true).requested.length

theorem inFlight_eq (s : TwoNodes) (i : Bool) :
    s.inFlight = (s.node i).requested.length + (s.node (!i)).requested.length := by
  cases i
  · rfl
  · exact Nat.add_comm _ _

theorem inFlight_step (hs : s.Wf) (ht : s.step signedChar (.deliver i) = some t) :
    t.inFlight < s.inFlight := by
  obtain ⟨to_, m, rest, hrequested, rfl⟩ := step_deliver ht
  have hfrom := hs.isFrom_of_requested hrequested
  obtain ⟨-, hrequested'⟩ := onFrame_frame signedChar hfrom (s.node (!i))
  rw [inFlight_eq _ i, inFlight_eq s i, setNode_node_self, hrequested',
    setNode_node_of_ne _ (Bool.not_ne_self i).symm, setNode_node_self, hrequested,
    List.length_cons]
  dsimp only
  omega

/-- **Everything arrives** in the end. -/
theorem exists_quiet (signedChar : Bool) (hs : s.Wf) :
    ∃ es t, OnlyDeliveries es ∧ run (step signedChar) s es = some t ∧ t.Quiet := by
  induction hn : s.inFlight using Nat.strong_induction_on generalizing s with
  | _ n ih =>
    by_cases hquiet : s.Quiet
    · exact ⟨[], s, by rintro _ ⟨⟩, rfl, hquiet⟩
    · obtain ⟨i, hi⟩ := not_forall.mp hquiet
      obtain ⟨⟨to_, m⟩, rest, hrequested⟩ := List.exists_cons_of_ne_nil hi
      have hstep : (s.step signedChar (.deliver i)).isSome := by
        rw [step, hrequested]
        rfl
      obtain ⟨s', hs'⟩ := Option.isSome_iff_exists.mp hstep
      obtain ⟨es, t, hes, ht, hq⟩ := ih s'.inFlight (hn ▸ inFlight_step hs hs') (hs.step hs') rfl
      refine ⟨.deliver i :: es, t, ?_, ?_, hq⟩
      · rintro e (_ | ⟨_, he⟩)
        · exact ⟨i, rfl⟩
        · exact hes e he
      · rw [run_cons, hs']
        exact ht

/-- What holds of a state once everything has arrived, as far as it can be seen from the state
itself. -/
theorem onceQuiet_iff {P : TwoNodes → Prop} {Q : Prop} (hs : s.Wf)
    (hPQ : ∀ t, s.Awaited signedChar t → t.Quiet → (P t ↔ Q)) :
    s.OnceQuiet signedChar P ↔ Q := by
  constructor
  · intro h
    obtain ⟨es, t, hes, ht, hq⟩ := exists_quiet signedChar hs
    exact (hPQ t (awaited_run hs hes ht) hq).mp (h es t hes ht hq)
  · intro h es t hes ht hq
    exact (hPQ t (awaited_run hs hes ht) hq).mpr h

/-- Whatever is the case once everything has arrived is the case when nothing is in flight. -/
theorem OnceQuiet.of_quiet {P : TwoNodes → Prop} (h : s.OnceQuiet signedChar P)
    (hs : s.Quiet) : P s :=
  h [] s (by rintro _ ⟨⟩) rfl hs

/-- **From one step to all runs.** `I` is what has to be true of a state for `P` to hold once
everything has arrived, and the steps that meet `G` are those that keep it. -/
theorem everyStep_iff_onceQuiet (signedChar : Bool) {G : TwoNodes → TwoNodesEvent → Prop}
    {P I : TwoNodes → Prop}
    (hG : ∀ s e, s.Wf → I s → (G s e ↔ ∀ t, s.step signedChar e = some t → I t))
    (hP : ∀ s, s.Wf → (s.OnceQuiet signedChar P ↔ I s)) (hs : s.Wf) (hI : I s)
    (es : List TwoNodesEvent) : EveryStep (step signedChar) G s es ↔
      Throughout (step signedChar) (OnceQuiet signedChar P) s es := by
  have hinv : Throughout (step signedChar) (fun t => t.Wf ∧ I t) s es ↔
      EveryStep (step signedChar) G s es := by
    refine throughout_iff_everyStep (fun t e ht => ?_) ⟨hs, hI⟩
    rw [hG t e ht.1 ht.2]
    exact forall_congr' fun u => forall_congr' fun hu => (and_iff_right (ht.1.step hu)).symm
  have hwf : Throughout (step signedChar) Wf s es := fun done _ t ht =>
    run_induction (fun _ _ _ hs ht => hs.step ht) hs ht
  rw [← hinv]
  constructor
  · exact fun h done hd t ht => (hP t (hwf done hd t ht)).mpr (h done hd t ht).2
  · exact fun h done hd t ht =>
      ⟨hwf done hd t ht, (hP t (hwf done hd t ht)).mp (h done hd t ht)⟩

/-! ### Two nodes with a mailbox each -/

def nodeNames (i : Bool) : Str := bytesOf (if i then "b@h" else "a@h")

def oneEach (names : Bool → Str) : TwoNodes where
  node i := (create (names i)).createMailboxNamed (bytesOf "m")
  closed _ := []

theorem fresh_oneEach : (oneEach nodeNames).Fresh where
  names := by decide
  linker _ := rfl
  quiet _ := rfl
  closed _ := rfl
  mailboxes i h o ho := by
    cases h with
    | zero =>
      obtain rfl := Option.some_inj.mp ho
      exact ⟨rfl, rfl, rfl⟩
    | succ h => cases ho

theorem pidsFit_oneEach : (oneEach nodeNames).PidsFit := by
  intro i h o ho
  cases h with
  | zero =>
    obtain rfl := Option.some_inj.mp ho
    cases i
    · exact ⟨by decide, by decide⟩
    · exact ⟨by decide, by decide⟩
  | succ h => cases ho

end TwoNodes

end TinchPp
