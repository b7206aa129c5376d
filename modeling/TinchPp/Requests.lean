import TinchPp.DispatchedFrames
import TinchPp.TwoNodes

/-!
# What a node asks its connections for

An operation of a node appends to `requested`, and does not look at what is there already. What a
handler does to its node asks for nothing at all. So it makes no difference to a node whether
`requested` has all that it has ever asked for, or only what is still to be delivered.

A message to a mailbox is sent by `deliver`. If it is for a pid, then it goes through a connection
even if that is a pid of the same node; a message to a registered name goes to a mailbox of the
same node, or through the connection to the node that is given.

## Main results

* `ActualNode.asks_link`, `ActualNode.asks_closeMailbox`, … — operations only append
* `ActualNode.perform_withRequested` — handlers ask for nothing
* `ActualNode.onMsgReceived_frame` — what a node does with a frame of another one
-/

namespace TinchPp

namespace ActualNode

/-! ### Sending -/

/-- `deliver(msg, to_pid)` -/
def deliver (net : Connections) (msg : MsgSeq) (toPid : EPid) (n : ActualNode) : NodeResult :=
  n.request net (.send msg toPid) toPid

/-- `deliver(msg, to_name, given_node, from_pid)`. It takes the name of a node to find a connection,
and nothing else of a pid. -/
def deliverNamed (net : Connections) (msg : MsgSeq) (toName givenNode : Str) (fromPid : EPid)
    (n : ActualNode) : NodeResult :=
  n.request net (.regSend msg toName fromPid) { fromPid with nodeName := givenNode }

/-! ### Operations append -/

def withRequested (requested : List (Str × ControlMsg)) (n : ActualNode) : ActualNode :=
  { n with requested := requested }

@[simp] theorem requested_withRequested (requested : List (Str × ControlMsg)) (n : ActualNode) :
    (n.withRequested requested).requested = requested := rfl

@[simp] theorem withRequested_withRequested (requested requested' : List (Str × ControlMsg))
    (n : ActualNode) :
    (n.withRequested requested).withRequested requested' = n.withRequested requested' := rfl

theorem withRequested_self (n : ActualNode) : n.withRequested n.requested = n := rfl

/-- The operation appends to what has been asked for, and that makes no difference to it. -/
def Asks (operation : ActualNode → NodeResult) (n : ActualNode) : Prop :=
  ∃ (result : Except TinchPpException Unit) (n' : ActualNode) (new : List (Str × ControlMsg)),
    ∀ requested, operation (n.withRequested requested) =
      (result, n'.withRequested (requested ++ new))

variable {operation : ActualNode → NodeResult} {n : ActualNode} {net : Connections}
  {p q : EPid}

/-- What is appended is what the operation, where it is called, has asked for. -/
theorem Asks.operation_eq (h : Asks operation n) : ∃ new,
    (operation n).2.requested = n.requested ++ new ∧ ∀ requested,
      (operation (n.withRequested requested)).2 =
        (operation n).2.withRequested (requested ++ new) := by
  obtain ⟨result, n', new, hall⟩ := h
  have hhere : operation n = (result, n'.withRequested (n.requested ++ new)) := hall n.requested
  refine ⟨new, by rw [hhere]; rfl, fun requested => ?_⟩
  rw [hall, hhere]
  rfl

/-- An operation that asks for nothing. -/
theorem Asks.of_eq (h : ∀ requested, operation (n.withRequested requested) =
    ((operation n).1, (operation n).2.withRequested requested)) : Asks operation n := by
  refine ⟨(operation n).1, (operation n).2, [], fun requested => ?_⟩
  rw [h, List.append_nil]

/-- One operation after the other, unless the first one raises. -/
theorem Asks.andThen (next : ActualNode → NodeResult) (h : Asks operation n)
    (hnext : ∀ n', Asks next n') :
    Asks (fun n => match operation n with
      | (.error e, n) => (.error e, n)
      | (.ok (), n) => next n) n := by
  obtain ⟨result, n', new, hall⟩ := h
  cases result with
  | error e => exact ⟨.error e, n', new, fun requested => by simp only [hall]⟩
  | ok u =>
    obtain ⟨result', n'', new', hall'⟩ := hnext n'
    refine ⟨result', n'', new ++ new', fun requested => ?_⟩
    simp only [hall, hall', List.append_assoc]

theorem asks_request (net : Connections) (op : ControlMsg) (p : EPid) (n : ActualNode) :
    Asks (fun n => n.request net op p) n := by
  cases hnet : net p with
  | error e =>
    refine ⟨.error e, n, [], fun requested => ?_⟩
    show (n.withRequested requested).request net op p = _
    rw [request, hnet, List.append_nil]
  | ok u =>
    refine ⟨.ok (), n, [(p.nodeName, op)], fun requested => ?_⟩
    show (n.withRequested requested).request net op p = _
    rw [request, hnet]
    rfl

theorem incomingExit_withRequested (p q : EPid) (reason : Str)
    (requested : List (Str × ControlMsg)) (n : ActualNode) :
    (n.withRequested requested).incomingExit p q reason =
      ((n.incomingExit p q reason).1, (n.incomingExit p q reason).2.withRequested requested) := by
  have hfetch : fetchMailbox q.key (keyToName q) (n.withRequested requested).mailboxes
      (n.withRequested requested) = fetchMailbox q.key (keyToName q) n.mailboxes n := rfl
  rw [incomingExit, incomingExit, hfetch]
  rcases fetchMailbox q.key (keyToName q) n.mailboxes n with ⟨e | h, table⟩
  · rfl
  · rfl

theorem asks_requestExit2 (net : Connections) (p q : EPid) (reason : Str) (n : ActualNode) :
    Asks (fun n => n.requestExit2 net p q reason) n := by
  by_cases hq : q.nodeName ≠ n.nodeName
  · obtain ⟨result, n', new, hall⟩ := asks_request net (.exit2 p q reason) q n
    refine ⟨result, n', new, fun requested => ?_⟩
    rw [← hall]
    exact if_pos hq
  · have hhere (requested : List (Str × ControlMsg)) :
        (n.withRequested requested).requestExit2 net p q reason =
          (n.withRequested requested).incomingExit p q reason := if_neg hq
    refine Asks.of_eq fun requested => ?_
    rw [show n.requestExit2 net p q reason = n.incomingExit p q reason from hhere n.requested,
      hhere, incomingExit_withRequested]

theorem asks_forEach {notificationFn : EPid → ActualNode → NodeResult}
    (h : ∀ p n, Asks (notificationFn p) n) (pids : List EPid) (n : ActualNode) :
    Asks (forEach notificationFn pids) n := by
  induction pids generalizing n with
  | nil => exact .of_eq fun requested => rfl
  | cons p pids ih => exact (h p n).andThen _ ih

/-- The operation leaves `requested` to its continuation. -/
theorem Asks.comp {f : ActualNode → ActualNode} (hf : ∀ requested,
    f (n.withRequested requested) = (f n).withRequested requested) (h : Asks operation (f n)) :
    Asks (fun n => operation (f n)) n := by
  obtain ⟨result, n', new, hall⟩ := h
  refine ⟨result, n', new, fun requested => ?_⟩
  show operation (f (n.withRequested requested)) = _
  rw [hf, hall]

theorem asks_link (net : Connections) (p q : EPid) (n : ActualNode) :
    Asks (fun n => n.link net p q) n := by
  by_cases hq : q.nodeName ≠ n.nodeName
  · obtain ⟨result, n', new, hall⟩ := (asks_request net (.link p q) q n).andThen
      (fun n => (.ok (), n.incomingLink p q)) fun n' => .of_eq fun _ => rfl
    refine ⟨result, n', new, fun requested => ?_⟩
    rw [← hall]
    exact if_pos hq
  · refine ⟨.ok (), n.incomingLink p q, [], fun requested => ?_⟩
    rw [List.append_nil]
    exact if_neg hq

theorem asks_unlink (net : Connections) (p q : EPid) (n : ActualNode) :
    Asks (fun n => n.unlink net p q) n := by
  by_cases hq : q.nodeName ≠ n.nodeName
  · obtain ⟨result, n', new, hall⟩ := (asks_request net (.unlink p q) q
      (n.incomingUnlink p q)).comp (f := fun n => n.incomingUnlink p q) fun _ => rfl
    refine ⟨result, n', new, fun requested => ?_⟩
    rw [← hall]
    exact if_pos hq
  · refine ⟨.ok (), n.incomingUnlink p q, [], fun requested => ?_⟩
    rw [List.append_nil]
    exact if_neg hq

theorem asks_closeMailbox (net : Connections) (p : EPid) (name reason : Str) (n : ActualNode) :
    Asks (fun n => n.closeMailbox net p name reason) n := by
  have hlinks (n : ActualNode) : Asks (closeLinksForLocal net p reason) n := by
    obtain ⟨result, n', new, hall⟩ := asks_forEach
      (fun q n => asks_requestExit2 net p q reason n) (n.mailboxLinker.removeLinksFrom p).1
      { n with mailboxLinker := (n.mailboxLinker.removeLinksFrom p).2 }
    exact ⟨result, n', new, hall⟩
  exact (hlinks n).andThen (fun n => (.ok (), n.remove p name)) fun n' =>
    .of_eq fun requested => rfl

/-! ### Handlers ask for nothing -/

theorem perform_withRequested (c : AccessCall) (requested : List (Str × ControlMsg))
    (n : ActualNode) : (n.withRequested requested).perform c =
      ((n.perform c).1, (n.perform c).2.withRequested requested) := by
  cases c with
  | deliverReceivedPid msg toPid =>
    have hfetch : fetchMailbox toPid.key (keyToName toPid) (n.withRequested requested).mailboxes
        (n.withRequested requested) = fetchMailbox toPid.key (keyToName toPid) n.mailboxes n := rfl
    rw [perform, perform, receiveIncoming, receiveIncoming, hfetch]
    rcases fetchMailbox toPid.key (keyToName toPid) n.mailboxes n with ⟨e | h, table⟩
    · rfl
    · rfl
  | deliverReceivedName msg toName =>
    have hfetch : fetchMailbox toName toName (n.withRequested requested).registeredMailboxes
        (n.withRequested requested) = fetchMailbox toName toName n.registeredMailboxes n := rfl
    rw [perform, perform, receiveIncomingName, receiveIncomingName, hfetch]
    rcases fetchMailbox toName toName n.registeredMailboxes n with ⟨e | h, table⟩
    · rfl
    · rfl
  | requestLink fromPid toPid => rfl
  | requestUnlink fromPid toPid => rfl
  | requestExit fromPid toPid reason => exact incomingExit_withRequested _ _ _ _ n
  | requestExit2 fromPid toPid reason => exact incomingExit_withRequested _ _ _ _ n

theorem onFrame_withRequested (signedChar : Bool) (m : ControlMsg)
    (requested : List (Str × ControlMsg)) (n : ActualNode) :
    (n.withRequested requested).onFrame signedChar m =
      (n.onFrame signedChar m).withRequested requested := by
  rw [onFrame, onFrame]
  induction m.accessCalls signedChar generalizing n with
  | nil => rfl
  | cons c calls ih => rw [List.foldl_cons, List.foldl_cons, perform_withRequested, ih]

/-- No message that comes in makes a node ask for something. -/
theorem requested_onFrame (signedChar : Bool) (m : ControlMsg) (n : ActualNode) :
    (n.onFrame signedChar m).requested = n.requested := by
  have hself := onFrame_withRequested signedChar m n.requested n
  rw [withRequested_self] at hself
  rw [hself]
  rfl

/-- What `connected::msg_received` does to the node. An exception of the dispatcher is caught there;
`none` stands for undefined behaviour. -/
def onMsgReceived (signedChar : Bool) (n : ActualNode) (msg : MsgSeq) : Option ActualNode :=
  if NodeConnection.isTick msg then some n
  else
    match dispatch signedChar msg with
    | ⟨_, .error .undefinedBehaviour⟩ => none
    | ⟨calls, .error (.tinchPpException _)⟩ | ⟨calls, .ok ()⟩ =>
      some (calls.foldl (fun n c => (n.perform c).2) n)

theorem requested_perform (c : AccessCall) (n : ActualNode) :
    (n.perform c).2.requested = n.requested := by
  have hself := perform_withRequested c n.requested n
  rw [withRequested_self] at hself
  rw [hself]
  rfl

/-- Whatever it is that comes in. -/
theorem requested_onMsgReceived {signedChar : Bool} {n n' : ActualNode} {msg : MsgSeq}
    (h : n.onMsgReceived signedChar msg = some n') : n'.requested = n.requested := by
  have hcalls (calls : List AccessCall) (n : ActualNode) :
      (calls.foldl (fun n c => (n.perform c).2) n).requested = n.requested := by
    induction calls generalizing n with
    | nil => rfl
    | cons c calls ih => rw [List.foldl_cons, ih, requested_perform]
  rw [onMsgReceived] at h
  split at h
  · rw [← Option.some_inj.mp h]
  · split at h
    · cases h
    · rw [← Option.some_inj.mp h, hcalls]
    · rw [← Option.some_inj.mp h, hcalls]

theorem requested_foldlM_onMsgReceived {signedChar : Bool} {msgs : List MsgSeq} :
    ∀ {n n' : ActualNode}, msgs.foldlM (onMsgReceived signedChar) n = some n' →
      n'.requested = n.requested := by
  induction msgs with
  | nil =>
    intro n n' h
    rw [← Option.some_inj.mp h]
  | cons msg msgs ih =>
    intro n n' h
    rw [List.foldlM_cons] at h
    obtain ⟨n₁, h₁, h⟩ := Option.bind_eq_some_iff.mp h
    rw [ih h, requested_onMsgReceived h₁]

/-- **A frame of another node**, as it is received. -/
theorem onMsgReceived_frame (signedChar : Bool) {m : ControlMsg} (hm : m.InWireRange)
    (n : ActualNode) : n.onMsgReceived signedChar m.frame = some (n.onFrame signedChar m) := by
  have htick : ¬ NodeConnection.isTick m.frame = true := by
    intro h
    exact m.frame_ne_tick (of_decide_eq_true h)
  rw [onMsgReceived, if_neg htick]
  cases signedChar with
  | true =>
    rw [ControlMsg.dispatch_frame_true, onFrame_true]
    rfl
  | false =>
    rw [ControlMsg.dispatch_frame_false hm, onFrame_of_inWireRange hm]
    rfl

end ActualNode

end TinchPp
