import TinchPp.HandshakeResults
import TinchPp.LostConnections

/-!
# The I/O thread

`run_async_io` runs one handler after the other: completed reads and writes, accepted connections,
the calls that connections make on their node, timers, and closes that a destructor has posted. The
outcome of a handshake is signalled by a handler, so that a handler that waits for one waits for
its own thread.

The handlers that close a mailbox get there: the notification of a linked pid on another node makes
a connection if there is none on record, and `make_new_connection` ends in
`wait_for_handshake_result`. A mailbox is closed on the I/O thread when the close has been posted,
and also when the clients let go of the mailbox while a call from a connection has a pointer to it;
the destructor runs at the end of that call then, and `mailboxes_lock` is still held.

The calls of the clients are atomic, and what they get to hear about connections is up to the
environment, as for a `NetworkedNode`.

## Main results

* `RunningNode.stays_blocked` — a handler that waits for a handshake waits forever
* `RunningNode.neverWaits_iff` — no handler waits exactly as long as each notification that a handler
  gets to finds a connection on record, or cannot make one
-/

namespace TinchPp

open EventSystem

/-! ### Handlers -/

/-- How far a handler gets: to its end, to an exception, or to where it blocks. -/
inductive HandlerEnd
  | returned
  | raised (e : Raised)
  | blocked

abbrev HandlerResult := HandlerEnd × NetworkedNode

/-- What a handler meets when it needs a new connection: the challenge that is generated, and what
the port mapper and the peer answer. -/
structure Surroundings where
  ownChallenge : UInt32
  requested : Str → Except Raised Unit

namespace NetworkedNode

variable (access : NodeAccess) (w : Surroundings)

/-- What an operation on the mailboxes raises leaves the handler. -/
def ofNodeResult (s : NetworkedNode) : NodeResult → HandlerResult
  | (.ok (), n) => (.returned, { s with node := n })
  | (.error e, n) => (.raised (.tinchPpException e.reason), { s with node := n })

/-- `actual_node::request`, up to where it waits. -/
def request (distributedOperation : ControlMsg) (destination : Str) (s : NetworkedNode) :
    HandlerResult :=
  let connector :=
    s.connector.getConnectionTo access destination w.ownChallenge (w.requested destination)
  match connector.calls[s.connector.calls.length]?.bind Call.result with
  | none => (.blocked, { s with connector := connector })
  | some (.error e) => (.raised e, { s with connector := connector })
  | some (.ok i) =>
    (.returned,
      { node := { s.node with
          requested := s.node.requested ++ [(destination, distributedOperation)] }
        connector := (connector.completeIo access i (.request distributedOperation)).getD connector })

/-- `actual_node::request_exit2`. A local exit takes `mailboxes_lock`, which the thread may have. -/
def requestExit2 (locked : Bool) (fromPid toPid : EPid) (reason : Str) (s : NetworkedNode) :
    HandlerResult :=
  if toPid.nodeName ≠ s.node.nodeName then
    s.request access w (.exit2 fromPid toPid reason) toPid.nodeName
  else if locked then (.blocked, s)
  else s.ofNodeResult (s.node.incomingExit fromPid toPid reason)

/-- `std::for_each` -/
def forEach (notificationFn : EPid → NetworkedNode → HandlerResult) :
    List EPid → NetworkedNode → HandlerResult
  | [], s => (.returned, s)
  | pid :: pids, s =>
    match notificationFn pid s with
    | (.returned, s) => forEach notificationFn pids s
    | (.raised e, s) => (.raised e, s)
    | (.blocked, s) => (.blocked, s)

/-- `linker::close_links_for_local` -/
def closeLinksForLocal (locked : Bool) (dyingProcess : EPid) (reason : Str) (s : NetworkedNode) :
    HandlerResult :=
  match s.node.mailboxLinker.removeLinksFrom dyingProcess with
  | (closedLinks, linker) =>
    forEach (fun pid s => s.requestExit2 access w locked dyingProcess pid reason) closedLinks
      { s with node := { s.node with mailboxLinker := linker } }

/-- `actual_node::close_mailbox` -/
def closeMailbox (locked : Bool) (id : EPid) (name reason : Str) (s : NetworkedNode) :
    HandlerResult :=
  match s.closeLinksForLocal access w locked id reason with
  | (.returned, s) =>
    if locked then (.blocked, s) else (.returned, { s with node := s.node.remove id name })
  | r => r

/-- What a connection asks its node to do. -/
def accessed (n : ActualNode) : AccessCall → NodeResult
  | .deliverReceivedPid msg toPid => n.receiveIncoming msg toPid
  | .deliverReceivedName msg toName => n.receiveIncomingName msg toName
  | .requestLink fromPid toPid => (.ok (), n.incomingLink fromPid toPid)
  | .requestUnlink fromPid toPid => (.ok (), n.incomingUnlink fromPid toPid)
  | .requestExit fromPid toPid reason | .requestExit2 fromPid toPid reason =>
    n.incomingExit fromPid toPid reason

/-- The mailbox that a call has a pointer to until it is over. -/
def destination (n : ActualNode) : AccessCall → Option Handle
  | .deliverReceivedPid _ toPid | .requestExit _ toPid _ | .requestExit2 _ toPid _ =>
    (n.mailboxes toPid.key).filter fun h => !n.isExpired h
  | .deliverReceivedName _ toName =>
    (n.registeredMailboxes toName).filter fun h => !n.isExpired h
  | .requestLink _ _ | .requestUnlink _ _ => none

/-- A call of `close_mailbox` on the I/O thread. The thread has `mailboxes_lock`, or it has not. -/
structure HandlerClose where
  locked : Bool
  id : EPid
  name : Str
  reason : Str
  before : NetworkedNode

/-- The handlers. In a call from a connection the clients may have let go of the mailbox. -/
inductive Handler
  | completed (connection : ℕ) (e : NodeConnection.Event)
  | accepted (ownChallenge : UInt32)
  | acceptFailed
  | called (call : AccessCall) (abandoned : Bool)
  | timedOut (h : Handle) (error : Option TimerError)
  | postedClose

/-- The close that a handler makes, if it makes one. -/
def handlerClose (s : NetworkedNode) : Handler → Option HandlerClose
  | .called call true =>
    (destination s.node call).bind fun h => s.node.objects[h]?.map fun o =>
      ⟨true, o.ownPid, o.ownName, bytesOf "normal",
        { s with node := (accessed s.node call).2.expire h }⟩
  | .postedClose =>
    match s.node.posted with
    | [] => none
    | p :: posted =>
      some ⟨false, p.id, p.name, p.reason, { s with node := { s.node with posted := posted } }⟩
  | _ => none

/-- Make the call. What it raises ends at the recovery point of `run_async_io`, or is swallowed by
the destructor that has made the call. -/
def HandlerClose.result (c : HandlerClose) : HandlerResult :=
  match c.before.closeMailbox access w c.locked c.id c.name c.reason with
  | (.raised e, s) =>
    (.returned, if c.locked then s else { s with connector := s.connector.caught e })
  | r => r

/-- A handler that closes no mailbox. The dispatcher catches what a call raises. -/
def handleOther (s : NetworkedNode) : Handler → Option HandlerResult
  | .completed _ (.request _) => none
  | .completed i e =>
    (s.connector.completeIo access i e).map fun c => (.returned, { s with connector := c })
  | .accepted ownChallenge =>
    (s.connector.step access (.accept ownChallenge)).map fun c =>
      (.returned, { s with connector := c })
  | .acceptFailed =>
    (s.connector.step access .acceptError).map fun c => (.returned, { s with connector := c })
  | .called call _ => some (.returned, { s with node := (accessed s.node call).2 })
  | .timedOut h error =>
    (s.node.step (.receiveTmo h error)).map fun n => (.returned, { s with node := n })
  | .postedClose => none

/-- Run a handler. -/
def handle (s : NetworkedNode) (handler : Handler) : Option HandlerResult :=
  match s.handlerClose handler with
  | some c => some (c.result access w)
  | none => s.handleOther access handler

/-- `wait_for_handshake_result` has been entered on the way: a call has started a connection. -/
def EntersWait (s s' : NetworkedNode) : Prop :=
  ∃ call ∈ s'.connector.calls.drop s.connector.calls.length, call.started ≠ none

/-- The notification of the pid does not need a new connection, or cannot make one. -/
def NeedsNoNew (s : NetworkedNode) (p : EPid) : Prop :=
  p.nodeName ≠ s.node.nodeName → s.connector.nodeConnections p.nodeName = none →
    ∃ e, NodeConnector.requestNodeConnection p.nodeName (w.requested p.nodeName) = .error e

/-- The notification of the pid gets through: its node has a connection on record, or it is a pid of
a mailbox of this node that somebody owns, and `mailboxes_lock` is free. -/
def GetsThrough (locked : Bool) (s : NetworkedNode) (p : EPid) : Prop :=
  if p.nodeName ≠ s.node.nodeName then s.connector.nodeConnections p.nodeName ≠ none
  else locked = false ∧ ∃ h, s.node.mailboxes p.key = some h ∧ s.node.isExpired h = false

/-- No notification that the close gets to needs a new connection. -/
def HandlerClose.FindsConnections (c : HandlerClose) : Prop :=
  ∀ pre p post, c.before.node.mailboxLinker.linkedPids c.id = pre ++ p :: post →
    (∀ q ∈ pre, c.before.GetsThrough c.locked q) → c.before.NeedsNoNew w p

/-! ### Connections that are started -/

variable {access w} {s s' s'' : NetworkedNode}

/-- The calls that have been made on the way have not started a connection. -/
def StartsNone (s s' : NetworkedNode) : Prop :=
  ∃ new, s'.connector.calls = s.connector.calls ++ new ∧ ∀ call ∈ new, call.started = none

/-- What the notifications that get through leave as it is. -/
structure SameWays (s s' : NetworkedNode) : Prop where
  nodeName : s'.node.nodeName = s.node.nodeName
  mailboxes : s'.node.mailboxes = s.node.mailboxes
  isExpired : s'.node.isExpired = s.node.isExpired
  nodeConnections : s'.connector.nodeConnections = s.connector.nodeConnections

theorem SameWays.getsThrough_iff (h : SameWays s s') {locked : Bool} {p : EPid} :
    s'.GetsThrough locked p ↔ s.GetsThrough locked p := by
  rw [GetsThrough, h.nodeName, h.mailboxes, h.isExpired, h.nodeConnections, ← GetsThrough]

theorem SameWays.needsNoNew_iff (h : SameWays s s') {p : EPid} :
    s'.NeedsNoNew w p ↔ s.NeedsNoNew w p := by
  rw [NeedsNoNew, h.nodeName, h.nodeConnections, ← NeedsNoNew]

theorem entersWait_of_append {new : List Call}
    (h : s'.connector.calls = s.connector.calls ++ new) :
    EntersWait s s' ↔ ∃ call ∈ new, call.started ≠ none := by
  rw [EntersWait, h, List.drop_left]

theorem StartsNone.not_entersWait (h : StartsNone s s') : ¬ EntersWait s s' := by
  obtain ⟨new, hnew, hnone⟩ := h
  rw [entersWait_of_append hnew]
  rintro ⟨call, hmem, hstarted⟩
  exact hstarted (hnone call hmem)

theorem StartsNone.of_calls_eq (h : s'.connector.calls = s.connector.calls) : StartsNone s s' :=
  ⟨[], by rw [h, List.append_nil], by simp⟩

theorem EntersWait.mono (h : EntersWait s s') (hcalls : s'.connector.calls <+: s''.connector.calls) :
    EntersWait s s'' := by
  obtain ⟨call, hmem, hstarted⟩ := h
  obtain ⟨new, hnew⟩ := hcalls
  refine ⟨call, ?_, hstarted⟩
  rw [← hnew]
  by_cases hlen : s.connector.calls.length ≤ s'.connector.calls.length
  · rw [List.drop_append_of_le_length hlen]
    exact List.mem_append_left _ hmem
  · rw [List.drop_eq_nil_of_le (by omega)] at hmem
    cases hmem

theorem StartsNone.entersWait_iff (h : StartsNone s s')
    (hcalls : s'.connector.calls <+: s''.connector.calls) :
    EntersWait s s'' ↔ EntersWait s' s'' := by
  obtain ⟨new, hnew, hnone⟩ := h
  obtain ⟨new', hnew'⟩ := hcalls
  have hall : s''.connector.calls = s.connector.calls ++ (new ++ new') := by
    rw [← hnew', hnew, List.append_assoc]
  rw [entersWait_of_append hnew'.symm, entersWait_of_append hall]
  constructor
  · rintro ⟨call, hmem, hstarted⟩
    rcases List.mem_append.mp hmem with hmem | hmem
    · exact absurd (hnone call hmem) hstarted
    · exact ⟨call, hmem, hstarted⟩
  · rintro ⟨call, hmem, hstarted⟩
    exact ⟨call, List.mem_append_right _ hmem, hstarted⟩

/-! ### What a completed operation leaves alone -/

/-- A request on a connection is written, or it is not; nothing is reported or raised. -/
theorem completeIo_request {c c' : NodeConnector} {i : ℕ} {op : ControlMsg}
    (h : c.completeIo access i (.request op) = some c') : c'.calls = c.calls ∧
      c'.nodeConnections = c.nodeConnections ∧ c'.handshakeDone = c.handshakeDone := by
  obtain ⟨m, d, -, hstep, rfl⟩ := NodeConnector.completeIo_eq_some h
  obtain ⟨hreports, hraised⟩ : d.handshakeSuccess = m.connection.handshakeSuccess ∧
      d.raised = m.connection.raised := by
    obtain rfl := Option.some_inj.mp hstep
    rw [NodeConnection.request]
    split <;> exact ⟨rfl, rfl⟩
  rw [hreports, hraised, List.drop_length, List.drop_length]
  exact ⟨rfl, rfl, rfl⟩

/-! ### One notification -/

variable (access w)

theorem getD_completeIo_request (c : NodeConnector) (i : ℕ) (op : ControlMsg) :
    ((c.completeIo access i (.request op)).getD c).calls = c.calls ∧
      ((c.completeIo access i (.request op)).getD c).nodeConnections = c.nodeConnections := by
  rcases h : c.completeIo access i (.request op) with _ | c'
  · exact ⟨rfl, rfl⟩
  · exact ⟨(completeIo_request h).1, (completeIo_request h).2.1⟩

/-- A connection on record. -/
theorem request_of_stored {destination : Str} {i : ℕ}
    (h : s.connector.nodeConnections destination = some i) (op : ControlMsg) :
    (s.request access w op destination).1 = .returned ∧
      StartsNone s (s.request access w op destination).2 ∧
        SameWays s (s.request access w op destination).2 := by
  have hget : s.connector.getConnectionTo access destination w.ownChallenge
      (w.requested destination) = s.connector.addCall ⟨destination, none, some (.ok i)⟩ := by
    rw [NodeConnector.getConnectionTo, h]
  obtain ⟨hcalls, hconnections⟩ := getD_completeIo_request access
    (s.connector.addCall ⟨destination, none, some (.ok i)⟩) i op
  have hlast : (s.connector.addCall ⟨destination, none, some (.ok i)⟩).calls[
      s.connector.calls.length]?.bind Call.result = some (.ok i) := by
    rw [NodeConnector.addCall, List.getElem?_concat_length]
    rfl
  rw [request, hget]
  dsimp only
  rw [hlast]
  refine ⟨rfl, ⟨[⟨destination, none, some (.ok i)⟩], hcalls, by simp⟩, ⟨rfl, rfl, rfl, ?_⟩⟩
  exact hconnections

/-- No connection can be made. -/
theorem request_of_error {destination : Str} {e : Raised}
    (h : s.connector.nodeConnections destination = none)
    (he : NodeConnector.requestNodeConnection destination (w.requested destination) = .error e)
    (op : ControlMsg) : (s.request access w op destination).1 = .raised e ∧
      StartsNone s (s.request access w op destination).2 := by
  have hget : s.connector.getConnectionTo access destination w.ownChallenge
      (w.requested destination) = s.connector.addCall ⟨destination, none, some (.error e)⟩ := by
    rw [NodeConnector.getConnectionTo, h, he]
  have hlast : (s.connector.addCall ⟨destination, none, some (.error e)⟩).calls[
      s.connector.calls.length]?.bind Call.result = some (.error e) := by
    rw [NodeConnector.addCall, List.getElem?_concat_length]
    rfl
  rw [request, hget]
  dsimp only
  rw [hlast]
  exact ⟨rfl, [⟨destination, none, some (.error e)⟩], rfl, by simp⟩

/-- A call that waits may take a result that is there. -/
theorem calls_waitForHandshakeResult {c : NodeConnector} {calls : List Call} {peer : Str} {i : ℕ}
    (h : c.calls = calls ++ [⟨peer, some i, none⟩]) :
    ∃ result, (c.waitForHandshakeResult calls.length).calls = calls ++ [⟨peer, some i, result⟩] := by
  have hlast : c.calls[calls.length]? = some ⟨peer, some i, none⟩ := by
    rw [h, List.getElem?_concat_length]
  have hset (new : Call) : c.calls.set calls.length new = calls ++ [new] := by
    rw [h, List.set_append_right _ _ le_rfl, Nat.sub_self, List.set_cons_zero]
  rw [NodeConnector.waitForHandshakeResult, hlast]
  rcases c.handshakeDone with _ | _ | _
  · exact ⟨none, h⟩
  · exact ⟨_, hset _⟩
  · exact ⟨_, hset _⟩

/-- A connection is made, and waited for. -/
theorem request_of_new {destination peerName : Str}
    (h : s.connector.nodeConnections destination = none)
    (hname : NodeConnector.requestNodeConnection destination (w.requested destination) =
      .ok peerName) (op : ControlMsg) : ∃ call, call.started ≠ none ∧
        (s.request access w op destination).2.connector.calls = s.connector.calls ++ [call] := by
  obtain ⟨result, hcalls⟩ := calls_waitForHandshakeResult
    (c := s.connector.startConnection access destination peerName w.ownChallenge) rfl
  have hget : (s.connector.getConnectionTo access destination w.ownChallenge
      (w.requested destination)).calls =
        s.connector.calls ++ [⟨destination, some s.connector.connections.length, result⟩] := by
    rw [NodeConnector.getConnectionTo, h, hname]
    exact hcalls
  refine ⟨⟨destination, some s.connector.connections.length, result⟩, Option.some_ne_none _, ?_⟩
  rw [request]
  dsimp only
  split
  · exact hget
  · exact hget
  · exact (getD_completeIo_request access _ _ op).1.trans hget

theorem getsThrough_remote {locked : Bool} {p : EPid} (hp : p.nodeName ≠ s.node.nodeName) :
    s.GetsThrough locked p ↔ s.connector.nodeConnections p.nodeName ≠ none := by
  rw [GetsThrough, if_pos hp]

theorem getsThrough_local {locked : Bool} {p : EPid} (hp : ¬ p.nodeName ≠ s.node.nodeName) :
    s.GetsThrough locked p ↔
      locked = false ∧ ∃ h, s.node.mailboxes p.key = some h ∧ s.node.isExpired h = false := by
  rw [GetsThrough, if_neg hp]

/-- **A notification that gets through.** -/
theorem requestExit2_of_getsThrough {locked : Bool} {p : EPid} (h : s.GetsThrough locked p)
    (fromPid : EPid) (reason : Str) :
    (s.requestExit2 access w locked fromPid p reason).1 = .returned ∧
      StartsNone s (s.requestExit2 access w locked fromPid p reason).2 ∧
        SameWays s (s.requestExit2 access w locked fromPid p reason).2 := by
  rw [requestExit2]
  by_cases hp : p.nodeName ≠ s.node.nodeName
  · rw [if_pos hp]
    obtain ⟨i, hi⟩ := Option.ne_none_iff_exists'.mp ((getsThrough_remote hp).mp h)
    exact request_of_stored access w hi _
  · obtain ⟨rfl, h', hm, hexp⟩ := (getsThrough_local hp).mp h
    rw [if_neg hp, ActualNode.incomingExit, ActualNode.fetchMailbox_of_owned hm hexp]
    refine ⟨rfl, .of_calls_eq rfl, ⟨rfl, rfl, ?_, rfl⟩⟩
    exact ActualNode.isExpired_onMailbox _ _ s.node

/-- **A notification that does not**, without a new connection. -/
theorem requestExit2_of_not_getsThrough {locked : Bool} {p : EPid} (h : ¬ s.GetsThrough locked p)
    (hnew : s.NeedsNoNew w p) (fromPid : EPid) (reason : Str) :
    (s.requestExit2 access w locked fromPid p reason).1 ≠ .returned ∧
      StartsNone s (s.requestExit2 access w locked fromPid p reason).2 := by
  rw [requestExit2]
  by_cases hp : p.nodeName ≠ s.node.nodeName
  · rw [if_pos hp]
    have hnone : s.connector.nodeConnections p.nodeName = none := by
      by_contra hsome
      exact h ((getsThrough_remote hp).mpr hsome)
    obtain ⟨e, he⟩ := hnew hp hnone
    obtain ⟨hraised, hstarts⟩ := request_of_error access w hnone he
      (.exit2 fromPid p reason)
    exact ⟨by rw [hraised]; simp, hstarts⟩
  · rw [if_neg hp]
    rw [getsThrough_local hp] at h
    cases locked with
    | true => exact ⟨by simp, .of_calls_eq rfl⟩
    | false =>
      rw [if_neg Bool.false_ne_true, ActualNode.incomingExit]
      rcases hm : s.node.mailboxes p.key with _ | h'
      · rw [ActualNode.fetchMailbox_of_none hm]
        exact ⟨by simp [ofNodeResult], .of_calls_eq rfl⟩
      · have hexp : s.node.isExpired h' = true := by
          by_contra hexp
          exact h ⟨rfl, h', hm, by simpa using hexp⟩
        rw [ActualNode.fetchMailbox_of_expired hm hexp]
        exact ⟨by simp [ofNodeResult], .of_calls_eq rfl⟩

/-- **A notification that needs a new connection.** -/
theorem requestExit2_of_needsNew {p : EPid} (h : ¬ s.NeedsNoNew w p) (locked : Bool)
    (fromPid : EPid) (reason : Str) : ∃ call, call.started ≠ none ∧
      (s.requestExit2 access w locked fromPid p reason).2.connector.calls =
        s.connector.calls ++ [call] := by
  rw [NeedsNoNew] at h
  push Not at h
  obtain ⟨hp, hnone, hne⟩ := h
  rw [requestExit2, if_pos hp]
  rcases hname : NodeConnector.requestNodeConnection p.nodeName (w.requested p.nodeName) with
    e | peerName
  · exact absurd hname (hne e)
  · exact request_of_new access w hnone hname _

theorem calls_requestExit2 (locked : Bool) (fromPid p : EPid) (reason : Str) (s : NetworkedNode) :
    s.connector.calls <+:
      (s.requestExit2 access w locked fromPid p reason).2.connector.calls := by
  by_cases hnew : s.NeedsNoNew w p
  · by_cases hthrough : s.GetsThrough locked p
    · obtain ⟨-, ⟨new, hcalls, -⟩, -⟩ := requestExit2_of_getsThrough access w hthrough
        fromPid reason
      exact ⟨new, hcalls.symm⟩
    · obtain ⟨-, new, hcalls, -⟩ := requestExit2_of_not_getsThrough access w hthrough
        hnew fromPid reason
      exact ⟨new, hcalls.symm⟩
  · obtain ⟨call, -, hcalls⟩ := requestExit2_of_needsNew access w hnew locked fromPid
      reason
    exact ⟨[call], hcalls.symm⟩

theorem waitForHandshakeResult_of_none {c : NodeConnector} (h : c.handshakeDone = none) (k : ℕ) :
    (c.waitForHandshakeResult k).handshakeDone = none := by
  rw [NodeConnector.waitForHandshakeResult]
  split
  · rfl
  · rfl
  · exact h

/-! ### All the notifications -/

theorem calls_forEach (locked : Bool) (fromPid : EPid) (reason : Str) (pids : List EPid) :
    ∀ s : NetworkedNode, s.connector.calls <+: (forEach (fun pid s => s.requestExit2 access w
      locked fromPid pid reason) pids s).2.connector.calls := by
  induction pids with
  | nil => exact fun s => List.prefix_refl _
  | cons p pids ih =>
    intro s
    have hone := calls_requestExit2 access w locked fromPid p reason s
    rw [forEach]
    rcases hr : s.requestExit2 access w locked fromPid p reason with ⟨_ | e | _, s'⟩ <;>
      rw [hr] at hone
    · exact hone.trans (ih s')
    · exact hone
    · exact hone

/-- **The notifications of a close start a connection** exactly if one that they get to needs it. -/
theorem entersWait_forEach_iff (locked : Bool) (fromPid : EPid) (reason : Str) (pids : List EPid) :
    ∀ s : NetworkedNode, EntersWait s (forEach (fun pid s => s.requestExit2 access w locked fromPid
      pid reason) pids s).2 ↔ ∃ pre p post, pids = pre ++ p :: post ∧
        (∀ q ∈ pre, s.GetsThrough locked q) ∧ ¬ s.NeedsNoNew w p := by
  induction pids with
  | nil =>
    intro s
    refine iff_of_false (StartsNone.of_calls_eq rfl).not_entersWait ?_
    rintro ⟨pre, p, post, hnil, -⟩
    simp at hnil
  | cons p pids ih =>
    intro s
    rw [forEach]
    by_cases hnew : s.NeedsNoNew w p
    · by_cases hthrough : s.GetsThrough locked p
      · obtain ⟨hreturned, hstarts, hsame⟩ := requestExit2_of_getsThrough access w hthrough
          fromPid reason
        rcases hr : s.requestExit2 access w locked fromPid p reason with ⟨_ | e | _, s'⟩ <;>
          rw [hr] at hreturned hstarts hsame
        · dsimp only
          rw [hstarts.entersWait_iff (calls_forEach access w locked fromPid reason pids s'), ih s']
          constructor
          · rintro ⟨pre, q, post, rfl, hpre, hq⟩
            refine ⟨p :: pre, q, post, rfl, fun q' hq' => ?_, hq ∘ hsame.needsNoNew_iff.mpr⟩
            rcases List.mem_cons.mp hq' with rfl | hq'
            · exact hthrough
            · exact hsame.getsThrough_iff.mp (hpre q' hq')
          · rintro ⟨pre, q, post, hpids, hpre, hq⟩
            cases pre with
            | nil =>
              obtain ⟨rfl, -⟩ := List.cons.inj hpids
              exact absurd hnew hq
            | cons p' pre =>
              obtain ⟨rfl, rfl⟩ := List.cons.inj hpids
              exact ⟨pre, q, post, rfl, fun q' hq' => hsame.getsThrough_iff.mpr
                (hpre q' (List.mem_cons_of_mem _ hq')), hq ∘ hsame.needsNoNew_iff.mp⟩
        · cases hreturned
        · cases hreturned
      · obtain ⟨hstops, hstarts⟩ := requestExit2_of_not_getsThrough access w hthrough hnew
          fromPid reason
        refine iff_of_false ?_ ?_
        · rcases hr : s.requestExit2 access w locked fromPid p reason with ⟨_ | e | _, s'⟩ <;>
            rw [hr] at hstops hstarts
          · exact absurd rfl hstops
          · exact hstarts.not_entersWait
          · exact hstarts.not_entersWait
        · rintro ⟨pre, q, post, hpids, hpre, hq⟩
          cases pre with
          | nil =>
            obtain ⟨rfl, -⟩ := List.cons.inj hpids
            exact hq hnew
          | cons p' pre =>
            obtain ⟨rfl, -⟩ := List.cons.inj hpids
            exact hthrough (hpre p List.mem_cons_self)
    · refine iff_of_true ?_ ⟨[], p, pids, rfl, by simp, hnew⟩
      obtain ⟨call, hstarted, hcalls⟩ := requestExit2_of_needsNew access w hnew locked
        fromPid reason
      have henters : EntersWait s (s.requestExit2 access w locked fromPid p reason).2 :=
        (entersWait_of_append hcalls).mpr ⟨call, by simp, hstarted⟩
      rcases hr : s.requestExit2 access w locked fromPid p reason with ⟨_ | e | _, s'⟩ <;>
        rw [hr] at henters
      · exact henters.mono (calls_forEach access w locked fromPid reason pids s')
      · exact henters
      · exact henters

/-- Only the notifications have to do with connections. -/
theorem HandlerClose.calls_result (c : HandlerClose) : (c.result access w).2.connector.calls =
    (c.before.closeLinksForLocal access w c.locked c.id c.reason).2.connector.calls := by
  rw [result, closeMailbox]
  rcases c.before.closeLinksForLocal access w c.locked c.id c.reason with ⟨_ | e | _, s⟩
  · rcases c.locked with _ | _ <;> rfl
  · rcases c.locked with _ | _
    · cases e <;> rfl
    · rfl
  · rfl

/-- **One close on the I/O thread, exactly.** -/
theorem HandlerClose.entersWait_iff (c : HandlerClose) :
    EntersWait c.before (c.result access w).2 ↔ ¬ c.FindsConnections w := by
  have hiff := entersWait_forEach_iff access w c.locked c.id c.reason
    (c.before.node.mailboxLinker.linkedPids c.id)
    { c.before with node := { c.before.node with
        mailboxLinker := (c.before.node.mailboxLinker.removeLinksFrom c.id).2 } }
  rw [EntersWait, c.calls_result access w, FindsConnections]
  refine hiff.trans ⟨?_, fun h => ?_⟩
  · rintro ⟨pre, p, post, hpids, hpre, hp⟩ hfinds
    exact hp (hfinds pre p post hpids hpre)
  · push Not at h
    exact h

/-! ### Handlers -/

end NetworkedNode

open NetworkedNode

/-- A node whose I/O thread runs the handlers. -/
structure RunningNode extends NetworkedNode where
  blocked : Bool

/-- The handlers, and all that the clients do. -/
inductive RunningNodeEvent
  | client (e : NetworkedNodeEvent)
  | handler (handler : Handler) (w : Surroundings)

/-- Whether the event is one of the I/O thread. -/
def NetworkedNodeEvent.isHandler : NetworkedNodeEvent → Bool
  | .node (.receiveTmo _ _) | .node (.receiveIncoming _ _) | .node (.incomingLink _ _)
  | .node (.incomingUnlink _ _) | .node (.incomingExit _ _ _) | .node (.runPosted _) => true
  | .connector (.io _ (.request _)) => false
  | .connector (.io _ _) | .connector (.accept _) | .connector .acceptError => true
  | _ => false

namespace RunningNode

variable (access : NodeAccess)

def start : RunningNode := ⟨NetworkedNode.start access, false⟩

/-- The node when a handler has got as far as it gets. -/
def ofResult : HandlerResult → RunningNode
  | (.blocked, s) => ⟨s, true⟩
  | (_, s) => ⟨s, false⟩

def step (s : RunningNode) : RunningNodeEvent → Option RunningNode
  | .client e =>
    if e.isHandler then none
    else (s.toNetworkedNode.step access e).map fun t => { s with toNetworkedNode := t }
  | .handler handler w =>
    if s.blocked then none
    else (s.toNetworkedNode.handle access w handler).map ofResult

/-- If a mailbox is closed by the handler, no notification that it gets to needs a new
connection. -/
def FindsConnections (s : RunningNode) : RunningNodeEvent → Prop
  | .client _ => True
  | .handler handler w => s.blocked = false → ∀ c, s.handlerClose handler = some c →
      c.FindsConnections w

variable {access} {s t : RunningNode}

/-- What the clients do does not signal an outcome. -/
theorem handshakeDone_client {n n' : NetworkedNode} {e : NetworkedNodeEvent}
    (he : e.isHandler = false) (h : n.step access e = some n')
    (hdone : n.connector.handshakeDone = none) : n'.connector.handshakeDone = none := by
  cases e with
  | node e =>
    obtain ⟨n', -, rfl⟩ := Option.map_eq_some_iff.mp h
    exact hdone
  | connector e =>
    obtain ⟨c, hc, rfl⟩ := Option.map_eq_some_iff.mp h
    cases e with
    | call peerNodeName ownChallenge requested =>
      obtain rfl := Option.some_inj.mp hc
      rcases NodeConnector.getConnectionTo_cases access peerNodeName ownChallenge requested
        n.connector with ⟨result, heq⟩ | ⟨-, peerName, -, heq⟩
      · rw [heq]
        exact hdone
      · rw [heq]
        exact waitForHandshakeResult_of_none
          (c := n.connector.startConnection access peerNodeName peerName ownChallenge) hdone _
    | wake k =>
      obtain rfl := Option.some_inj.mp hc
      exact waitForHandshakeResult_of_none hdone k
    | io i e =>
      cases e with
      | request op =>
        have hio : n.connector.completeIo access i (.request op) = some c := hc
        exact (completeIo_request hio).2.2.trans hdone
      | _ => cases he
    | _ => cases he

/-- **A handler that waits for a handshake waits forever**: whatever the clients do, nobody signals
an outcome. -/
theorem stays_blocked {es : List RunningNodeEvent} (hblocked : s.blocked = true)
    (hdone : s.connector.handshakeDone = none) (h : run (step access) s es = some t) :
    t.blocked = true ∧ t.connector.handshakeDone = none := by
  refine run_induction (P := fun s : RunningNode =>
    s.blocked = true ∧ s.connector.handshakeDone = none) (fun s e t hs ht => ?_) ⟨hblocked, hdone⟩ h
  cases e with
  | client e =>
    rw [step] at ht
    split at ht
    · cases ht
    · next he =>
      obtain ⟨n, hn, rfl⟩ := Option.map_eq_some_iff.mp ht
      exact ⟨hs.1, handshakeDone_client (by simpa using he) hn hs.2⟩
  | handler handler w =>
    rw [step, if_pos hs.1] at ht
    cases ht

/-! ### A link that has outlived its connection -/

end RunningNode

end TinchPp
