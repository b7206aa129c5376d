import TinchPp.NodeConnector

/-!
# The ends of a connection

A connection of a node with the network at its other side. What is handed over to the network comes
out of it at the other end, in its order and in pieces of any size, so that all an end has to be
told about its peer is what it has sent so far.

A message is with the network before the node is told that it has been written, so that the answer
may be there first; `handedOver` is that time in between. The network takes a message at once, and a
read gets any part of what is there, up to a buffer full. A network that takes messages in parts has
no other behaviour, since a read may leave those parts for later. No operation fails.

In a handshake an end waits for one message (`Awaiting`), or it writes one (`Sending`).

## Main results

* `Endpoint.moves_of_step` — what a step does
* `Endpoint.Awaiting.moves`, `Endpoint.Awaiting.read` — an end that waits for a message
* `Endpoint.Sending.moves` — an end that writes a message
-/

namespace TinchPp

open NodeConnection PeerStream

/-! ### One end -/

/-- One end of a connection, and all that it has handed over to the network and got from it.
`handedOver` says that this includes the message which is being written. -/
structure Endpoint where
  connection : NodeConnection
  handedOver : Bool
  sent : MsgSeq
  received : MsgSeq

/-- What happens at one end. A read gets so many bytes, or what there is if that is less. -/
inductive EndpointEvent
  | transmit
  | written
  | read (n : ℕ)
  | request (distributedOperation : ControlMsg)

namespace Endpoint

def start (c : NodeConnection) : Endpoint where
  connection := c
  handedOver := false
  sent := []
  received := []

/-- What is on its way from a peer that has sent so much. -/
def incoming (peerSent : MsgSeq) (p : Endpoint) : MsgSeq := peerSent.drop p.received.length

def step (node : NodeAccess) (peerSent : MsgSeq) (p : Endpoint) : EndpointEvent → Option Endpoint
  | .transmit =>
    match p.connection.writing, p.handedOver, p.connection.writeQueue with
    | true, false, (msg, _) :: _ => some { p with handedOver := true, sent := p.sent ++ msg }
    | _, _, _ => none
  | .written =>
    if p.handedOver then
      (p.connection.step node .written).map fun c =>
        { p with connection := c, handedOver := false }
    else none
  | .read n =>
    let bytes := (p.incoming peerSent).take n
    (p.connection.step node (.read bytes)).map fun c =>
      { p with connection := c, received := p.received ++ bytes }
  | .request distributedOperation =>
    (p.connection.step node (.request distributedOperation)).map fun c => { p with connection := c }

/-- The operation can complete, and what its callback does then is undefined. -/
def Undefined (node : NodeAccess) (peerSent : MsgSeq) (p : Endpoint) : EndpointEvent → Prop
  | .transmit => False
  | .written => p.handedOver = true ∧ p.connection.Undefined node .written
  | .read n => p.connection.Undefined node (.read ((p.incoming peerSent).take n))
  | .request distributedOperation => p.connection.Undefined node (.request distributedOperation)

end Endpoint

/-! ### What a step does -/

namespace Endpoint

variable {node : NodeAccess} {peerSent : MsgSeq} {p p' : Endpoint} {ownChallenge : UInt32}
  {state : ConnectionState} {l : MsgLexer}

/-- What becomes of an end. What it has received is a part of what its peer has sent. -/
inductive Moves (node : NodeAccess) (peerSent : MsgSeq) (p : Endpoint) : Endpoint → Prop
  | transmit {msg callback queue} (hnew : p.handedOver = false)
      (hwriting : p.connection.writing = true)
      (hqueue : p.connection.writeQueue = (msg, callback) :: queue) :
      Moves node peerSent p { p with handedOver := true, sent := p.sent ++ msg }
  | written {c} (hdone : p.handedOver = true) (hc : p.connection.step node .written = some c) :
      Moves node peerSent p { p with connection := c, handedOver := false }
  | read {bytes c} (hbytes : p.received ++ bytes <+: peerSent)
      (hc : p.connection.step node (.read bytes) = some c) :
      Moves node peerSent p { p with connection := c, received := p.received ++ bytes }
  | request {op c} (hc : p.connection.step node (.request op) = some c) :
      Moves node peerSent p { p with connection := c }

/-- A read gets a part of what the peer has sent. -/
theorem received_append_take_isPrefix (hpeer : p.received <+: peerSent) (n : ℕ) :
    p.received ++ (p.incoming peerSent).take n <+: peerSent := by
  obtain ⟨rest, rfl⟩ := hpeer
  rw [incoming, List.drop_left, List.prefix_append_right_inj]
  exact List.take_prefix n rest

/-- Only reads can be undefined. -/
theorem Undefined.exists_read {e : EndpointEvent} (h : p.Undefined node peerSent e) :
    ∃ n, e = .read n := by
  cases e with
  | transmit => exact h.elim
  | written =>
    obtain ⟨bytes, hread⟩ := h.2.exists_read
    cases hread
  | read n => exact ⟨n, rfl⟩
  | request op =>
    obtain ⟨bytes, hread⟩ := NodeConnection.Undefined.exists_read h
    cases hread

theorem moves_of_step {e : EndpointEvent} (hpeer : p.received <+: peerSent)
    (h : p.step node peerSent e = some p') : p.Moves node peerSent p' := by
  cases e with
  | transmit =>
    rw [step] at h
    split at h
    · next hwriting hnew hqueue =>
      obtain rfl := Option.some_inj.mp h
      exact .transmit hnew hwriting hqueue
    · cases h
  | written =>
    rw [step] at h
    split at h
    · next hdone =>
      obtain ⟨c, hc, rfl⟩ := Option.map_eq_some_iff.mp h
      exact .written hdone hc
    · cases h
  | read n =>
    obtain ⟨c, hc, rfl⟩ := Option.map_eq_some_iff.mp h
    exact .read (received_append_take_isPrefix hpeer n) hc
  | request op =>
    rw [step] at h
    obtain ⟨c, hc, rfl⟩ := Option.map_eq_some_iff.mp h
    exact .request hc

namespace Moves

theorem sent_isPrefix (h : p.Moves node peerSent p') : p.sent <+: p'.sent := by
  cases h with
  | transmit => exact List.prefix_append _ _
  | written | read | request => exact List.prefix_rfl

theorem received_isPrefix (h : p.Moves node peerSent p') : p.received <+: p'.received := by
  cases h with
  | read => exact List.prefix_append _ _
  | transmit | written | request => exact List.prefix_rfl

theorem received_isPrefix_peerSent (h : p.Moves node peerSent p') (hpeer : p.received <+: peerSent) :
    p'.received <+: peerSent := by
  cases h with
  | read hbytes => exact hbytes
  | transmit | written | request => exact hpeer

theorem peerName_eq (h : p.Moves node peerSent p')
    (hread : ∀ k, p.connection.pendingRead ≠ some (.nameRead, k)) :
    p'.connection.peerName = p.connection.peerName := by
  cases h with
  | transmit => rfl
  | written _ hc | read _ hc | request hc => exact peerName_of_step hread hc

end Moves

/-! ### An end that waits, and one that writes -/

/-- An end that waits for a message, with a part of it in its lexer. -/
structure Awaiting (ownChallenge : UInt32) (state : ConnectionState) (callback : ReadCallback)
    (u : MsgSeq) (p : Endpoint) : Prop
    extends WaitsFor ownChallenge state callback ⟨u, []⟩ p.connection where
  handedOver : p.handedOver = false

end Endpoint

/-- A handshake that writes this message first, and then the others in the queue. -/
structure NodeConnection.WritesMsg (ownChallenge : UInt32) (state : ConnectionState) (l : MsgLexer)
    (msg : MsgSeq) (callback : WriteCallback) (queue : List (MsgSeq × WriteCallback))
    (c : NodeConnection) : Prop extends c.InHandshake where
  state_eq : c.state = state
  ownChallenge_eq : c.ownChallenge = ownChallenge
  handshakeMsgs : c.handshakeMsgs = l
  pendingRead : c.pendingRead = none
  writeQueue : c.writeQueue = (msg, callback) :: queue
  writing : c.writing = true

/-- A transition of a handshake to a state that writes one message. -/
theorem PeerStream.Runs.writesMsg {ownChallenge : UInt32} {state : ConnectionState} {l : MsgLexer}
    {c : NodeConnection} (hc : Runs ownChallenge l c) (hstate : state ≠ .connected) (msg : MsgSeq)
    (callback : WriteCallback) : WritesMsg ownChallenge state l msg callback []
      ((c.changeState state).triggerCheckedWrite msg callback) := by
  have hwrites := hc.writes hstate msg callback
  refine ⟨hwrites.toInHandshake, hwrites.state_eq, hwrites.ownChallenge_eq, hwrites.handshakeMsgs,
    hwrites.pendingRead, ?_, hwrites.writing⟩
  show c.writeQueue ++ [(msg, callback)] = [(msg, callback)]
  rw [hc.writeQueue, List.nil_append]

namespace Endpoint

variable {node : NodeAccess} {peerSent before msg u : MsgSeq} {p p' : Endpoint}
  {ownChallenge : UInt32} {state : ConnectionState} {l : MsgLexer} {callback : WriteCallback}
  {queue : List (MsgSeq × WriteCallback)}

/-- An end that writes a message, and has sent this before. -/
structure Sending (ownChallenge : UInt32) (state : ConnectionState) (l : MsgLexer) (msg : MsgSeq)
    (callback : WriteCallback) (queue : List (MsgSeq × WriteCallback)) (before : MsgSeq)
    (p : Endpoint) : Prop extends
    NodeConnection.WritesMsg ownChallenge state l msg callback queue p.connection where
  sent : p.sent = before ++ if p.handedOver then msg else []

/-- **An end that waits** only reads. -/
theorem Awaiting.moves {callback : ReadCallback} (hp : p.Awaiting ownChallenge state callback u)
    (h : p.Moves node peerSent p') : p' = p ∨ ∃ bytes c, p.received ++ bytes <+: peerSent ∧
      p.connection.step node (.read bytes) = some c ∧
        p' = { p with connection := c, received := p.received ++ bytes } := by
  cases h with
  | transmit _ hwriting => cases hp.writing.symm.trans hwriting
  | written hdone => cases hp.handedOver.symm.trans hdone
  | read hbytes hc => exact .inr ⟨_, _, hbytes, hc, rfl⟩
  | request hc =>
    rw [NodeConnection.step, request_of_ne hp.state_ne] at hc
    obtain rfl := Option.some_inj.mp hc
    exact .inl rfl

/-- **An end that writes** goes on doing so until the message has been written. -/
theorem Sending.moves (hp : p.Sending ownChallenge state l msg callback queue before)
    (h : p.Moves node peerSent p') : p'.received = p.received ∧
      (p'.Sending ownChallenge state l msg callback queue before ∨
        p'.handedOver = false ∧ p'.sent = before ++ msg ∧ p'.connection =
          { p.connection with writeQueue := queue, writing := !queue.isEmpty }.invokeWritten
            callback) := by
  cases h with
  | transmit hnew _ hqueue =>
    rw [hp.writeQueue, List.cons.injEq, Prod.mk.injEq] at hqueue
    obtain ⟨⟨rfl, -⟩, -⟩ := hqueue
    refine ⟨rfl, .inl ⟨hp.toWritesMsg, ?_⟩⟩
    show p.sent ++ msg = before ++ msg
    rw [hp.sent, hnew]
    simp
  | written hdone hc =>
    obtain ⟨-, msg', callback', queue', hqueue, rfl⟩ := step_written hc
    rw [hp.writeQueue, List.cons.injEq, Prod.mk.injEq] at hqueue
    obtain ⟨⟨rfl, rfl⟩, rfl⟩ := hqueue
    refine ⟨rfl, .inr ⟨rfl, ?_, rfl⟩⟩
    show p.sent = before ++ msg
    rw [hp.sent, hdone]
    rfl
  | read _ hc =>
    obtain ⟨-, callback', k, l', hpending, -⟩ := NodeConnection.step_read hc
    cases hp.pendingRead.symm.trans hpending
  | request hc =>
    rw [NodeConnection.step, request_of_ne hp.state_ne] at hc
    obtain rfl := Option.some_inj.mp hc
    exact ⟨rfl, .inl hp⟩

/-- The callback of the last message runs. -/
theorem Sending.runs (hp : p.Sending ownChallenge state l msg callback [] before) :
    Runs ownChallenge l { p.connection with writeQueue := [], writing := false } :=
  ⟨⟨⟨hp.state_ne, hp.receivedMsgs, hp.beforeTraffic⟩, hp.pendingRead, rfl, rfl⟩,
    hp.ownChallenge_eq, hp.handshakeMsgs⟩

/-- An end that has written its last message, and waits for one. -/
theorem Sending.awaiting {state' : ConnectionState} {callback' : ReadCallback}
    (hp : p.Sending ownChallenge state ⟨u, []⟩ msg callback [] before) (hne : state' ≠ .connected)
    (hc : p'.connection = (({ p.connection with
      writeQueue := [], writing := false }).triggerCheckedRead callback').changeState state')
    (hhandedOver : p'.handedOver = false) : p'.Awaiting ownChallenge state' callback' u := by
  refine ⟨?_, hhandedOver⟩
  rw [hc]
  exact hp.runs.waitsFor hne callback'

/-- An end that has waited, and writes. -/
theorem Awaiting.sending {callback' : ReadCallback} {state' : ConnectionState} {received : MsgSeq}
    {c : NodeConnection} (hp : p.Awaiting ownChallenge state' callback' u)
    (hc : c.WritesMsg ownChallenge state l msg callback queue) (hsent : p.sent = before) :
    Sending ownChallenge state l msg callback queue before
      { p with connection := c, received := received } := by
  refine ⟨hc, ?_⟩
  show p.sent = before ++ if p.handedOver then msg else []
  rw [hp.handedOver, hsent]
  simp

/-- An end that has given up sends nothing any more. -/
theorem Moves.givenUp (h : p.Moves node peerSent p') (hc : p.connection.GivenUp) :
    p'.connection.GivenUp ∧ p'.sent = p.sent := by
  cases h with
  | transmit _ hwriting => cases hc.waits.2.symm.trans hwriting
  | written _ hc' | read _ hc' | request hc' =>
    obtain ⟨-, rfl⟩ := hc.step hc'
    exact ⟨hc, rfl⟩

theorem Moves.connected (h : p.Moves node peerSent p') (hc : p.connection.Connected) :
    p'.connection.Connected := by
  cases h with
  | transmit => exact hc
  | written _ hc' | read _ hc' | request hc' => exact (hc.step hc').1

/-- **A read of an end that waits for a message**: it gets more of it, or all of it, and something
behind it. -/
theorem Awaiting.read {callback' : ReadCallback} {m bytes received : MsgSeq} {c : NodeConnection}
    (hp : p.Awaiting ownChallenge state callback' u) (hm : handshakeFraming.IsFrame m)
    (hbytes : u ++ bytes <+: m ∨ m <+: u ++ bytes)
    (hc : p.connection.step node (.read bytes) = some c) :
    u ++ bytes <+: m ∧ u ++ bytes ≠ m ∧ Awaiting ownChallenge state callback' (u ++ bytes)
        { p with connection := c, received := received } ∨
      ∃ v c₀, u ++ bytes = m ++ v ∧ Runs ownChallenge ⟨(handshakeFraming.split v).2,
        m :: (handshakeFraming.split v).1⟩ c₀ ∧
          c₀.invokeRead node callback' .handshake = some c := by
  by_cases hwhole : m <+: u ++ bytes
  · obtain ⟨v, hv⟩ := hwhole
    have hsplit := Framing.split_frame_append (s := v) hm
    rw [hv] at hsplit
    obtain ⟨c₀, hc₀, hread⟩ := hp.step_read_cons hsplit hc
    exact .inr ⟨v, c₀, hv.symm, hc₀, hread⟩
  · have hpre := hbytes.resolve_right hwhole
    have hne : u ++ bytes ≠ m := by
      intro heq
      exact hwhole (by rw [heq])
    exact .inl ⟨hpre, hne, hp.step_read_nil (hm.split_of_isPrefix hpre hne) hc, hp.handedOver⟩

/-- A read of an end that waits for a message with nothing behind it. -/
theorem Awaiting.read_all {callback' : ReadCallback} {m bytes received : MsgSeq}
    {c : NodeConnection} (hp : p.Awaiting ownChallenge state callback' u)
    (hm : handshakeFraming.IsFrame m) (hbytes : u ++ bytes <+: m)
    (hc : p.connection.step node (.read bytes) = some c) :
    u ++ bytes ≠ m ∧ Awaiting ownChallenge state callback' (u ++ bytes)
        { p with connection := c, received := received } ∨
      u ++ bytes = m ∧ ∃ c₀, Runs ownChallenge ⟨[], [m]⟩ c₀ ∧
        c₀.invokeRead node callback' .handshake = some c := by
  rcases hp.read hm (.inl hbytes) hc with ⟨-, hne, hp'⟩ | ⟨v, c₀, hv, hc₀, hread⟩
  · exact .inl ⟨hne, hp'⟩
  · obtain rfl : v = [] := by
      by_contra hmore
      exact Framing.not_append_isPrefix hmore (hv ▸ hbytes)
    rw [Framing.split_nil] at hc₀
    exact .inr ⟨hv.trans (List.append_nil m), c₀, hc₀, hread⟩

/-- An end that writes does not wait for a name. -/
theorem Sending.peerName_eq (hp : p.Sending ownChallenge state l msg callback queue before)
    (h : p.Moves node peerSent p') : p'.connection.peerName = p.connection.peerName :=
  h.peerName_eq fun k hread => by cases hp.pendingRead.symm.trans hread

end Endpoint

end TinchPp
