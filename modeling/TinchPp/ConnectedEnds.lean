import TinchPp.Endpoints
import TinchPp.Traffic
import TinchPp.WriteQueue

/-!
# The ends of a connection in use

An end of a connection that has been through its handshake. What it has been asked to send waits in
its queue until it is handed over to the network, a message at a time, and what it gets is cut into
frames, of which a read handles one at most. It waits for more all the time, and it writes as long as
there is something to write.

Nothing is lost on the way. What has been handed over and what has not are, together, what has been
asked for, apart from the answers to ticks (`InUse.work`), and the bytes that have been read are the
frames that have been handled, those that wait in the lexer, and a part of another one (`Reads`).

## Main results

* `Endpoint.InUse.request` — a request goes to the back of the queue
* `Endpoint.Reads.read` — what a read does to the stream that comes in
* `Endpoint.InUse.work` — what the network does at an end
-/

namespace TinchPp

open NodeConnection

/-! ### What an end waits for -/

namespace NodeConnection

variable {node : NodeAccess} {c c' : NodeConnection}

/-- A connection that writes the front of its queue goes on doing so, as long as no write fails. -/
theorem writesFront_of_step (hc : c.writes.WritesFront) {e : Event}
    (he : ∀ error, e ≠ .writeError error) (h : c.step node e = some c') :
    c'.writes.WritesFront := by
  rcases step_writes h with ⟨-, callback, hcompleted⟩ | ⟨error, rfl, -⟩ | ⟨calls, hcalls⟩
  · have hi : 0 < c.writes.outstanding.length := by
      rw [AsyncTcpIp.completed] at hcompleted
      split at hcompleted
      · assumption
      · cases hcompleted
    obtain ⟨msg, callback', queue, -, -, hcompleted'⟩ := hc.completed hi
    obtain ⟨-, hwrites⟩ := Prod.mk.inj (Option.some_inj.mp (hcompleted'.symm.trans hcompleted))
    rw [← hwrites]
    exact AsyncTcpIp.writesFront_asyncWriteFront queue
  · exact absurd rfl (he error)
  · rw [hcalls]
    clear hcalls h
    generalize c.writes = io at hc
    induction calls generalizing io with
    | nil => exact hc
    | cons m calls ih => exact ih _ (hc.triggerWrite m.1 m.2)

/-- A completed write leaves the read alone. -/
theorem Connected.pendingRead_of_written (hc : c.Connected) (h : c.step node .written = some c') :
    c'.pendingRead = c.pendingRead := by
  obtain ⟨-, msg, callback, queue, hqueue, rfl⟩ := step_written h
  have hignore : callback = .ignoreWriteNotification :=
    hc.ignores (msg, callback) (by simp [hqueue])
  rw [hignore]
  rfl

/-- What is in the queue is being written. -/
theorem writing_of_writesFront (hc : c.writes.WritesFront) (hqueue : c.writeQueue ≠ []) :
    c.writing = true := by
  rw [AsyncTcpIp.WritesFront, writes] at hc
  by_contra hwriting
  rw [if_neg hwriting] at hc
  cases hc' : c.writeQueue with
  | nil => exact hqueue hc'
  | cons m queue => simp [hc'] at hc

end NodeConnection

/-! ### An end in use -/

/-- What the network does at one end. -/
inductive IoEvent
  | transmit
  | written
  | read (n : ℕ)
deriving DecidableEq, Repr

def IoEvent.toEndpointEvent : IoEvent → EndpointEvent
  | .transmit => .transmit
  | .written => .written
  | .read n => .read n

namespace Endpoint

variable {node : NodeAccess} {peerSent got : MsgSeq} {p p' : Endpoint}

/-- What is still to be handed over to the network. -/
def unsent (p : Endpoint) : MsgSeq :=
  ((p.connection.writeQueue.drop (if p.handedOver then 1 else 0)).map Prod.fst).flatten

def request (p : Endpoint) (op : ControlMsg) : Endpoint :=
  { p with connection := p.connection.request op }

/-- An end of a connection that is in use. A message that is handed over is still in the queue. -/
structure InUse (p : Endpoint) : Prop where
  connected : p.connection.Connected
  reading : p.connection.pendingRead = some (.msgReceived, .connected)
  writes : p.connection.writes.WritesFront
  front : p.handedOver = true → p.connection.writeQueue ≠ []

/-- What an end has made of the bytes that it has got: frames that have been handled, frames that
wait in the lexer, and a part of another one. -/
def Reads (p : Endpoint) (got : MsgSeq) : Prop := connectedFraming.split got =
  (p.connection.handled ++ p.connection.connectedMsgs.msgs, p.connection.connectedMsgs.incomplete)

/-- What is added to the queue is added to what is to be handed over. -/
theorem InUse.unsent_append (hp : p.InUse) (p' : Endpoint) {queue : List (MsgSeq × WriteCallback)}
    (hqueue : p'.connection.writeQueue = p.connection.writeQueue ++ queue)
    (hsame : p'.handedOver = p.handedOver) :
    p'.unsent = p.unsent ++ (queue.map Prod.fst).flatten := by
  have hle : (if p.handedOver then 1 else 0) ≤ p.connection.writeQueue.length := by
    cases hdone : p.handedOver with
    | false => exact Nat.zero_le _
    | true => exact List.length_pos_of_ne_nil (hp.front hdone)
  rw [unsent, unsent, hqueue, hsame, List.drop_append_of_le_length hle, List.map_append,
    List.flatten_append]

theorem InUse.request (hp : p.InUse) (op : ControlMsg) : (p.request op).InUse ∧
    (p.request op).connection.handled = p.connection.handled ∧
      (p.request op).connection.connectedMsgs = p.connection.connectedMsgs ∧
        (p.request op).unsent = p.unsent ++ op.frame := by
  have hrequest : p.connection.request op =
      p.connection.triggerCheckedWrite op.frame .ignoreWriteNotification := by
    rw [NodeConnection.request, hp.connected.state]
  have hconnection : (p.request op).connection =
      p.connection.triggerCheckedWrite op.frame .ignoreWriteNotification := hrequest
  have hqueue : (p.request op).connection.writeQueue =
      p.connection.writeQueue ++ [(op.frame, .ignoreWriteNotification)] := by
    rw [hconnection]
    rfl
  refine ⟨⟨?_, by rw [hconnection]; exact hp.reading, ?_, fun _ => by simp [hqueue]⟩,
    by rw [hconnection]; rfl, by rw [hconnection]; rfl, ?_⟩
  · rw [hconnection]
    refine ⟨hp.connected.state, hp.connected.receivedMsgs, ?_, hp.connected.pendingRead⟩
    rw [← hconnection, hqueue]
    intro m hm
    rcases List.mem_append.mp hm with hm | hm
    · exact hp.connected.ignores m hm
    · rw [List.mem_singleton.mp hm]
  · rw [hconnection, triggerCheckedWrite, writes_triggerWrite]
    exact hp.writes.triggerWrite _ _
  · rw [hp.unsent_append _ hqueue rfl]
    simp

/-- **A read** handles one message at most, and loses nothing. -/
theorem Reads.read (hp : p.Reads got) (hc : p.connection.Connected) {bytes : MsgSeq}
    (hfit : FieldsFit (got ++ bytes))
    (hstep : p.connection.step node (.read bytes) = some p'.connection) :
    p'.Reads (got ++ bytes) := by
  obtain ⟨-, l, hadd, -, -, hmsgs, hhandled⟩ := hc.step_read hstep
  rw [Reads] at hp
  have htail : (connectedFraming.split got).2 = p.connection.connectedMsgs.incomplete := by rw [hp]
  have hfit' : FieldsFit (p.connection.connectedMsgs.incomplete ++ bytes) := by
    rw [← htail]
    exact Framing.AtBoundaries.tail_append hfit
  rw [MsgLexer.add_eq fun _ => hfit', framing] at hadd
  obtain rfl := Option.some_inj.mp hadd
  rw [Reads, Framing.split_append, htail, hp, hmsgs, hhandled, Prod.mk.injEq]
  refine ⟨?_, rfl⟩
  dsimp only
  rw [List.append_assoc, List.append_assoc]
  congr 1
  generalize p.connection.connectedMsgs.msgs ++ _ = msgs
  cases msgs <;> rfl

/-- **What the network does** at an end of a connection that is in use. -/
theorem InUse.work (hp : p.InUse) (hpeer : p.received <+: peerSent) {e : IoEvent}
    (h : p.step node peerSent e.toEndpointEvent = some p') :
    p'.InUse ∧ p.sent <+: p'.sent ∧ p'.received <+: peerSent ∧ ∃ bytes new,
      p'.received = p.received ++ bytes ∧ p'.connection.handled = p.connection.handled ++ new ∧
        new.length ≤ 1 ∧ new.length ≤ bytes.length ∧
        p'.sent ++ p'.unsent = p.sent ++ p.unsent ++ (new.filter isTick).flatten ∧
          ∀ got, p.Reads got → FieldsFit (got ++ bytes) → p'.Reads (got ++ bytes) := by
  cases e with
  | transmit =>
    rw [IoEvent.toEndpointEvent, step] at h
    split at h
    · next msg callback queue hwriting hnew hqueue =>
      obtain rfl := Option.some_inj.mp h
      refine ⟨⟨hp.connected, hp.reading, hp.writes, fun _ => by simp [hqueue]⟩,
        List.prefix_append _ _, hpeer, [], [],
        (List.append_nil _).symm, (List.append_nil _).symm, Nat.zero_le 1, Nat.le_refl 0, ?_, ?_⟩
      · simp [unsent, hnew, hqueue]
      · intro got hgot _
        rw [List.append_nil]
        exact hgot
    · cases h
  | written =>
    rw [IoEvent.toEndpointEvent, step] at h
    split at h
    · next hdone =>
      obtain ⟨c, hc, rfl⟩ := Option.map_eq_some_iff.mp h
      obtain ⟨hc', hmsgs, hhandled, -⟩ := hp.connected.step_of_ne_read (by rintro _ ⟨⟩) hc
      obtain ⟨msg, hqueue⟩ := hp.connected.writeQueue_of_written hc
      refine ⟨⟨hc', (hp.connected.pendingRead_of_written hc).trans hp.reading,
        writesFront_of_step hp.writes (by rintro _ ⟨⟩) hc, by rintro ⟨⟩⟩, List.prefix_rfl, hpeer,
        [], [], (List.append_nil _).symm,
        by rw [hhandled, List.append_nil], Nat.zero_le 1, Nat.le_refl 0, ?_, ?_⟩
      · simp [unsent, hdone, hqueue]
      · intro got hgot _
        rw [List.append_nil, Reads, hmsgs, hhandled]
        exact hgot
    · cases h
  | read n =>
    obtain ⟨c, hc, rfl⟩ := Option.map_eq_some_iff.mp h
    obtain ⟨-, l, -, hc', hreading, -, hhandled⟩ := hp.connected.step_read hc
    obtain ⟨new, hnew, hqueue⟩ := hp.connected.writeQueue_of_read hc
    obtain rfl : new = l.msgs.head?.toList := List.append_cancel_left (hnew.symm.trans hhandled)
    refine ⟨⟨hc', hreading, writesFront_of_step hp.writes (by rintro _ ⟨⟩) hc,
      fun hdone hnil => ?_⟩,
      List.prefix_rfl, ?_, _, _, rfl, hnew,
      Option.length_toList_le, Option.length_toList_le.trans ?_, ?_,
      fun got hgot hfit => hgot.read hp.connected hfit hc⟩
    · have hempty : c.writeQueue = [] := hnil
      rw [hqueue] at hempty
      exact hp.front hdone (List.append_eq_nil_iff.mp hempty).1
    · obtain ⟨rest, rfl⟩ := hpeer
      show p.received ++ _ <+: _
      rw [incoming, List.drop_left, List.prefix_append_right_inj]
      exact List.take_prefix n rest
    · exact List.length_pos_of_ne_nil (NodeConnection.step_read hc).1
    · rw [hp.unsent_append { p with
        connection := c, received := p.received ++ _ } hqueue rfl, TrafficRun.map_fst_answers]
      exact (List.append_assoc _ _ _).symm

end Endpoint

end TinchPp
