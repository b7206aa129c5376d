import TinchPp.Lib.EventSystem
import TinchPp.NodeConnection

/-!
# The phases of a connection

What every step of a connection keeps. In a handshake the connection does one thing at a time: it
waits for the read of its state, or for the writes of its state, or, after a failure, for nothing
at all (`Handshaking`). Once connected it stays so, and waits for messages on the connected lexer
while it writes whatever it is asked to (`Connected`).

## Main results

* `step_read`, `step_readError`, `step_written`, `step_writeError` — what an event does, once
* `nameRead_eq_some`, `statusRead_eq_some`, … — what a callback does with its message, once
* `Handshaking.step` — a handshake goes on, or ends with nothing received yet
* `Connected.step_read`, `Connected.step_of_ne_read` — what happens on a connection
-/

namespace TinchPp

namespace NodeConnection

variable {node : NodeAccess} {c c' : NodeConnection}

/-! ### What an event does -/

theorem step_read {bytes : MsgSeq} (h : c.step node (.read bytes) = some c') :
    bytes ≠ [] ∧ ∃ callback k l, c.pendingRead = some (callback, k) ∧
      (c.lexer k).add k bytes = some l ∧ (l.msgs = [] ∧ c' = c.setLexer k l ∨
        l.msgs ≠ [] ∧
          ({ c with pendingRead := none }.setLexer k l).invokeRead node callback k = some c') := by
  rw [step] at h
  split at h
  · next hlen =>
    refine ⟨List.ne_nil_of_length_pos hlen.1, ?_⟩
    rw [checkedRead] at h
    split at h
    · cases h
    · next callback k hpending =>
      split at h
      · cases h
      · next l hadd =>
        refine ⟨callback, k, l, hpending, hadd, ?_⟩
        dsimp only at h
        split at h
        · next hmsg => exact .inr ⟨by simpa [MsgLexer.hasCompleteMsg] using hmsg, h⟩
        · next hmsg =>
          refine .inl ⟨by simpa [MsgLexer.hasCompleteMsg] using hmsg, ?_⟩
          rw [← Option.some_inj.mp h]
          -- the same read is outstanding again
          cases c
          cases k <;> simp only [setLexer, triggerRead] at hpending ⊢ <;> rw [hpending]
  · cases h

theorem step_readError {error : Str} (h : c.step node (.readError error) = some c') :
    c.pendingRead ≠ none ∧ c' = { c with pendingRead := none }.handleIoError node error := by
  rw [step, checkedReadError] at h
  split at h
  · cases h
  · next hpending => exact ⟨by simp [hpending], (Option.some_inj.mp h).symm⟩

theorem step_written (h : c.step node .written = some c') : c.writing = true ∧
    ∃ msg callback queue, c.writeQueue = (msg, callback) :: queue ∧
      c' = { c with writeQueue := queue, writing := !queue.isEmpty }.invokeWritten callback := by
  rw [step, checkedWrite] at h
  split at h
  · next hwriting hqueue => exact ⟨hwriting, _, _, _, hqueue, (Option.some_inj.mp h).symm⟩
  · cases h

theorem step_writeError {error : Str} (h : c.step node (.writeError error) = some c') :
    c.writing = true ∧ c' = { c with writing := false }.handleIoError node error := by
  rw [step, checkedWriteError] at h
  split at h
  · next hwriting => exact ⟨hwriting, (Option.some_inj.mp h).symm⟩
  · cases h

theorem handleIoError_of_ne (hstate : c.state ≠ .connected) (error : Str) :
    c.handleIoError node error = c.reportFailure error := by
  rw [handleIoError]
  split
  · next h => exact absurd h hstate
  · rfl

theorem request_of_ne (hstate : c.state ≠ .connected) (op : ControlMsg) : c.request op = c := by
  rw [request]
  split
  · next h => exact absurd h hstate
  · rfl

theorem nextMessage_handshake {msg : MsgSeq} (h : c.nextMessage .handshake = some (msg, c')) :
    ∃ l, c' = { c with handshakeMsgs := l } := by
  rw [nextMessage] at h
  split at h
  · exact ⟨_, (congrArg Prod.snd (Option.some_inj.mp h)).symm⟩
  · cases h

/-! ### What a callback does with its message -/

section

variable {k : LexerKind}

theorem nameRead_eq_some (h : c.nameRead node k = some c') :
    ∃ msg c₁, c.nextMessage k = some (msg, c₁) ∧ (c' = c₁.raise parseFailure ∨
      (∃ name, c' = ((c₁.gotPeerName name).sendStatusAndChallenge node).changeState
        .sendingStatus) ∨ ∃ reason, c' = c₁.reportFailure reason) := by
  rw [nameRead] at h
  split at h
  · cases h
  · next msg c₁ hnext =>
    refine ⟨msg, c₁, hnext, ?_⟩
    split at h
    · exact .inl (Option.some_inj.mp h).symm
    · next sentName _ =>
      split at h
      · exact .inr (.inl ⟨sentName.name, (Option.some_inj.mp h).symm⟩)
      · exact .inr (.inr ⟨_, (Option.some_inj.mp h).symm⟩)

theorem challengeRead_eq_some {held : Bool} (h : c.challengeRead node held k = some c') :
    ∃ msg c₁, c.nextMessage k = some (msg, c₁) ∧ (c' = c₁.raise parseFailure ∨
      ∃ challenge, c' = (c₁.changeState .sendingChallengeReply).sendReply node challenge) := by
  rw [challengeRead] at h
  split at h
  · cases h
  · next msg c₁ hnext =>
    refine ⟨msg, c₁, hnext, ?_⟩
    split at h
    · exact .inl (Option.some_inj.mp h).symm
    · split at h
      · exact .inr ⟨_, (Option.some_inj.mp h).symm⟩
      · cases h

/-- A challenge is only answered if the state is held. -/
theorem held_of_challengeRead {held : Bool} {msg : MsgSeq} {c₁ : NodeConnection}
    {attributes : ChallengeAttributes} (hnext : c.nextMessage k = some (msg, c₁))
    (hparse : parse msg recvChallenge ChallengeAttributes.init = some attributes)
    (h : c.challengeRead node held k = some c') : held = true ∧
      c' = (c₁.changeState .sendingChallengeReply).sendReply node attributes.challenge := by
  rw [challengeRead, hnext] at h
  dsimp only at h
  rw [hparse] at h
  obtain ⟨hheld, hsome⟩ := Option.ite_none_right_eq_some.mp h
  exact ⟨hheld, (Option.some_inj.mp hsome).symm⟩

/-- If the challenge has come with the status, it is read at once. -/
theorem statusRead_eq_some (h : c.statusRead node k = some c') :
    ∃ msg c₁, c.nextMessage k = some (msg, c₁) ∧ (c' = c₁.raise parseFailure ∨
      (∃ reason, c' = c₁.reportFailure reason) ∨
      c' = (c₁.changeState .receivingChallenge).triggerCheckedRead .challengeRead ∨
      (c₁.changeState .receivingChallenge).challengeRead node true k = some c') := by
  rw [statusRead] at h
  split at h
  · cases h
  · next msg c₁ hnext =>
    refine ⟨msg, c₁, hnext, ?_⟩
    split at h
    · exact .inl (Option.some_inj.mp h).symm
    · rw [dispatchStatus] at h
      split at h
      · rw [receiveChallenge] at h
        split at h
        · exact .inr (.inr (.inr h))
        · exact .inr (.inr (.inl (Option.some_inj.mp h).symm))
      · exact .inr (.inl ⟨_, (Option.some_inj.mp h).symm⟩)

theorem replyReceived_eq_some (h : c.replyReceived node k = some c') :
    ∃ msg c₁, c.nextMessage k = some (msg, c₁) ∧ (c' = c₁.raise parseFailure ∨
      (∃ challenge, c' = (c₁.changeState .sendingChallengeAck).sendAck node challenge) ∨
      ∃ reason, c' = c₁.reportFailure reason) := by
  rw [replyReceived] at h
  split at h
  · cases h
  · next msg c₁ hnext =>
    refine ⟨msg, c₁, hnext, ?_⟩
    split at h
    · exact .inl (Option.some_inj.mp h).symm
    · split at h
      · exact .inr (.inl ⟨_, (Option.some_inj.mp h).symm⟩)
      · exact .inr (.inr ⟨_, (Option.some_inj.mp h).symm⟩)

theorem challengeAckRead_eq_some (h : c.challengeAckRead node k = some c') :
    ∃ msg c₁, c.nextMessage k = some (msg, c₁) ∧
      ((∃ e, c' = c₁.raise e) ∨ c' = c₁.makeTransitionToConnected) := by
  rw [challengeAckRead] at h
  split at h
  · cases h
  · next msg c₁ hnext =>
    refine ⟨msg, c₁, hnext, ?_⟩
    split at h
    · exact .inl ⟨_, (Option.some_inj.mp h).symm⟩
    · split at h
      · exact .inr (Option.some_inj.mp h).symm
      · exact .inl ⟨_, (Option.some_inj.mp h).symm⟩

/-- The message is handled, a tick is answered with a tock, and the next read is triggered. -/
theorem msgReceived_eq_triggerCheckedRead (h : c.msgReceived k = some c') :
    ∃ msg c₁ c₂, c.nextMessage k = some (msg, c₁) ∧ c' = c₂.triggerCheckedRead .msgReceived ∧
      (c₂ = { c₁ with handled := c₁.handled ++ [msg] }.sendTock ∨
      ∃ calls, c₂ = { c₁ with handled := c₁.handled ++ [msg], calls := c₁.calls ++ calls }) := by
  rw [msgReceived] at h
  split at h
  · cases h
  · next msg c₁ hnext =>
    dsimp only at h
    split at h
    · exact ⟨msg, c₁, _, hnext, (Option.some_inj.mp h).symm, .inl rfl⟩
    · split at h
      · cases h
      all_goals exact ⟨msg, c₁, _, hnext, (Option.some_inj.mp h).symm, .inr ⟨_, rfl⟩⟩

/-! ### When a callback is undefined -/

variable {msg : MsgSeq} {rest : List MsgSeq}

theorem nextMessage_of_msgs (hmsgs : c.handshakeMsgs.msgs = msg :: rest) :
    c.nextMessage .handshake =
      some (msg, { c with handshakeMsgs := ⟨c.handshakeMsgs.incomplete, rest⟩ }) := by
  simp [nextMessage, lexer, MsgLexer.nextMessage, hmsgs, setLexer]

theorem challengeRead_eq_none_iff {held : Bool} (hmsgs : c.handshakeMsgs.msgs = msg :: rest) :
    c.challengeRead node held .handshake = none ↔
      held = false ∧ parse msg recvChallenge ChallengeAttributes.init ≠ none := by
  rw [challengeRead, nextMessage_of_msgs hmsgs]
  dsimp only
  cases parse msg recvChallenge ChallengeAttributes.init with
  | none => simp
  | some attributes => cases held <;> simp

/-- **With a message to read, the callbacks of a handshake come back**, unless it is a challenge that
is read by itself. -/
theorem invokeRead_eq_none_iff {callback : ReadCallback} (hcallback : callback ≠ .msgReceived)
    (hmsgs : c.handshakeMsgs.msgs = msg :: rest) :
    c.invokeRead node callback .handshake = none ↔ callback = .challengeRead ∧
      parse msg recvChallenge ChallengeAttributes.init ≠ none := by
  cases callback with
  | nameRead =>
    refine iff_of_false ?_ (by rintro ⟨⟨⟩, -⟩)
    rw [invokeRead, nameRead, nextMessage_of_msgs hmsgs]
    dsimp only
    split
    · rintro ⟨⟩
    · split <;> rintro ⟨⟩
  | statusRead =>
    refine iff_of_false ?_ (by rintro ⟨⟨⟩, -⟩)
    rw [invokeRead, statusRead, nextMessage_of_msgs hmsgs]
    dsimp only
    split
    · rintro ⟨⟩
    · rw [dispatchStatus]
      split
      · rw [receiveChallenge]
        split
        · next hcomplete =>
          -- the state is held
          have hmore : rest ≠ [] := by
            simpa [MsgLexer.hasCompleteMsg, lexer, changeState] using hcomplete
          obtain ⟨challenge, rest', rfl⟩ := List.exists_cons_of_ne_nil hmore
          intro hnone
          cases ((challengeRead_eq_none_iff rfl).mp hnone).1
        · rintro ⟨⟩
      · rintro ⟨⟩
  | challengeRead =>
    rw [invokeRead, challengeRead_eq_none_iff hmsgs]
    simp
  | replyReceived =>
    refine iff_of_false ?_ (by rintro ⟨⟨⟩, -⟩)
    rw [invokeRead, replyReceived, nextMessage_of_msgs hmsgs]
    dsimp only
    split
    · rintro ⟨⟩
    · split <;> rintro ⟨⟩
  | challengeAckRead =>
    refine iff_of_false ?_ (by rintro ⟨⟨⟩, -⟩)
    rw [invokeRead, challengeAckRead, nextMessage_of_msgs hmsgs]
    dsimp only
    split
    · rintro ⟨⟩
    · split <;> rintro ⟨⟩
  | msgReceived => exact absurd rfl hcallback

/-- Only reads can be undefined. -/
theorem Undefined.exists_read {e : Event} (h : c.Undefined node e) : ∃ bytes, e = .read bytes := by
  obtain ⟨hpossible, hnone⟩ := h
  cases e with
  | read bytes => exact ⟨bytes, rfl⟩
  | readError error =>
    rw [step, checkedReadError] at hnone
    split at hnone
    · next hpending => exact absurd hpending hpossible
    · cases hnone
  | written =>
    obtain ⟨⟨msg, callback⟩, queue, hqueue⟩ := List.exists_cons_of_ne_nil hpossible.2
    rw [step, checkedWrite, hpossible.1, hqueue] at hnone
    cases hnone
  | writeError error =>
    have hwriting : c.writing = true := hpossible
    rw [step, checkedWriteError, if_pos hwriting] at hnone
    cases hnone
  | request op => cases hnone

end

/-! ### A handshake -/

/-- The read callback of each state of a handshake. -/
def readsIn : ConnectionState → Option ReadCallback
  | .connectedTcp => some .nameRead
  | .waitingForStatus => some .statusRead
  | .receivingChallenge => some .challengeRead
  | .waitingForChallengeReply => some .replyReceived
  | .receivingChallengeAck => some .challengeAckRead
  | _ => none

/-- What the write queue may look like in each state of a handshake. -/
def writesIn : ConnectionState → List (List WriteCallback)
  | .connectedTcp => [[.handshakeSent]]
  | .sendingStatus => [[.ignoreWriteNotification, .challengeWritten], [.challengeWritten]]
  | .sendingChallengeReply => [[.replySent]]
  | .sendingChallengeAck => [[.challengeAckWritten]]
  | _ => []

/-- Nothing has been received on the connected lexer. -/
def BeforeTraffic (c : NodeConnection) : Prop := c.connectedMsgs = .empty ∧ c.handled = []

/-- A handshake, whatever it waits for. -/
structure InHandshake (c : NodeConnection) : Prop where
  state_ne : c.state ≠ .connected
  receivedMsgs : c.receivedMsgs = .handshake
  beforeTraffic : c.BeforeTraffic

def WaitsForNothing (c : NodeConnection) : Prop := c.pendingRead = none ∧ c.writing = false

def WaitsForRead (c : NodeConnection) : Prop :=
  ∃ callback, readsIn c.state = some callback ∧ c.pendingRead = some (callback, .handshake) ∧
    c.writeQueue = [] ∧ c.writing = false

def WaitsForWrite (c : NodeConnection) : Prop :=
  c.pendingRead = none ∧ c.writing = true ∧ c.writeQueue.map Prod.snd ∈ writesIn c.state

/-- A handshake that has failed, and waits for nothing any more. -/
structure GivenUp (c : NodeConnection) : Prop extends InHandshake c where
  waits : c.WaitsForNothing

/-- A handshake between two callbacks. -/
structure Handshaking (c : NodeConnection) : Prop extends InHandshake c where
  waits : c.WaitsForNothing ∨ c.WaitsForRead ∨ c.WaitsForWrite

/-- A handshake while a callback runs: the operation that called it is over. -/
structure Running (c : NodeConnection) : Prop extends InHandshake c where
  pendingRead : c.pendingRead = none
  writeQueue : c.writeQueue = []
  writing : c.writing = false

/-- A connection after its handshake. -/
structure Connected (c : NodeConnection) : Prop where
  state : c.state = .connected
  receivedMsgs : c.receivedMsgs = .connected
  ignores : ∀ m ∈ c.writeQueue, m.2 = .ignoreWriteNotification
  pendingRead : c.pendingRead = none ∨ c.pendingRead = some (.msgReceived, .connected)

/-- No outcome has been reported in between, and no call has been made. -/
structure SameReports (c c' : NodeConnection) : Prop where
  handshakeSuccess : c'.handshakeSuccess = c.handshakeSuccess
  calls : c'.calls = c.calls

/-- The handshake has failed, and that has been reported. -/
structure Fails (c c' : NodeConnection) : Prop where
  givenUp : c'.GivenUp
  handshakeSuccess : c'.handshakeSuccess = c.handshakeSuccess ++ [false]
  calls : c'.calls = c.calls

theorem GivenUp.handshaking (hc : c.GivenUp) : c.Handshaking := ⟨hc.toInHandshake, .inl hc.waits⟩

theorem handshaking_startHandshakeAsA (ownChallenge : UInt32) (peerName : Str) :
    (startHandshakeAsA node ownChallenge peerName).Handshaking where
  state_ne := by rintro ⟨⟩
  receivedMsgs := rfl
  beforeTraffic := ⟨rfl, rfl⟩
  waits := .inr (.inr ⟨rfl, rfl, by simp [startHandshakeAsA, create, triggerCheckedWrite,
    triggerWrite, writesIn]⟩)

theorem handshaking_startHandshakeAsB (ownChallenge : UInt32) :
    (startHandshakeAsB ownChallenge).Handshaking where
  state_ne := by rintro ⟨⟩
  receivedMsgs := rfl
  beforeTraffic := ⟨rfl, rfl⟩
  waits := .inr (.inl ⟨.nameRead, rfl, rfl, rfl, rfl⟩)

theorem handshaking_startHandshake (ownChallenge : UInt32) (role : Role) :
    (startHandshake node ownChallenge role).Handshaking := by
  cases role with
  | originator peerName => exact handshaking_startHandshakeAsA ownChallenge peerName
  | acceptor => exact handshaking_startHandshakeAsB ownChallenge

namespace Running

variable (hc : c.Running)

include hc

theorem nextMessage {msg : MsgSeq} (h : c.nextMessage .handshake = some (msg, c')) :
    c'.Running := by
  obtain ⟨l, rfl⟩ := nextMessage_handshake h
  exact ⟨⟨hc.state_ne, hc.receivedMsgs, hc.beforeTraffic⟩, hc.pendingRead, hc.writeQueue,
    hc.writing⟩

theorem raise (e : Raised) : (c.raise e).GivenUp :=
  ⟨⟨hc.state_ne, hc.receivedMsgs, hc.beforeTraffic⟩, hc.pendingRead, hc.writing⟩

theorem reportFailure (reason : Str) : Fails c (c.reportFailure reason) :=
  ⟨⟨⟨by rintro ⟨⟩, hc.receivedMsgs, hc.beforeTraffic⟩, hc.pendingRead, hc.writing⟩, rfl, rfl⟩

/-- A transition to a state that triggers its read. -/
theorem read (state : ConnectionState) {callback : ReadCallback}
    (hread : readsIn state = some callback) :
    ((c.triggerCheckedRead callback).changeState state).Handshaking := by
  have hpending : (c.triggerCheckedRead callback).pendingRead = some (callback, .handshake) := by
    simp [triggerCheckedRead, triggerRead, hc.receivedMsgs]
  refine ⟨⟨?_, hc.receivedMsgs, hc.beforeTraffic⟩,
    .inr (.inl ⟨callback, hread, hpending, hc.writeQueue, hc.writing⟩)⟩
  rintro rfl
  cases hread

/-- A transition to a state that writes. -/
theorem write (state : ConnectionState) {callback : WriteCallback}
    (hwrite : [callback] ∈ writesIn state) (msg : MsgSeq) :
    ((c.changeState state).triggerCheckedWrite msg callback).Handshaking := by
  refine ⟨⟨?_, hc.receivedMsgs, hc.beforeTraffic⟩, .inr (.inr ⟨hc.pendingRead, ?_, ?_⟩)⟩
  · rintro rfl
    cases hwrite
  · simp [triggerCheckedWrite, triggerWrite, changeState, hc.writeQueue]
  · simpa [triggerCheckedWrite, triggerWrite, changeState, hc.writeQueue] using hwrite

theorem makeTransitionToConnected :
    c.makeTransitionToConnected.Connected ∧ c.makeTransitionToConnected.BeforeTraffic := by
  refine ⟨⟨rfl, rfl, ?_, .inr rfl⟩, hc.beforeTraffic⟩
  intro m hm
  have hempty : m ∈ c.writeQueue := hm
  rw [hc.writeQueue] at hempty
  cases hempty

/-! The callbacks, in the order of the handshake. -/

theorem nameRead (h : c.nameRead node .handshake = some c') : c'.Handshaking := by
  obtain ⟨msg, c₁, hnext, rfl | ⟨name, rfl⟩ | ⟨reason, rfl⟩⟩ := nameRead_eq_some h
  · exact ((hc.nextMessage hnext).raise _).handshaking
  · have hc₁ := hc.nextMessage hnext
    refine ⟨⟨by rintro ⟨⟩, hc₁.receivedMsgs, hc₁.beforeTraffic⟩,
      .inr (.inr ⟨hc₁.pendingRead, ?_, ?_⟩)⟩ <;>
      simp [changeState, sendStatusAndChallenge, triggerCheckedWrite, triggerWrite,
        gotPeerName, hc₁.writeQueue, writesIn]
  · exact ((hc.nextMessage hnext).reportFailure _).givenUp.handshaking

theorem challengeRead {held : Bool} (h : c.challengeRead node held .handshake = some c') :
    c'.Handshaking := by
  obtain ⟨msg, c₁, hnext, rfl | ⟨challenge, rfl⟩⟩ := challengeRead_eq_some h
  · exact ((hc.nextMessage hnext).raise _).handshaking
  · exact (hc.nextMessage hnext).write .sendingChallengeReply (by decide) _

theorem statusRead (h : c.statusRead node .handshake = some c') : c'.Handshaking := by
  obtain ⟨msg, c₁, hnext, rfl | ⟨reason, rfl⟩ | rfl | hread⟩ := statusRead_eq_some h
  · exact ((hc.nextMessage hnext).raise _).handshaking
  · exact ((hc.nextMessage hnext).reportFailure _).givenUp.handshaking
  · exact (hc.nextMessage hnext).read .receivingChallenge rfl
  · have hc₁ := hc.nextMessage hnext
    have hmoved : (c₁.changeState .receivingChallenge).Running :=
      ⟨⟨by rintro ⟨⟩, hc₁.receivedMsgs, hc₁.beforeTraffic⟩, hc₁.pendingRead, hc₁.writeQueue,
        hc₁.writing⟩
    exact hmoved.challengeRead hread

theorem replyReceived (h : c.replyReceived node .handshake = some c') : c'.Handshaking := by
  obtain ⟨msg, c₁, hnext, rfl | ⟨challenge, rfl⟩ | ⟨reason, rfl⟩⟩ := replyReceived_eq_some h
  · exact ((hc.nextMessage hnext).raise _).handshaking
  · exact (hc.nextMessage hnext).write .sendingChallengeAck (by decide) _
  · exact ((hc.nextMessage hnext).reportFailure _).givenUp.handshaking

theorem challengeAckRead (h : c.challengeAckRead node .handshake = some c') :
    c'.GivenUp ∨ c'.Connected ∧ c'.BeforeTraffic := by
  obtain ⟨msg, c₁, hnext, ⟨e, rfl⟩ | rfl⟩ := challengeAckRead_eq_some h
  · exact .inl ((hc.nextMessage hnext).raise _)
  · exact .inr (hc.nextMessage hnext).makeTransitionToConnected

/-- The callback of the state's read. -/
theorem invokeRead {callback : ReadCallback} (hread : readsIn c.state = some callback)
    (h : c.invokeRead node callback .handshake = some c') :
    c'.Handshaking ∨ c'.Connected ∧ c'.BeforeTraffic := by
  cases callback with
  | nameRead => exact .inl (hc.nameRead h)
  | statusRead => exact .inl (hc.statusRead h)
  | challengeRead => exact .inl (hc.challengeRead h)
  | replyReceived => exact .inl (hc.replyReceived h)
  | challengeAckRead => exact (hc.challengeAckRead h).imp_left GivenUp.handshaking
  | msgReceived => cases hstate : c.state <;> simp [readsIn, hstate] at hread

/-- The callback of the last write of a state. -/
theorem invokeWritten {callback : WriteCallback} (hwrite : [callback] ∈ writesIn c.state) :
    (c.invokeWritten callback).Handshaking ∨
      (c.invokeWritten callback).Connected ∧ (c.invokeWritten callback).BeforeTraffic := by
  cases callback with
  | handshakeSent => exact .inl (hc.read .waitingForStatus rfl)
  | challengeWritten => exact .inl (hc.read .waitingForChallengeReply rfl)
  | replySent => exact .inl (hc.read .receivingChallengeAck rfl)
  | challengeAckWritten => exact .inr hc.makeTransitionToConnected
  | ignoreWriteNotification => cases hstate : c.state <;> simp [writesIn, hstate] at hwrite

end Running

/-- An I/O error ends a handshake. -/
theorem InHandshake.handleIoError (hc : c.InHandshake) (hwaits : c.WaitsForNothing)
    (error : Str) : Fails c (c.handleIoError node error) := by
  rw [handleIoError_of_ne hc.state_ne]
  exact ⟨⟨⟨by rintro ⟨⟩, hc.receivedMsgs, hc.beforeTraffic⟩, hwaits⟩, rfl, rfl⟩

/-- A handshake that waits for no read writes a message or fails, or nothing happens. -/
theorem InHandshake.step_of_no_read (hc : c.InHandshake) (hpending : c.pendingRead = none)
    {e : Event} (h : c.step node e = some c') :
    (∀ bytes, e ≠ .read bytes) ∧ (e = .written ∨ c' = c ∨ Fails c c') := by
  cases e with
  | read bytes =>
    obtain ⟨-, callback, k, l, hpending', -⟩ := step_read h
    cases hpending.symm.trans hpending'
  | readError error => exact absurd hpending (step_readError h).1
  | written => exact ⟨by rintro _ ⟨⟩, .inl rfl⟩
  | writeError error =>
    obtain ⟨-, rfl⟩ := step_writeError h
    have hd : { c with writing := false }.InHandshake :=
      ⟨hc.state_ne, hc.receivedMsgs, hc.beforeTraffic⟩
    have hfails : Fails _ ({ c with writing := false }.handleIoError node error) :=
      hd.handleIoError ⟨hpending, rfl⟩ error
    exact ⟨by rintro _ ⟨⟩, .inr (.inr ⟨hfails.givenUp, hfails.handshakeSuccess, hfails.calls⟩)⟩
  | request op =>
    rw [NodeConnection.step, request_of_ne hc.state_ne] at h
    exact ⟨by rintro _ ⟨⟩, .inr (.inl (Option.some_inj.mp h).symm)⟩

/-- Nothing happens after that, except requests, which have no effect. -/
theorem GivenUp.step (hc : c.GivenUp) {e : Event} (h : c.step node e = some c') :
    (∀ bytes, e ≠ .read bytes) ∧ c' = c := by
  cases e with
  | read bytes =>
    obtain ⟨-, callback, k, l, hpending, -⟩ := step_read h
    cases hc.waits.1.symm.trans hpending
  | readError error => exact absurd hc.waits.1 (step_readError h).1
  | written => cases hc.waits.2.symm.trans (step_written h).1
  | writeError error => cases hc.waits.2.symm.trans (step_writeError h).1
  | request op =>
    rw [NodeConnection.step, request_of_ne hc.state_ne] at h
    exact ⟨by rintro _ ⟨⟩, (Option.some_inj.mp h).symm⟩

namespace Handshaking

/-- The two writes of `sending_status`, and the writes that are alone. -/
theorem written (hc : c.Handshaking) {msg : MsgSeq} {callback : WriteCallback}
    {queue : List (MsgSeq × WriteCallback)} (hwrites : c.WaitsForWrite)
    (hqueue : c.writeQueue = (msg, callback) :: queue) :
    ({ c with writeQueue := queue, writing := !queue.isEmpty }.invokeWritten callback).Handshaking ∨
      ({ c with writeQueue := queue, writing := !queue.isEmpty }.invokeWritten callback).Connected ∧
      ({ c with writeQueue := queue, writing := !queue.isEmpty }.invokeWritten
        callback).BeforeTraffic := by
  obtain ⟨hpending, -, hwrite⟩ := hwrites
  rw [hqueue, List.map_cons] at hwrite
  cases queue with
  | nil =>
    have hrunning : { c with writeQueue := [], writing := false }.Running :=
      ⟨⟨hc.state_ne, hc.receivedMsgs, hc.beforeTraffic⟩, hpending, rfl, rfl⟩
    exact hrunning.invokeWritten hwrite
  | cons m queue =>
    -- only the status has another message behind it
    have hmem : callback = .ignoreWriteNotification ∧ c.state = .sendingStatus ∧
        (m :: queue).map Prod.snd = [.challengeWritten] := by
      cases hstate : c.state <;> simp [writesIn, hstate] at hwrite
      exact ⟨hwrite.1, rfl, by simpa using hwrite.2⟩
    obtain ⟨rfl, hstate, hrest⟩ := hmem
    refine .inl ⟨⟨hc.state_ne, hc.receivedMsgs, hc.beforeTraffic⟩, .inr (.inr ⟨hpending, rfl, ?_⟩)⟩
    show (m :: queue).map Prod.snd ∈ writesIn c.state
    rw [hrest, hstate]
    decide

/-- **A handshake goes on, or ends with nothing received yet.** -/
theorem step (hc : c.Handshaking) {e : Event} (h : c.step node e = some c') :
    c'.Handshaking ∨ c'.Connected ∧ c'.BeforeTraffic := by
  cases e with
  | read bytes =>
    obtain ⟨-, callback, k, l, hpending, -, hread⟩ := step_read h
    rcases hc.waits with hw | ⟨callback', hin, hw, hqueue, hwriting⟩ | hw
    · cases hw.1.symm.trans hpending
    · obtain ⟨rfl, rfl⟩ : callback' = callback ∧ .handshake = k :=
        Prod.mk.inj (Option.some_inj.mp (hw.symm.trans hpending))
      rcases hread with ⟨-, rfl⟩ | ⟨-, hread⟩
      · exact .inl ⟨⟨hc.state_ne, hc.receivedMsgs, hc.beforeTraffic⟩,
          .inr (.inl ⟨callback', hin, hw, hqueue, hwriting⟩)⟩
      · have hrunning : ({ c with pendingRead := none }.setLexer .handshake l).Running :=
          ⟨⟨hc.state_ne, hc.receivedMsgs, hc.beforeTraffic⟩, rfl, hqueue, hwriting⟩
        exact hrunning.invokeRead hin hread
    · cases hw.1.symm.trans hpending
  | readError error =>
    obtain ⟨hpending, rfl⟩ := step_readError h
    have hd : { c with pendingRead := none }.InHandshake :=
      ⟨hc.state_ne, hc.receivedMsgs, hc.beforeTraffic⟩
    refine .inl (hd.handleIoError ⟨rfl, ?_⟩ error).givenUp.handshaking
    rcases hc.waits with hw | ⟨-, -, -, -, hwriting⟩ | hw
    · exact hw.2
    · exact hwriting
    · exact absurd hw.1 hpending
  | written =>
    obtain ⟨hwriting, msg, callback, queue, hqueue, rfl⟩ := step_written h
    rcases hc.waits with hw | ⟨-, -, -, -, hw⟩ | hw
    · cases hw.2.symm.trans hwriting
    · cases hw.symm.trans hwriting
    · exact hc.written hw hqueue
  | writeError error =>
    obtain ⟨hwriting, rfl⟩ := step_writeError h
    have hd : { c with writing := false }.InHandshake :=
      ⟨hc.state_ne, hc.receivedMsgs, hc.beforeTraffic⟩
    refine .inl (hd.handleIoError ⟨?_, rfl⟩ error).givenUp.handshaking
    rcases hc.waits with hw | ⟨-, -, -, -, hw⟩ | hw
    · exact hw.1
    · cases hw.symm.trans hwriting
    · exact hw.1
  | request op =>
    rw [NodeConnection.step, request_of_ne hc.state_ne] at h
    exact .inl (Option.some_inj.mp h ▸ hc)

end Handshaking

/-! ### A connection -/

/-- `msg_received` takes one message, answers or dispatches it, and triggers the next read. -/
theorem msgReceived_eq_some (h : c.msgReceived .connected = some c') :
    ∃ msg rest, c.connectedMsgs.msgs = msg :: rest ∧
      c'.connectedMsgs = ⟨c.connectedMsgs.incomplete, rest⟩ ∧ c'.handled = c.handled ++ [msg] ∧
      c'.state = c.state ∧ c'.receivedMsgs = c.receivedMsgs ∧
      c'.pendingRead = some (.msgReceived, c.receivedMsgs) ∧
      (c'.writeQueue = c.writeQueue ∨
        c'.writeQueue = c.writeQueue ++ [(tick, .ignoreWriteNotification)]) := by
  obtain ⟨msg, c₁, c₂, hnext, rfl, hc₂⟩ := msgReceived_eq_triggerCheckedRead h
  rcases hmsgs : c.connectedMsgs.msgs with _ | ⟨next, rest⟩
  · simp [nextMessage, lexer, MsgLexer.nextMessage, hmsgs] at hnext
  · obtain ⟨rfl, rfl⟩ : next = msg ∧
        { c with connectedMsgs := ⟨c.connectedMsgs.incomplete, rest⟩ } = c₁ := by
      simpa [nextMessage, lexer, MsgLexer.nextMessage, hmsgs, setLexer] using hnext
    refine ⟨next, rest, rfl, ?_⟩
    obtain rfl | ⟨calls, rfl⟩ := hc₂
    · exact ⟨rfl, rfl, rfl, rfl, rfl, .inr rfl⟩
    · exact ⟨rfl, rfl, rfl, rfl, rfl, .inl rfl⟩

namespace Connected

/-- **A read.** At most one of the messages then in the lexer is handled, and the next read is
triggered. -/
theorem step_read (hc : c.Connected) {bytes : MsgSeq} (h : c.step node (.read bytes) = some c') :
    c.pendingRead = some (.msgReceived, .connected) ∧
      ∃ l, c.connectedMsgs.add .connected bytes = some l ∧ c'.Connected ∧
        c'.pendingRead = some (.msgReceived, .connected) ∧
        c'.connectedMsgs = ⟨l.incomplete, l.msgs.tail⟩ ∧
        c'.handled = c.handled ++ l.msgs.head?.toList := by
  obtain ⟨-, callback, k, l, hpending, hadd, hread⟩ := NodeConnection.step_read h
  have hidle : c.pendingRead = some (.msgReceived, .connected) :=
    hc.pendingRead.resolve_left (by simp [hpending])
  obtain ⟨rfl, rfl⟩ : .msgReceived = callback ∧ .connected = k :=
    Prod.mk.inj (Option.some_inj.mp (hidle.symm.trans hpending))
  refine ⟨hidle, l, hadd, ?_⟩
  rcases hread with ⟨hempty, rfl⟩ | ⟨-, hread⟩
  · obtain ⟨inc, msgs⟩ := l
    obtain rfl : msgs = [] := hempty
    exact ⟨⟨hc.state, hc.receivedMsgs, hc.ignores, .inr hidle⟩, hidle, rfl, by simp [setLexer]⟩
  · obtain ⟨msg, rest, hmsgs, hmsgs', hhandled, hstate, hreceived, hpending', hqueue⟩ :=
      msgReceived_eq_some hread
    replace hmsgs : l.msgs = msg :: rest := hmsgs
    have hnext : c'.pendingRead = some (.msgReceived, .connected) := by
      rw [hpending']
      exact congrArg (fun k => some (ReadCallback.msgReceived, k)) hc.receivedMsgs
    rw [hmsgs]
    refine ⟨⟨hstate.trans hc.state, hreceived.trans hc.receivedMsgs, ?_, .inr hnext⟩, hnext,
      hmsgs', hhandled⟩
    intro m hm
    rcases hqueue with hqueue | hqueue <;> rw [hqueue] at hm
    · exact hc.ignores m hm
    · rcases List.mem_append.mp hm with hm | hm
      · exact hc.ignores m hm
      · rw [List.mem_singleton.mp hm]

/-- An I/O error is raised and nothing else happens. -/
theorem handleIoError (hc : c.Connected) (node : NodeAccess) (error : Str) :
    ∃ e, c.handleIoError node error = c.raise e := by
  rw [NodeConnection.handleIoError, hc.state]
  cases c.peerName with
  | none => exact ⟨_, rfl⟩
  | some peer => exact ⟨_, rfl⟩

/-- Anything but a read is about what is outstanding and what is still to be written, or it is
raised. -/
theorem eq_of_ne_read (hc : c.Connected) {e : Event} (hne : ∀ bytes, e ≠ .read bytes)
    (h : c.step node e = some c') : ∃ pending queue writing raised,
      c' = { c with
        pendingRead := pending, writeQueue := queue, writing := writing, raised := raised } ∧
      (pending = c.pendingRead ∨ pending = none) ∧
        ∀ m ∈ queue, m.2 = .ignoreWriteNotification := by
  cases e with
  | read bytes => exact absurd rfl (hne bytes)
  | readError error =>
    obtain ⟨-, rfl⟩ := step_readError h
    have hd : { c with pendingRead := none }.Connected :=
      ⟨hc.state, hc.receivedMsgs, hc.ignores, .inl rfl⟩
    obtain ⟨e, he⟩ := hd.handleIoError node error
    exact ⟨_, _, _, _, he, .inr rfl, hc.ignores⟩
  | written =>
    obtain ⟨-, msg, callback, queue, hqueue, rfl⟩ := step_written h
    have hignore : callback = .ignoreWriteNotification :=
      hc.ignores (msg, callback) (by simp [hqueue])
    subst hignore
    refine ⟨_, queue, _, _, rfl, .inl rfl, fun m hm => hc.ignores m ?_⟩
    rw [hqueue]
    exact List.mem_cons_of_mem _ hm
  | writeError error =>
    obtain ⟨-, rfl⟩ := step_writeError h
    have hd : { c with writing := false }.Connected :=
      ⟨hc.state, hc.receivedMsgs, hc.ignores, hc.pendingRead⟩
    obtain ⟨e, he⟩ := hd.handleIoError node error
    exact ⟨_, _, _, _, he, .inl rfl, hc.ignores⟩
  | request op =>
    rw [step, request, hc.state] at h
    obtain rfl := Option.some_inj.mp h
    refine ⟨_, _, _, _, rfl, .inl rfl, fun m hm => ?_⟩
    rcases List.mem_append.mp hm with hm | hm
    · exact hc.ignores m hm
    · rw [List.mem_singleton.mp hm]

/-- **Anything else** leaves the lexer as it is. -/
theorem step_of_ne_read (hc : c.Connected) {e : Event} (hne : ∀ bytes, e ≠ .read bytes)
    (h : c.step node e = some c') : c'.Connected ∧ c'.connectedMsgs = c.connectedMsgs ∧
      c'.handled = c.handled ∧ (c'.pendingRead = c.pendingRead ∨ c'.pendingRead = none) := by
  obtain ⟨pending, queue, writing, raised, rfl, hpending, hignores⟩ := hc.eq_of_ne_read hne h
  refine ⟨⟨hc.state, hc.receivedMsgs, hignores, ?_⟩, rfl, rfl, hpending⟩
  rcases hpending with rfl | rfl
  · exact hc.pendingRead
  · exact .inl rfl

end Connected

end NodeConnection

end TinchPp
