import TinchPp.FrameDelivery

/-!
# From the handshake to the frames

The peer of an originator sends a status, a challenge and a challenge_ack, and then frames, in one
stream of bytes. The first three go to the handshake lexer and the frames to the connected lexer;
what decides is the lexer pointer at the time a read is triggered. A read that brings the end of
the ack and more has put all of it into the handshake lexer, and nobody looks there again. So has
one that follows a read with the whole ack in it: `receiving_challenge_ack` waits for a read even
when the lexer has the ack already. And a challenge that is not there when the status is read is
read later, by a callback that is undefined.

`PeerStream` is what a peer may send, and `SafelyCut` the condition on the reads it arrives in.
`Progress` says where a connection is in the stream.

## Main results

* `PeerStream.Progress.step_read`, `PeerStream.Progress.step_of_ne_read` — a step moves on in the
  stream, or gives up before its end
* `PeerStream.WaitsFor.undefined_read_iff` — which reads of a handshake are undefined
* `PeerStream.noBytesLost_of_safelyCut` — with reads that are safely cut, no bytes are lost
-/

namespace TinchPp

open EventSystem NodeConnection

/-- What a peer sends to an originator that has a challenge of its own. -/
structure PeerStream (node : NodeAccess) (ownChallenge : UInt32) where
  status : MsgSeq
  challenge : MsgSeq
  ack : MsgSeq
  frames : List MsgSeq
  status_isFrame : handshakeFraming.IsFrame status
  challenge_isFrame : handshakeFraming.IsFrame challenge
  ack_isFrame : handshakeFraming.IsFrame ack
  status_ok : ∃ s, parse status receiveStatus [] = some s ∧ isOk s
  challenge_parses : ∃ a, parse challenge recvChallenge ChallengeAttributes.init = some a
  ack_digest : parse ack recvChallengeAckP [] =
    some (node.calculateDigest ownChallenge node.cookie)
  frames_isFrame : ∀ f ∈ frames, connectedFraming.IsFrame f

/-- The chunks in which the bytes of a run were read. -/
def reads : List Event → List MsgSeq
  | [] => []
  | .read bytes :: es => bytes :: reads es
  | _ :: es => reads es

def chunk : Event → List MsgSeq
  | .read bytes => [bytes]
  | _ => []

theorem chunk_of_ne_read {e : Event} (hne : ∀ b, e ≠ .read b) : chunk e = [] := by
  cases e with
  | read b => exact absurd rfl (hne b)
  | _ => rfl

theorem reads_concat (es : List Event) (e : Event) : reads (es ++ [e]) = reads es ++ chunk e := by
  induction es with
  | nil => cases e <;> rfl
  | cons d es ih => cases d <;> simp [reads, ih]

namespace PeerStream

variable {node : NodeAccess} {ownChallenge : UInt32} (p : PeerStream node ownChallenge)

def handshake : MsgSeq := p.status ++ p.challenge ++ p.ack

def bytes : MsgSeq := p.handshake ++ p.frames.flatten

/-- The frames handled are a prefix of the frames sent, and when everything has been read, the
others are in the connected lexer. -/
def NoBytesLost (rs : List MsgSeq) (es : List Event) (c : NodeConnection) : Prop :=
  c.handled <+: p.frames ∧ (reads es = rs → c.handled ++ c.connectedMsgs.msgs = p.frames)

/-- The condition on the reads `rs`: no read ends behind the status and in front of the end of the
challenge. The one with the end of the ack brings no more than that and, if frames follow, not the
end of the challenge as well. And the frames are not too long for the lexer. -/
structure SafelyCut (rs : List MsgSeq) : Prop where
  challenge_with_status : ∀ i ≤ rs.length, (rs.take i).flatten.length < p.status.length ∨
    (p.status ++ p.challenge).length ≤ (rs.take i).flatten.length
  end_of_ack : ∀ i < rs.length, (rs.take i).flatten.length < p.handshake.length →
    (rs.take (i + 1)).flatten.length ≤ p.handshake.length
  not_with_challenge : p.frames ≠ [] → ∀ i < rs.length,
    (rs.take i).flatten.length < (p.status ++ p.challenge).length →
      (rs.take (i + 1)).flatten.length < p.handshake.length
  frames_fit : ∀ f ∈ p.frames, f.length < 2 ^ 32

/-- What a node running this code sends as B, and frames. -/
def ofB (node : NodeAccess) (ownChallenge challenge : UInt32) {nodeName : Str}
    (hname : nodeName ≠ []) (hlen : nodeName.length + 11 < 65536) {frames : List MsgSeq}
    (hframes : ∀ f ∈ frames, connectedFraming.IsFrame f) : PeerStream node ownChallenge where
  status := receiveStatusG (bytesOf "ok")
  challenge := sendChallengeG challenge nodeName
  ack := sendChallengeAckG (node.calculateDigest ownChallenge node.cookie)
  frames := frames
  status_isFrame := by decide
  challenge_isFrame := isFrame_sendChallengeG challenge hlen
  ack_isFrame := isFrame_sendChallengeAckG (node.length_calculateDigest _ _)
  status_ok := ⟨bytesOf "ok", parse_receiveStatusG (by decide), by decide⟩
  challenge_parses := ⟨_, parse_sendChallengeG challenge hname⟩
  ack_digest := parse_sendChallengeAckG (node.length_calculateDigest _ _)
  frames_isFrame := hframes

/-! ### The frames fit -/

theorem fieldFits_frame_append {f : MsgSeq} (hf : connectedFraming.IsFrame f)
    (hlt : f.length < 2 ^ 32) (s : MsgSeq) : FieldFits (f ++ s) := by
  have hsize : (lengthField f).map (fun n => 4 + n.toNat) = some f.length := by
    rw [← connectedFraming_size]
    exact hf
  obtain ⟨n, hn, hlen⟩ := Option.map_eq_some_iff.mp hsize
  intro m hm
  obtain rfl : n = m := Option.some_inj.mp ((lengthField_append hn s).symm.trans hm)
  omega

theorem fieldsFit_flatten {fs : List MsgSeq} (hf : ∀ f ∈ fs, connectedFraming.IsFrame f)
    (hlt : ∀ f ∈ fs, f.length < 2 ^ 32) : FieldsFit fs.flatten := by
  induction fs with
  | nil =>
    refine (Framing.atBoundaries_of_incomplete Framing.incomplete_nil).mpr ?_
    intro n hn
    cases hn
  | cons f fs ih =>
    rw [List.flatten_cons]
    have hframe := hf f List.mem_cons_self
    refine (Framing.atBoundaries_frame_append hframe).mpr ⟨?_, ?_⟩
    · exact fieldFits_frame_append hframe (hlt f List.mem_cons_self) _
    · exact ih (fun g hg => hf g (List.mem_cons_of_mem f hg))
        fun g hg => hlt g (List.mem_cons_of_mem f hg)

/-! ### Where a connection is -/

/-- An originator that waits for a message, with this in its handshake lexer. -/
structure WaitsFor (ownChallenge : UInt32) (state : ConnectionState) (callback : ReadCallback)
    (l : MsgLexer) (c : NodeConnection) : Prop extends InHandshake c where
  state_eq : c.state = state
  ownChallenge_eq : c.ownChallenge = ownChallenge
  handshakeMsgs : c.handshakeMsgs = l
  pendingRead : c.pendingRead = some (callback, .handshake)
  writeQueue : c.writeQueue = []
  writing : c.writing = false

/-- An originator that writes a message, with this in its handshake lexer. -/
structure Writes (ownChallenge : UInt32) (state : ConnectionState) (callback : WriteCallback)
    (l : MsgLexer) (c : NodeConnection) : Prop extends InHandshake c where
  state_eq : c.state = state
  ownChallenge_eq : c.ownChallenge = ownChallenge
  handshakeMsgs : c.handshakeMsgs = l
  pendingRead : c.pendingRead = none
  writeQueue : ∃ msg, c.writeQueue = [(msg, callback)]
  writing : c.writing = true

/-- An originator whose callback runs, with this in its handshake lexer. -/
structure Runs (ownChallenge : UInt32) (l : MsgLexer) (c : NodeConnection) : Prop
    extends Running c where
  ownChallenge_eq : c.ownChallenge = ownChallenge
  handshakeMsgs : c.handshakeMsgs = l

/-- `Progress p T c`: the connection has read `T`, and got so far. -/
inductive Progress : MsgSeq → NodeConnection → Prop
  | sendingName {c} (hc : Writes ownChallenge .connectedTcp .handshakeSent .empty c) :
      Progress [] c
  | awaitingStatus {T c} (hc : WaitsFor ownChallenge .waitingForStatus .statusRead ⟨T, []⟩ c)
      (hT : T <+: p.status) (hne : T ≠ p.status) : Progress T c
  | awaitingChallenge {u c}
      (hc : WaitsFor ownChallenge .receivingChallenge .challengeRead ⟨u, []⟩ c)
      (hu : u <+: p.challenge) (hne : u ≠ p.challenge) : Progress (p.status ++ u) c
  | sendingReply {u c} (hc : Writes ownChallenge .sendingChallengeReply .replySent ⟨u, []⟩ c)
      (hu : u <+: p.ack) (hne : u ≠ p.ack) : Progress (p.status ++ p.challenge ++ u) c
  | awaitingAck {u c}
      (hc : WaitsFor ownChallenge .receivingChallengeAck .challengeAckRead ⟨u, []⟩ c)
      (hu : u <+: p.ack) (hne : u ≠ p.ack) : Progress (p.status ++ p.challenge ++ u) c
  | connected {t c} (hc : Connected c) (ht : t <+: p.frames.flatten)
      (hincomplete : c.connectedMsgs.incomplete = (connectedFraming.split t).2)
      (hmsgs : c.handled ++ c.connectedMsgs.msgs = (connectedFraming.split t).1) :
      Progress (p.handshake ++ t) c
  | givenUp {T c} (hc : GivenUp c) (hlt : T.length < p.handshake.length) : Progress T c
  | allRead {c} (hframes : p.frames = []) (hc : Handshaking c) : Progress p.handshake c

/-! ### What a step does there -/

variable {p} {c c' : NodeConnection} {state : ConnectionState} {l : MsgLexer} {inc : MsgSeq}
  {rest : List MsgSeq}

theorem WaitsFor.step_read {callback : ReadCallback} {b : MsgSeq}
    (hc : WaitsFor ownChallenge state callback l c) (h : c.step node (.read b) = some c') :
    b ≠ [] ∧ ∃ l', l.add .handshake b = some l' ∧
      (l'.msgs = [] ∧ WaitsFor ownChallenge state callback l' c' ∧ SameReports c c' ∨
        l'.msgs ≠ [] ∧ ∃ c₀, Runs ownChallenge l' c₀ ∧ SameReports c c₀ ∧
          c₀.invokeRead node callback .handshake = some c') := by
  obtain ⟨hb, callback', k, l', hpending, hadd, hread⟩ := NodeConnection.step_read h
  obtain ⟨rfl, rfl⟩ : callback = callback' ∧ .handshake = k :=
    Prod.mk.inj (Option.some_inj.mp (hc.pendingRead.symm.trans hpending))
  rw [lexer, hc.handshakeMsgs] at hadd
  refine ⟨hb, l', hadd, ?_⟩
  rcases hread with ⟨hnil, rfl⟩ | ⟨hne, hread⟩
  · exact .inl ⟨hnil, ⟨⟨hc.state_ne, hc.receivedMsgs, hc.beforeTraffic⟩, hc.state_eq,
      hc.ownChallenge_eq, rfl, hc.pendingRead, hc.writeQueue, hc.writing⟩, rfl, rfl⟩
  · refine .inr ⟨hne, { c with pendingRead := none }.setLexer .handshake l', ?_, ⟨rfl, rfl⟩, hread⟩
    exact ⟨⟨⟨hc.state_ne, hc.receivedMsgs, hc.beforeTraffic⟩, rfl, hc.writeQueue, hc.writing⟩,
      hc.ownChallenge_eq, rfl⟩

/-- A read that completes nothing. -/
theorem WaitsFor.step_read_nil {callback : ReadCallback} {u b tail : MsgSeq}
    (hc : WaitsFor ownChallenge state callback ⟨u, []⟩ c)
    (hsplit : handshakeFraming.split (u ++ b) = ([], tail))
    (h : c.step node (.read b) = some c') : WaitsFor ownChallenge state callback ⟨tail, []⟩ c' := by
  obtain ⟨-, l', hadd, hread⟩ := hc.step_read h
  have hfit : Fits .handshake (u ++ b) := by rintro ⟨⟩
  rw [MsgLexer.add_eq hfit, framing, hsplit] at hadd
  obtain rfl := Option.some_inj.mp hadd
  rcases hread with ⟨-, hc', -⟩ | ⟨hne, -⟩
  · exact hc'
  · exact absurd rfl hne

/-- A read that completes a message. -/
theorem WaitsFor.step_read_cons {callback : ReadCallback} {u b msg tail : MsgSeq}
    (hc : WaitsFor ownChallenge state callback ⟨u, []⟩ c)
    (hsplit : handshakeFraming.split (u ++ b) = (msg :: rest, tail))
    (h : c.step node (.read b) = some c') : ∃ c₀, Runs ownChallenge ⟨tail, msg :: rest⟩ c₀ ∧
      c₀.invokeRead node callback .handshake = some c' := by
  obtain ⟨-, l', hadd, hread⟩ := hc.step_read h
  have hfit : Fits .handshake (u ++ b) := by rintro ⟨⟩
  rw [MsgLexer.add_eq hfit, framing, hsplit] at hadd
  obtain rfl := Option.some_inj.mp hadd
  rcases hread with ⟨hnil, -⟩ | ⟨-, c₀, hc₀, -, hread⟩
  · cases hnil
  · exact ⟨c₀, hc₀, hread⟩

/-- **When a read in a handshake is undefined**: it completes a challenge that is waited for. -/
theorem WaitsFor.undefined_read_iff {callback : ReadCallback} {u b : MsgSeq}
    (hc : WaitsFor ownChallenge state callback ⟨u, []⟩ c) (hcallback : callback ≠ .msgReceived) :
    c.Undefined node (.read b) ↔ (0 < b.length ∧ b.length ≤ readBufferSize) ∧
      callback = .challengeRead ∧ ∃ msg rest tail,
        handshakeFraming.split (u ++ b) = (msg :: rest, tail) ∧
          parse msg recvChallenge ChallengeAttributes.init ≠ none := by
  have hfit : Fits .handshake (u ++ b) := by rintro ⟨⟩
  have hpossible : c.Possible (.read b) ↔ 0 < b.length ∧ b.length ≤ readBufferSize := by
    simp [Possible, hc.pendingRead]
  rw [Undefined, hpossible]
  refine and_congr_right fun hsize => ?_
  rw [step, if_pos hsize, checkedRead, hc.pendingRead]
  dsimp only
  rw [lexer, hc.handshakeMsgs, MsgLexer.add_eq hfit, framing]
  dsimp only
  rcases hsplit : handshakeFraming.split (u ++ b) with ⟨_ | ⟨msg, rest⟩, tail⟩
  · simp [MsgLexer.hasCompleteMsg]
  · simp only [List.nil_append, MsgLexer.hasCompleteMsg, List.isEmpty_cons, Bool.not_false, if_true]
    refine (invokeRead_eq_none_iff hcallback rfl).trans ?_
    simp

theorem WaitsFor.step_of_ne_read {callback : ReadCallback} {e : Event}
    (hc : WaitsFor ownChallenge state callback l c) (hne : ∀ b, e ≠ .read b)
    (h : c.step node e = some c') : c' = c ∨ Fails c c' := by
  cases e with
  | read b => exact absurd rfl (hne b)
  | readError error =>
    obtain ⟨-, rfl⟩ := step_readError h
    have hd : { c with pendingRead := none }.InHandshake :=
      ⟨hc.state_ne, hc.receivedMsgs, hc.beforeTraffic⟩
    have hfails : Fails _ ({ c with pendingRead := none }.handleIoError node error) :=
      hd.handleIoError ⟨rfl, hc.writing⟩ error
    exact .inr ⟨hfails.givenUp, hfails.handshakeSuccess, hfails.calls⟩
  | written => cases hc.writing.symm.trans (step_written h).1
  | writeError error => cases hc.writing.symm.trans (step_writeError h).1
  | request op =>
    rw [step, request_of_ne hc.state_ne] at h
    exact .inl (Option.some_inj.mp h).symm

theorem Writes.step {callback : WriteCallback} {e : Event}
    (hc : Writes ownChallenge state callback l c) (h : c.step node e = some c') :
    chunk e = [] ∧ (c' = c ∨ Fails c c' ∨
      ∃ c₀, Runs ownChallenge l c₀ ∧ SameReports c c₀ ∧ c' = c₀.invokeWritten callback) := by
  obtain ⟨hne, rfl | hsame⟩ := hc.toInHandshake.step_of_no_read hc.pendingRead h
  · obtain ⟨-, msg, callback', queue, hqueue, rfl⟩ := step_written h
    obtain ⟨msg', hqueue'⟩ := hc.writeQueue
    rw [hqueue', List.cons.injEq, Prod.mk.injEq] at hqueue
    obtain ⟨⟨-, rfl⟩, rfl⟩ := hqueue
    have hrunning : Runs ownChallenge l { c with writeQueue := [], writing := false } :=
      ⟨⟨⟨hc.state_ne, hc.receivedMsgs, hc.beforeTraffic⟩, hc.pendingRead, rfl, rfl⟩,
        hc.ownChallenge_eq, hc.handshakeMsgs⟩
    exact ⟨rfl, .inr (.inr ⟨_, hrunning, ⟨rfl, rfl⟩, rfl⟩)⟩
  · exact ⟨chunk_of_ne_read hne, hsame.imp_right .inl⟩

/-! ### The callbacks, on the messages of the peer -/

theorem Runs.nextMessage {msg : MsgSeq} (hc : Runs ownChallenge ⟨inc, msg :: rest⟩ c) :
    ∃ c₁, c.nextMessage .handshake = some (msg, c₁) ∧ Runs ownChallenge ⟨inc, rest⟩ c₁ ∧
      SameReports c c₁ := by
  refine ⟨{ c with handshakeMsgs := ⟨inc, rest⟩ }, ?_, ?_, rfl, rfl⟩
  · simp [NodeConnection.nextMessage, lexer, hc.handshakeMsgs, MsgLexer.nextMessage, setLexer]
  · exact ⟨⟨⟨hc.state_ne, hc.receivedMsgs, hc.beforeTraffic⟩, hc.pendingRead, hc.writeQueue,
      hc.writing⟩, hc.ownChallenge_eq, rfl⟩

/-- A transition to a state that writes one message. -/
theorem Runs.writes (hc : Runs ownChallenge l c) (hstate : state ≠ .connected) (msg : MsgSeq)
    (callback : WriteCallback) : Writes ownChallenge state callback l
      ((c.changeState state).triggerCheckedWrite msg callback) where
  state_ne := hstate
  receivedMsgs := hc.receivedMsgs
  beforeTraffic := hc.beforeTraffic
  state_eq := rfl
  ownChallenge_eq := hc.ownChallenge_eq
  handshakeMsgs := hc.handshakeMsgs
  pendingRead := hc.pendingRead
  writeQueue := ⟨msg, by simp [triggerCheckedWrite, triggerWrite, changeState, hc.writeQueue]⟩
  writing := by simp [triggerCheckedWrite, triggerWrite, changeState, hc.writeQueue]

theorem Runs.challengeRead {held : Bool}
    (hc : Runs ownChallenge ⟨inc, p.challenge :: rest⟩ c)
    (h : c.challengeRead node held .handshake = some c') :
    Writes ownChallenge .sendingChallengeReply .replySent ⟨inc, rest⟩ c' := by
  obtain ⟨c₁, hnext, hc₁, -⟩ := hc.nextMessage
  obtain ⟨attributes, hparse⟩ := p.challenge_parses
  obtain ⟨-, rfl⟩ := held_of_challengeRead hnext hparse h
  exact hc₁.writes (by rintro ⟨⟩) _ .replySent

theorem Runs.statusRead (hc : Runs ownChallenge ⟨inc, p.status :: rest⟩ c)
    (h : c.statusRead node .handshake = some c') :
    ∃ c₁, Runs ownChallenge ⟨inc, rest⟩ c₁ ∧ c₁.state = .receivingChallenge ∧
      c₁.receiveChallenge node .handshake = some c' := by
  obtain ⟨c₁, hnext, hc₁, -⟩ := hc.nextMessage
  obtain ⟨status, hparse, hok⟩ := p.status_ok
  rw [NodeConnection.statusRead, hnext] at h
  dsimp only at h
  rw [hparse] at h
  dsimp only at h
  rw [dispatchStatus, if_pos hok] at h
  have hmoved : Runs ownChallenge ⟨inc, rest⟩ (c₁.changeState .receivingChallenge) :=
    ⟨⟨⟨by rintro ⟨⟩, hc₁.receivedMsgs, hc₁.beforeTraffic⟩, hc₁.pendingRead, hc₁.writeQueue,
      hc₁.writing⟩, hc₁.ownChallenge_eq, hc₁.handshakeMsgs⟩
  exact ⟨_, hmoved, rfl, h⟩

theorem Runs.challengeAckRead (hc : Runs ownChallenge ⟨inc, p.ack :: rest⟩ c)
    (h : c.challengeAckRead node .handshake = some c') : c'.Connected ∧ c'.BeforeTraffic := by
  obtain ⟨c₁, hnext, hc₁, -⟩ := hc.nextMessage
  have hcorrect : c₁.isCorrect node (node.calculateDigest ownChallenge node.cookie) = true := by
    rw [isCorrect, hc₁.ownChallenge_eq]
    exact decide_eq_true rfl
  rw [NodeConnection.challengeAckRead, hnext] at h
  dsimp only at h
  rw [p.ack_digest] at h
  dsimp only at h
  rw [if_pos hcorrect] at h
  obtain rfl := Option.some_inj.mp h
  exact hc₁.toRunning.makeTransitionToConnected

/-! ### One step on -/

theorem length_handshake : p.handshake.length =
    p.status.length + p.challenge.length + p.ack.length := by
  simp [handshake, Nat.add_assoc]

theorem length_lt_of_isPrefix {s t : MsgSeq} (h : s <+: t) (hne : s ≠ t) :
    s.length < t.length :=
  lt_of_le_of_ne h.length_le fun hlen => hne (h.eq_of_length hlen)

theorem length_ack_pos : 0 < p.ack.length := List.length_pos_of_ne_nil p.ack_isFrame.ne_nil

/-- The challenge is read, with a part `w` of the ack behind it. -/
theorem progress_of_challengeRead {held : Bool} {w : MsgSeq} (hw : w <+: p.ack)
    (hall : w = p.ack → p.frames = [])
    (hc : Runs ownChallenge ⟨(handshakeFraming.split w).2,
      p.challenge :: (handshakeFraming.split w).1⟩ c)
    (h : c.challengeRead node held .handshake = some c') :
    p.Progress (p.status ++ p.challenge ++ w) c' := by
  by_cases hwhole : w = p.ack
  · subst hwhole
    exact .allRead (hall rfl) (hc.toRunning.challengeRead h)
  · have hwrites := hc.challengeRead h
    rw [p.ack_isFrame.split_of_isPrefix hw hwhole] at hwrites
    exact .sendingReply hwrites hw hwhole

/-- The status is read, with a part `v` of the rest of the handshake behind it. -/
theorem progress_of_receiveChallenge {v : MsgSeq} (hv : v <+: p.challenge ++ p.ack)
    (hall : v = p.challenge ++ p.ack → p.frames = [])
    (hc : Runs ownChallenge ⟨(handshakeFraming.split v).2, (handshakeFraming.split v).1⟩ c)
    (hstate : c.state = .receivingChallenge)
    (h : c.receiveChallenge node .handshake = some c') : p.Progress (p.status ++ v) c' := by
  rw [receiveChallenge, lexer, hc.handshakeMsgs] at h
  rcases Framing.prefix_append_cases hv with ⟨hu, hne⟩ | ⟨w, rfl, hw⟩
  · have hsplit := p.challenge_isFrame.split_of_isPrefix hu hne
    rw [hsplit, if_neg (by simp [MsgLexer.hasCompleteMsg])] at h
    obtain rfl := Option.some_inj.mp h
    refine .awaitingChallenge ⟨⟨hc.state_ne, hc.receivedMsgs, hc.beforeTraffic⟩, hstate,
      hc.ownChallenge_eq, ?_, ?_, hc.writeQueue, hc.writing⟩ hu hne
    · exact hc.handshakeMsgs.trans (by rw [hsplit])
    · exact congrArg (fun k => some (ReadCallback.challengeRead, k)) hc.receivedMsgs
  · have hsplit := Framing.split_frame_append (s := w) p.challenge_isFrame
    rw [hsplit] at hc h
    rw [if_pos (by simp [MsgLexer.hasCompleteMsg])] at h
    rw [← List.append_assoc]
    exact progress_of_challengeRead hw (fun hwhole => hall (by rw [hwhole])) hc h

/-- The message taken from the queue, and the others. -/
theorem head_append_tail (msgs : List MsgSeq) : msgs.head?.toList ++ msgs.tail = msgs := by
  cases msgs <;> rfl

/-- A transition to a state that waits for a message. -/
theorem Runs.waitsFor (hc : Runs ownChallenge l c) (hstate : state ≠ .connected)
    (callback : ReadCallback) : WaitsFor ownChallenge state callback l
      ((c.triggerCheckedRead callback).changeState state) where
  state_ne := hstate
  receivedMsgs := hc.receivedMsgs
  beforeTraffic := hc.beforeTraffic
  state_eq := rfl
  ownChallenge_eq := hc.ownChallenge_eq
  handshakeMsgs := hc.handshakeMsgs
  pendingRead := congrArg (fun k => some (callback, k)) hc.receivedMsgs
  writeQueue := hc.writeQueue
  writing := hc.writing

theorem progress_connected (hc : Connected c) (hbefore : BeforeTraffic c) :
    p.Progress p.handshake c := by
  rw [← List.append_nil p.handshake]
  refine .connected hc List.nil_prefix ?_ ?_
  · rw [hbefore.1, Framing.split_nil]
    rfl
  · rw [hbefore.1, hbefore.2, Framing.split_nil]
    rfl

namespace Progress

variable {T : MsgSeq}

/-- **Anything but a read** leaves the connection where it is in the stream. -/
theorem step_of_ne_read (hp : p.Progress T c) {e : Event} (hne : ∀ b, e ≠ .read b)
    (h : c.step node e = some c') : p.Progress T c' := by
  have hack := p.length_ack_pos
  have hlen := p.length_handshake
  cases hp with
  | sendingName hc =>
    rcases (hc.step h).2 with rfl | hc' | ⟨c₀, hc₀, -, rfl⟩
    · exact .sendingName hc
    · exact .givenUp hc'.givenUp (by simp only [List.length_nil]; omega)
    · have hne : ConnectionState.waitingForStatus ≠ .connected := by rintro ⟨⟩
      exact .awaitingStatus (hc₀.waitsFor hne .statusRead) List.nil_prefix
        p.status_isFrame.ne_nil.symm
  | awaitingStatus hc hT hneT =>
    rcases hc.step_of_ne_read hne h with rfl | hc'
    · exact .awaitingStatus hc hT hneT
    · have := hT.length_le
      exact .givenUp hc'.givenUp (by omega)
  | awaitingChallenge hc hu hneu =>
    rcases hc.step_of_ne_read hne h with rfl | hc'
    · exact .awaitingChallenge hc hu hneu
    · have := hu.length_le
      exact .givenUp hc'.givenUp (by rw [List.length_append]; omega)
  | sendingReply hc hu hneu =>
    rcases (hc.step h).2 with rfl | hc' | ⟨c₀, hc₀, -, rfl⟩
    · exact .sendingReply hc hu hneu
    · have := length_lt_of_isPrefix hu hneu
      exact .givenUp hc'.givenUp (by rw [List.length_append, List.length_append]; omega)
    · have hne : ConnectionState.receivingChallengeAck ≠ .connected := by rintro ⟨⟩
      exact .awaitingAck (hc₀.waitsFor hne .challengeAckRead) hu hneu
  | awaitingAck hc hu hneu =>
    rcases hc.step_of_ne_read hne h with rfl | hc'
    · exact .awaitingAck hc hu hneu
    · have := length_lt_of_isPrefix hu hneu
      exact .givenUp hc'.givenUp (by rw [List.length_append, List.length_append]; omega)
  | connected hc ht hincomplete hmsgs =>
    obtain ⟨hc', hlexer, hhandled, -⟩ := hc.step_of_ne_read hne h
    exact .connected hc' ht (by rw [hlexer, hincomplete]) (by rw [hlexer, hhandled, hmsgs])
  | givenUp hc hlt =>
    obtain ⟨-, rfl⟩ := hc.step h
    exact .givenUp hc hlt
  | allRead hframes hc =>
    rcases hc.step h with hc' | ⟨hc', hbefore⟩
    · exact .allRead hframes hc'
    · exact progress_connected hc' hbefore

/-- **A read** moves on in the stream. -/
theorem step_read {b : MsgSeq} (hp : p.Progress T c) (h : c.step node (.read b) = some c')
    (hpre : T ++ b <+: p.bytes)
    (hend : T.length < p.handshake.length → (T ++ b).length ≤ p.handshake.length)
    (hapart : p.frames ≠ [] → T.length < (p.status ++ p.challenge).length →
      (T ++ b).length < p.handshake.length)
    (hfit : FieldsFit p.frames.flatten) : p.Progress (T ++ b) c' := by
  have hack := p.length_ack_pos
  have hlen := p.length_handshake
  -- in the handshake, the read does not go beyond its end
  have hin : T.length < p.handshake.length →
      T ++ b <+: p.status ++ (p.challenge ++ p.ack) := fun hlt => by
    rw [← List.append_assoc]
    exact List.prefix_of_prefix_length_le hpre (List.prefix_append _ _) (hend hlt)
  have hall : T.length < (p.status ++ p.challenge).length → T ++ b = p.handshake →
      p.frames = [] := fun hlt heq => by
    by_contra hframes
    have := hapart hframes hlt
    rw [heq] at this
    exact Nat.lt_irrefl _ this
  rw [List.length_append] at hall
  cases hp with
  | sendingName hc => exact absurd (hc.step h).1 (by simp [chunk])
  | awaitingStatus hc hT hneT =>
    have hlt := length_lt_of_isPrefix hT hneT
    rcases Framing.prefix_append_cases (hin (by omega)) with ⟨hX, hneX⟩ | ⟨v, hv, hvpre⟩
    · have hsplit := p.status_isFrame.split_of_isPrefix hX hneX
      exact .awaitingStatus (hc.step_read_nil hsplit h) hX hneX
    · have hsplit := Framing.split_frame_append (s := v) p.status_isFrame
      rw [← hv] at hsplit
      obtain ⟨c₀, hc₀, hread⟩ := hc.step_read_cons hsplit h
      obtain ⟨c₁, hc₁, hstate, hreceive⟩ := hc₀.statusRead hread
      rw [hv] at hall ⊢
      refine progress_of_receiveChallenge hvpre (fun hwhole => ?_) hc₁ hstate hreceive
      exact hall (by omega) (by rw [hwhole, handshake, List.append_assoc])
  | @awaitingChallenge u _ hc hu hneu =>
    have hlt := length_lt_of_isPrefix hu hneu
    rw [List.length_append, List.append_assoc] at hin hall
    rw [List.append_assoc]
    have hupre : u ++ b <+: p.challenge ++ p.ack :=
      (List.prefix_append_right_inj _).mp (hin (by omega))
    rcases Framing.prefix_append_cases hupre with ⟨hX, hneX⟩ | ⟨w, hw, hwpre⟩
    · have hsplit := p.challenge_isFrame.split_of_isPrefix hX hneX
      exact .awaitingChallenge (hc.step_read_nil hsplit h) hX hneX
    · have hsplit := Framing.split_frame_append (s := w) p.challenge_isFrame
      rw [← hw] at hsplit
      obtain ⟨c₀, hc₀, hread⟩ := hc.step_read_cons hsplit h
      rw [hw] at hall ⊢
      rw [← List.append_assoc]
      refine progress_of_challengeRead hwpre (fun hwhole => ?_) hc₀ hread
      exact hall (by omega) (by rw [hwhole, handshake, List.append_assoc])
  | sendingReply hc => exact absurd (hc.step h).1 (by simp [chunk])
  | @awaitingAck u _ hc hu hneu =>
    have hlt := length_lt_of_isPrefix hu hneu
    rw [List.append_assoc]
    have hupre : u ++ b <+: p.ack := by
      have hTpre := hin (by rw [List.length_append, List.length_append]; omega)
      rw [← List.append_assoc, List.append_assoc] at hTpre
      exact (List.prefix_append_right_inj _).mp hTpre
    by_cases hwhole : u ++ b = p.ack
    · have hsplit := Framing.split_frame_append (s := []) p.ack_isFrame
      rw [List.append_nil, Framing.split_nil, ← hwhole] at hsplit
      obtain ⟨c₀, hc₀, hread⟩ := hc.step_read_cons hsplit h
      rw [hwhole] at hc₀ ⊢
      obtain ⟨hc', hbefore⟩ := hc₀.challengeAckRead hread
      exact progress_connected hc' hbefore
    · have hsplit := p.ack_isFrame.split_of_isPrefix hupre hwhole
      exact .awaitingAck (hc.step_read_nil hsplit h) hupre hwhole
  | @connected t _ hc ht hincomplete hmsgs =>
    rw [List.append_assoc] at hpre ⊢
    have htb : t ++ b <+: p.frames.flatten := (List.prefix_append_right_inj _).mp hpre
    have hfit' : FieldsFit (c.connectedMsgs.incomplete ++ b) := by
      obtain ⟨s, hs⟩ := htb
      rw [← hs] at hfit
      rw [hincomplete]
      exact hfit.of_append.tail_append
    obtain ⟨-, l, hadd, hc', -, hlexer, hhandled⟩ := hc.step_read h
    rw [MsgLexer.add_eq fun _ => hfit', framing] at hadd
    obtain rfl := Option.some_inj.mp hadd
    have hsplit : connectedFraming.split (t ++ b) =
        (c.handled ++ c.connectedMsgs.msgs ++
            (connectedFraming.split (c.connectedMsgs.incomplete ++ b)).1,
          (connectedFraming.split (c.connectedMsgs.incomplete ++ b)).2) := by
      rw [Framing.split_append, hmsgs, hincomplete]
    refine .connected hc' htb ?_ ?_
    · rw [hlexer, hsplit]
    · rw [hlexer, hhandled, List.append_assoc, head_append_tail, hsplit, List.append_assoc]
  | givenUp hc => exact absurd rfl ((hc.step h).1 b)
  | allRead hframes hc =>
    have hb : b <+: [] := by
      rw [bytes, hframes, List.flatten_nil] at hpre
      exact (List.prefix_append_right_inj _).mp hpre
    exact absurd (List.prefix_nil.mp hb) (NodeConnection.step_read h).1

/-- In the handshake, not everything has been read, unless there are no frames. -/
theorem cases_traffic (hp : p.Progress T c) : c.BeforeTraffic ∧
      (T.length < p.handshake.length ∨ p.frames = []) ∨
    ∃ t, T = p.handshake ++ t ∧ t <+: p.frames.flatten ∧
      c.handled ++ c.connectedMsgs.msgs = (connectedFraming.split t).1 := by
  have hack := p.length_ack_pos
  have hlen := p.length_handshake
  cases hp with
  | sendingName hc => exact .inl ⟨hc.beforeTraffic, .inl (by simp only [List.length_nil]; omega)⟩
  | awaitingStatus hc hT =>
    have := hT.length_le
    exact .inl ⟨hc.beforeTraffic, .inl (by omega)⟩
  | awaitingChallenge hc hu =>
    have := hu.length_le
    exact .inl ⟨hc.beforeTraffic, .inl (by rw [List.length_append]; omega)⟩
  | sendingReply hc hu hne | awaitingAck hc hu hne =>
    have := length_lt_of_isPrefix hu hne
    exact .inl ⟨hc.beforeTraffic,
      .inl (by rw [List.length_append, List.length_append]; omega)⟩
  | connected _ ht _ hmsgs => exact .inr ⟨_, rfl, ht, hmsgs⟩
  | givenUp hc hlt => exact .inl ⟨hc.beforeTraffic, .inl hlt⟩
  | allRead hframes hc => exact .inl ⟨hc.beforeTraffic, .inr hframes⟩

theorem split_frames : connectedFraming.split p.frames.flatten = (p.frames, []) := by
  have := Framing.split_flatten p.frames_isFrame Framing.incomplete_nil
  rwa [List.append_nil] at this

theorem handled_isPrefix (hp : p.Progress T c) : c.handled <+: p.frames := by
  rcases hp.cases_traffic with ⟨hbefore, -⟩ | ⟨t, -, ⟨s, hs⟩, hmsgs⟩
  · rw [hbefore.2]
    exact List.nil_prefix
  · have hsplit := Framing.split_append (F := connectedFraming) t s
    rw [hs, split_frames, ← hmsgs, List.append_assoc] at hsplit
    exact ⟨_, (congrArg Prod.fst hsplit).symm⟩

theorem all_of_bytes (hp : p.Progress p.bytes c) :
    c.handled ++ c.connectedMsgs.msgs = p.frames := by
  rcases hp.cases_traffic with ⟨hbefore, hlt | hframes⟩ | ⟨t, ht, -, hmsgs⟩
  · rw [bytes, List.length_append] at hlt
    omega
  · rw [hbefore.1, hbefore.2, hframes]
    rfl
  · rw [hmsgs, ← List.append_cancel_left ht, split_frames]

end Progress

/-! ### Runs -/

/-- One read after another. -/
theorem take_of_concat_isPrefix {rs rd : List MsgSeq} {b : MsgSeq} (h : rd ++ [b] <+: rs) :
    rd.length < rs.length ∧ rs.take rd.length = rd ∧ rs.take (rd.length + 1) = rd ++ [b] := by
  have hlen : (rd ++ [b]).length = rd.length + 1 := List.length_append
  refine ⟨?_, ?_, ?_⟩
  · have := h.length_le
    omega
  · exact (List.prefix_iff_eq_take.mp ((List.prefix_append _ _).trans h)).symm
  · rw [← hlen]
    exact (List.prefix_iff_eq_take.mp h).symm

theorem flatten_isPrefix {rs rd : List MsgSeq} (h : rd <+: rs) : rd.flatten <+: rs.flatten := by
  obtain ⟨rest, rfl⟩ := h
  rw [List.flatten_append]
  exact List.prefix_append _ _

theorem flatten_concat (rd : List MsgSeq) (b : MsgSeq) :
    (rd ++ [b]).flatten = rd.flatten ++ b := by
  rw [List.flatten_append, List.flatten_singleton]

/-- **Where a run has got to.** -/
theorem progress_of_run {rs : List MsgSeq} (hrs : rs.flatten = p.bytes) (hcut : p.SafelyCut rs)
    (peerName : Str) (es : List Event) : ∀ {c}, reads es <+: rs →
      run (NodeConnection.step node) (startHandshakeAsA node ownChallenge peerName) es = some c →
        p.Progress (reads es).flatten c := by
  induction es using List.reverseRecOn with
  | nil =>
    intro c _ h
    obtain rfl := Option.some_inj.mp h
    exact .sendingName ⟨⟨by rintro ⟨⟩, rfl, rfl, rfl⟩, rfl, rfl, rfl, rfl, ⟨_, rfl⟩, rfl⟩
  | append_singleton es e ih =>
    intro c' hpre h
    obtain ⟨c, hc, hstep⟩ := run_concat_eq_some.mp h
    rw [reads_concat] at hpre ⊢
    have hp := ih ((List.prefix_append _ _).trans hpre) hc
    rcases e.ne_read_or_eq with hne | ⟨b, rfl⟩
    · rw [chunk_of_ne_read hne, List.append_nil]
      exact hp.step_of_ne_read hne hstep
    · obtain ⟨hlt, hbefore, hnow⟩ := take_of_concat_isPrefix hpre
      have hend := hcut.end_of_ack _ hlt
      have hapart := fun hframes => hcut.not_with_challenge hframes _ hlt
      rw [hnow, hbefore, flatten_concat] at hend hapart
      have hread := flatten_isPrefix hpre
      rw [chunk, flatten_concat] at hread ⊢
      rw [hrs] at hread
      exact hp.step_read hstep hread hend hapart
        (fieldsFit_flatten p.frames_isFrame hcut.frames_fit)

/-- With reads that are safely cut, no read of the handshake is undefined. -/
theorem not_undefined_of_safelyCut {rs : List MsgSeq} (hrs : rs.flatten = p.bytes)
    (hcut : p.SafelyCut rs) (peerName : Str) {es : List Event} {b : MsgSeq}
    (hes : reads es ++ [b] <+: rs) {c : NodeConnection}
    (h : run (NodeConnection.step node) (startHandshakeAsA node ownChallenge peerName) es =
      some c) (hstate : c.state ≠ .connected) : ¬ c.Undefined node (.read b) := by
  intro hundefined
  obtain ⟨hpending, hpos, -⟩ := hundefined.1
  obtain ⟨hlt, hbefore, -⟩ := take_of_concat_isPrefix hes
  have hapart := hcut.challenge_with_status _ hlt.le
  rw [hbefore] at hapart
  have hread := flatten_isPrefix hes
  rw [flatten_concat, hrs] at hread
  have hp := progress_of_run hrs hcut peerName es ((List.prefix_append _ _).trans hes) h
  generalize (reads es).flatten = T at hapart hread hp
  cases hp with
  | sendingName hc => exact hpending hc.pendingRead
  | awaitingStatus hc =>
    cases ((hc.undefined_read_iff (by rintro ⟨⟩)).mp hundefined).2.1
  | awaitingChallenge _ hu hne =>
    have := length_lt_of_isPrefix hu hne
    simp only [List.length_append] at hapart
    omega
  | sendingReply hc => exact hpending hc.pendingRead
  | awaitingAck hc =>
    cases ((hc.undefined_read_iff (by rintro ⟨⟩)).mp hundefined).2.1
  | connected hc => exact hstate hc.state
  | givenUp hc => exact hpending hc.waits.1
  | allRead hframes =>
    rw [bytes, hframes, List.flatten_nil] at hread
    have hnil := List.prefix_nil.mp ((List.prefix_append_right_inj _).mp hread)
    rw [hnil] at hpos
    exact Nat.lt_irrefl _ hpos

/-- **No bytes are lost when the handshake ends**, in any run of an originator whose reads are
safely cut. -/
theorem noBytesLost_of_safelyCut {rs : List MsgSeq} (hrs : rs.flatten = p.bytes)
    (hcut : p.SafelyCut rs) (peerName : Str) {es : List Event} (hes : reads es <+: rs)
    {c : NodeConnection}
    (h : run (NodeConnection.step node) (startHandshakeAsA node ownChallenge peerName) es =
      some c) : p.NoBytesLost rs es c := by
  have hp := progress_of_run hrs hcut peerName es hes h
  refine ⟨hp.handled_isPrefix, fun hall => ?_⟩
  rw [hall, hrs] at hp
  exact hp.all_of_bytes

end PeerStream

end TinchPp
