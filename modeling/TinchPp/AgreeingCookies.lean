import Mathlib.Data.Set.Function
import TinchPp.Endpoints

/-!
# Two nodes and their cookies

Both ends of a handshake. A node in the role of the originator and one in that of the acceptor each
have their own connection, and between the two there is a stream of bytes in either direction. Once
a node is connected, it makes any requests.

The two ends take turns. `OriginatorStage` and `AcceptorStage` say for each end alone how far it is,
with what it has sent and received so far. That the one has received what the other one has sent
rules out most pairs of stages.

## Main results

* `CookiePair.OriginatorStage.moves`, `CookiePair.AcceptorStage.moves` — what a step at one end does
* `CookiePair.wf_of_run` — how far the two ends are in any run
* `CookiePair.Wf.undefined_iff` — where a handshake is undefined
* `CookiePair.connected_iff_cookie_eq` — otherwise, the nodes connect exactly if they have the same
  cookie
-/

namespace TinchPp

open EventSystem NodeConnection PeerStream

/-! ### Both ends -/

/-- The length of a name fits into the handshake messages. -/
def NodeAccess.NameFits (node : NodeAccess) : Prop := node.name ≠ [] ∧ node.name.length ≤ 65524

instance (node : NodeAccess) : Decidable node.NameFits :=
  inferInstanceAs (Decidable (node.name ≠ [] ∧ node.name.length ≤ 65524))

/-- Two nodes running this code, A as the originator and B as the acceptor, and the challenges they
have picked. -/
structure CookiePair where
  a : NodeAccess
  b : NodeAccess
  challengeA : UInt32
  challengeB : UInt32
  nameFitsA : a.NameFits
  nameFitsB : b.NameFits
  md5_eq : b.md5 = a.md5

/-- The state of a connection between two nodes. -/
structure ConnectionPair where
  originator : Endpoint
  acceptor : Endpoint

inductive PairEvent
  | originator (e : EndpointEvent)
  | acceptor (e : EndpointEvent)

/-- Nothing is in flight and no write is to be completed. -/
structure ConnectionPair.Quiet (t : ConnectionPair) : Prop where
  toOriginator : t.originator.received = t.acceptor.sent
  toAcceptor : t.acceptor.received = t.originator.sent
  originator : t.originator.connection.writing = false
  acceptor : t.acceptor.connection.writing = false

namespace CookiePair

variable (q : CookiePair)

/-- The originator calls its peer by the name that it has connected to. -/
def start (peerName : Str) : ConnectionPair where
  originator := .start (startHandshakeAsA q.a q.challengeA peerName)
  acceptor := .start (startHandshakeAsB q.challengeB)

def step (t : ConnectionPair) : PairEvent → Option ConnectionPair
  | .originator e =>
    (t.originator.step q.a t.acceptor.sent e).map fun p => { t with originator := p }
  | .acceptor e =>
    (t.acceptor.step q.b t.originator.sent e).map fun p => { t with acceptor := p }

/-- The end that an event is about. -/
def endOf (t : ConnectionPair) : PairEvent → Endpoint
  | .originator _ => t.originator
  | .acceptor _ => t.acceptor

/-- The event can happen, and what the code does then is undefined. -/
def Undefined (t : ConnectionPair) : PairEvent → Prop
  | .originator e => t.originator.Undefined q.a t.acceptor.sent e
  | .acceptor e => t.acceptor.Undefined q.b t.originator.sent e

/-! The messages of the handshake, in their order. -/

def nameMsg : MsgSeq := sendName q.a.name

def statusMsg : MsgSeq := receiveStatusG (bytesOf "ok")

def challengeMsg : MsgSeq := sendChallengeG q.challengeB q.b.name

def replyMsg : MsgSeq :=
  challengeReply ⟨q.challengeA, q.a.calculateDigest q.challengeB q.a.cookie⟩

def ackMsg : MsgSeq := sendChallengeAckG (q.b.calculateDigest q.challengeA q.b.cookie)

/-- The originator reads the end of the challenge, and has read the end of the status before. -/
def ReadsChallengeApart (t : ConnectionPair) : PairEvent → Prop
  | .originator (.read n) =>
    let bytes := (t.originator.incoming t.acceptor.sent).take n
    statusMsg.length ≤ t.originator.received.length ∧
      t.originator.received.length < (statusMsg ++ q.challengeMsg).length ∧
        (statusMsg ++ q.challengeMsg).length ≤ (t.originator.received ++ bytes).length ∧
          bytes.length ≤ readBufferSize
  | _ => False

/-- What the two nodes calculate digests of. -/
def digested : Set Str :=
  { s | ∃ cookie challenge, (cookie = q.a.cookie ∨ cookie = q.b.cookie) ∧
    (challenge = q.challengeA ∨ challenge = q.challengeB) ∧
      s = cookie ++ bytesOf (toString challenge.toNat) }

variable {q} {c c' : NodeConnection} {inc v : MsgSeq} {rest : List MsgSeq}

/-! ### The messages of the handshake -/

theorem isFrame_nameMsg (q : CookiePair) : handshakeFraming.IsFrame q.nameMsg :=
  isFrame_sendName (by have := q.nameFitsA.2; omega)

theorem isFrame_statusMsg : handshakeFraming.IsFrame statusMsg := by decide

theorem isFrame_challengeMsg (q : CookiePair) : handshakeFraming.IsFrame q.challengeMsg :=
  isFrame_sendChallengeG _ (by have := q.nameFitsB.2; omega)

theorem isFrame_replyMsg (q : CookiePair) : handshakeFraming.IsFrame q.replyMsg :=
  isFrame_challengeReply (q.a.length_calculateDigest _ _)

theorem isFrame_ackMsg (q : CookiePair) : handshakeFraming.IsFrame q.ackMsg :=
  isFrame_sendChallengeAckG (q.b.length_calculateDigest _ _)

theorem parse_replyMsg (q : CookiePair) :
    parse q.replyMsg challengeReplyP ChallengeReplyAttributes.init =
      some ⟨q.challengeA, q.a.calculateDigest q.challengeB q.a.cookie⟩ :=
  parse_challengeReply (q.a.length_calculateDigest _ _)

/-- **The digests of a challenge** are the same exactly if the cookies are. -/
theorem calculateDigest_eq_iff (hinj : Set.InjOn q.a.md5 q.digested) {challenge : UInt32}
    (hchallenge : challenge = q.challengeA ∨ challenge = q.challengeB) :
    q.b.calculateDigest challenge q.b.cookie = q.a.calculateDigest challenge q.a.cookie ↔
      q.a.cookie = q.b.cookie := by
  rw [NodeAccess.calculateDigest, NodeAccess.calculateDigest, q.md5_eq, Vector.toList_inj]
  constructor
  · intro hdigest
    have htext := hinj ⟨_, _, .inr rfl, hchallenge, rfl⟩ ⟨_, _, .inl rfl, hchallenge, rfl⟩ hdigest
    exact (List.append_cancel_right htext).symm
  · intro hcookie
    rw [hcookie]

/-! ### The callbacks, on these messages -/

/-- The name is supported, and the acceptor answers it with the status and the challenge. -/
theorem nameRead (hc : Runs q.challengeB ⟨inc, q.nameMsg :: rest⟩ c)
    (h : c.nameRead q.b .handshake = some c') :
    WritesMsg q.challengeB .sendingStatus ⟨inc, rest⟩ statusMsg .ignoreWriteNotification
        [(q.challengeMsg, .challengeWritten)] c' ∧
      c'.peerName = some q.a.name := by
  obtain ⟨c₁, hnext, hc₁, -⟩ := hc.nextMessage
  have hparse : parse q.nameMsg sendNameP SentName.init = some _ := parse_sendName q.nameFitsA.1
  rw [NodeConnection.nameRead, hnext] at h
  dsimp only at h
  rw [hparse] at h
  dsimp only at h
  have hversion (name : Str) :
      supportedVersion ⟨5, Int32.ofNat Constants.capabilities.toNat, name⟩ = true := rfl
  rw [if_pos (hversion _)] at h
  obtain rfl := Option.some_inj.mp h
  refine ⟨⟨⟨by rintro ⟨⟩, hc₁.receivedMsgs, hc₁.beforeTraffic⟩, rfl, hc₁.ownChallenge_eq,
    hc₁.handshakeMsgs, hc₁.pendingRead, ?_, ?_⟩, rfl⟩
  · simp [changeState, sendStatusAndChallenge, triggerCheckedWrite, triggerWrite, gotPeerName,
      hc₁.writeQueue, hc₁.ownChallenge_eq, statusMsg, challengeMsg]
  · simp [changeState, sendStatusAndChallenge, triggerCheckedWrite, triggerWrite, gotPeerName,
      hc₁.writeQueue]

/-- The originator answers the challenge, if its state is held. -/
theorem challengeRead {held : Bool} (hc : Runs q.challengeA ⟨inc, q.challengeMsg :: rest⟩ c)
    (h : c.challengeRead q.a held .handshake = some c') : held = true ∧
    WritesMsg q.challengeA .sendingChallengeReply ⟨inc, rest⟩ q.replyMsg .replySent [] c' := by
  obtain ⟨c₁, hnext, hc₁, -⟩ := hc.nextMessage
  have hparse : parse q.challengeMsg recvChallenge ChallengeAttributes.init = some _ :=
    parse_sendChallengeG q.challengeB q.nameFitsB.1
  obtain ⟨hheld, rfl⟩ := held_of_challengeRead hnext hparse h
  have hreply : replyMsg q =
      challengeReply ⟨c₁.ownChallenge, q.a.calculateDigest q.challengeB q.a.cookie⟩ := by
    rw [replyMsg, hc₁.ownChallenge_eq]
  rw [hreply]
  exact ⟨hheld, hc₁.writesMsg (by rintro ⟨⟩) _ .replySent⟩

/-- The status is accepted. The challenge, or a part of it, may have come along. -/
theorem statusRead (hv : v <+: q.challengeMsg)
    (hc : Runs q.challengeA ⟨(handshakeFraming.split v).2,
      statusMsg :: (handshakeFraming.split v).1⟩ c)
    (h : c.statusRead q.a .handshake = some c') :
    v ≠ q.challengeMsg ∧
        WaitsFor q.challengeA .receivingChallenge .challengeRead ⟨v, []⟩ c' ∨
      v = q.challengeMsg ∧
        WritesMsg q.challengeA .sendingChallengeReply .empty q.replyMsg .replySent [] c' := by
  obtain ⟨c₁, hnext, hc₁, -⟩ := hc.nextMessage
  have hparse : parse statusMsg receiveStatus [] = some _ := parse_receiveStatusG (by decide)
  rw [NodeConnection.statusRead, hnext] at h
  dsimp only at h
  rw [hparse] at h
  dsimp only at h
  rw [dispatchStatus, if_pos (by decide), receiveChallenge] at h
  have hmoved : Runs q.challengeA ⟨(handshakeFraming.split v).2, (handshakeFraming.split v).1⟩
      (c₁.changeState .receivingChallenge) :=
    ⟨⟨⟨by rintro ⟨⟩, hc₁.receivedMsgs, hc₁.beforeTraffic⟩, hc₁.pendingRead, hc₁.writeQueue,
      hc₁.writing⟩, hc₁.ownChallenge_eq, hc₁.handshakeMsgs⟩
  rw [lexer, hmoved.handshakeMsgs] at h
  by_cases hwhole : v = q.challengeMsg
  · have hsplit := Framing.split_frame_append (s := []) q.isFrame_challengeMsg
    rw [List.append_nil, Framing.split_nil, ← hwhole] at hsplit
    rw [hsplit] at hmoved h
    rw [if_pos (by simp [MsgLexer.hasCompleteMsg])] at h
    rw [hwhole] at hmoved
    exact .inr ⟨hwhole, (challengeRead hmoved h).2⟩
  · have hsplit := q.isFrame_challengeMsg.split_of_isPrefix hv hwhole
    rw [hsplit] at hmoved h
    rw [if_neg (by simp [MsgLexer.hasCompleteMsg])] at h
    obtain rfl := Option.some_inj.mp h
    exact .inl ⟨hwhole, hmoved.waitsFor (by rintro ⟨⟩) .challengeRead⟩

/-- The acceptor compares the digests. -/
theorem replyReceived (hinj : Set.InjOn q.a.md5 q.digested)
    (hc : Runs q.challengeB ⟨inc, q.replyMsg :: rest⟩ c)
    (h : c.replyReceived q.b .handshake = some c') :
    q.a.cookie = q.b.cookie ∧ WritesMsg q.challengeB .sendingChallengeAck ⟨inc, rest⟩ q.ackMsg
        .challengeAckWritten [] c' ∨
      q.a.cookie ≠ q.b.cookie ∧ c'.GivenUp := by
  obtain ⟨c₁, hnext, hc₁, -⟩ := hc.nextMessage
  rw [NodeConnection.replyReceived, hnext] at h
  dsimp only at h
  rw [parse_replyMsg] at h
  dsimp only at h
  have hcorrect : c₁.isCorrect q.b (q.a.calculateDigest q.challengeB q.a.cookie) = true ↔
      q.a.cookie = q.b.cookie := by
    rw [isCorrect, hc₁.ownChallenge_eq, decide_eq_true_iff]
    exact calculateDigest_eq_iff hinj (.inr rfl)
  split at h
  · next hdigest =>
    obtain rfl := Option.some_inj.mp h
    exact .inl ⟨hcorrect.mp hdigest, hc₁.writesMsg (by rintro ⟨⟩) q.ackMsg .challengeAckWritten⟩
  · next hdigest =>
    obtain rfl := Option.some_inj.mp h
    exact .inr ⟨fun hcookie => hdigest (hcorrect.mpr hcookie), (hc₁.toRunning.reportFailure _).givenUp⟩

/-- The originator does so after that, and is connected. -/
theorem challengeAckRead (hcookie : q.a.cookie = q.b.cookie)
    (hc : Runs q.challengeA ⟨inc, q.ackMsg :: rest⟩ c)
    (h : c.challengeAckRead q.a .handshake = some c') : c'.Connected := by
  obtain ⟨c₁, hnext, hc₁, -⟩ := hc.nextMessage
  have hparse : parse q.ackMsg recvChallengeAckP [] = some _ :=
    parse_sendChallengeAckG (q.b.length_calculateDigest _ _)
  have hcorrect : c₁.isCorrect q.a (q.b.calculateDigest q.challengeA q.b.cookie) = true := by
    rw [isCorrect, hc₁.ownChallenge_eq, NodeAccess.calculateDigest, NodeAccess.calculateDigest,
      q.md5_eq, hcookie]
    exact decide_eq_true rfl
  rw [NodeConnection.challengeAckRead, hnext] at h
  dsimp only at h
  rw [hparse] at h
  dsimp only at h
  rw [if_pos hcorrect] at h
  obtain rfl := Option.some_inj.mp h
  exact hc₁.toRunning.makeTransitionToConnected.1

/-! ### How far an end is -/

variable {p p' : Endpoint} {peerSent : MsgSeq}

/-- How far the originator is. -/
inductive OriginatorStage (q : CookiePair) (p : Endpoint) : Prop
  | sendingName
      (hp : p.Sending q.challengeA .connectedTcp .empty q.nameMsg .handshakeSent [] [])
      (hreceived : p.received = [])
  | awaitingStatus {u} (hp : p.Awaiting q.challengeA .waitingForStatus .statusRead u)
      (hu : u <+: statusMsg) (hne : u ≠ statusMsg) (hsent : p.sent = q.nameMsg)
      (hreceived : p.received = u)
  | awaitingChallenge {u} (hp : p.Awaiting q.challengeA .receivingChallenge .challengeRead u)
      (hu : u <+: q.challengeMsg) (hne : u ≠ q.challengeMsg) (hsent : p.sent = q.nameMsg)
      (hreceived : p.received = statusMsg ++ u)
  | sendingReply
      (hp : p.Sending q.challengeA .sendingChallengeReply .empty q.replyMsg .replySent [] q.nameMsg)
      (hreceived : p.received = statusMsg ++ q.challengeMsg)
  | awaitingAck {u} (hp : p.Awaiting q.challengeA .receivingChallengeAck .challengeAckRead u)
      (hu : u <+: q.ackMsg) (hne : u ≠ q.ackMsg) (hsent : p.sent = q.nameMsg ++ q.replyMsg)
      (hreceived : p.received = statusMsg ++ q.challengeMsg ++ u)
  | connected (hp : p.connection.Connected) (hcookie : q.a.cookie = q.b.cookie)
      (hsent : q.nameMsg ++ q.replyMsg <+: p.sent)
      (hreceived : statusMsg ++ q.challengeMsg ++ q.ackMsg <+: p.received)

/-- How far the acceptor is. It may have got more behind the reply, which nobody reads. -/
inductive AcceptorStage (q : CookiePair) (p : Endpoint) : Prop
  | awaitingName {u} (hp : p.Awaiting q.challengeB .connectedTcp .nameRead u)
      (hu : u <+: q.nameMsg) (hne : u ≠ q.nameMsg) (hsent : p.sent = []) (hreceived : p.received = u)
  | sendingStatus
      (hp : p.Sending q.challengeB .sendingStatus .empty statusMsg .ignoreWriteNotification
        [(q.challengeMsg, .challengeWritten)] [])
      (hname : p.connection.peerName = some q.a.name) (hreceived : p.received = q.nameMsg)
  | sendingChallenge
      (hp : p.Sending q.challengeB .sendingStatus .empty q.challengeMsg .challengeWritten []
        statusMsg)
      (hname : p.connection.peerName = some q.a.name) (hreceived : p.received = q.nameMsg)
  | awaitingReply {u} (hp : p.Awaiting q.challengeB .waitingForChallengeReply .replyReceived u)
      (hname : p.connection.peerName = some q.a.name) (hu : u <+: q.replyMsg)
      (hne : u ≠ q.replyMsg) (hsent : p.sent = statusMsg ++ q.challengeMsg)
      (hreceived : p.received = q.nameMsg ++ u)
  | givenUp (hp : p.connection.GivenUp) (hcookie : q.a.cookie ≠ q.b.cookie)
      (hsent : p.sent = statusMsg ++ q.challengeMsg)
      (hreceived : q.nameMsg ++ q.replyMsg <+: p.received)
  | sendingAck {l}
      (hp : p.Sending q.challengeB .sendingChallengeAck l q.ackMsg .challengeAckWritten []
        (statusMsg ++ q.challengeMsg))
      (hname : p.connection.peerName = some q.a.name) (hcookie : q.a.cookie = q.b.cookie)
      (hreceived : q.nameMsg ++ q.replyMsg <+: p.received)
  | connected (hp : p.connection.Connected) (hname : p.connection.peerName = some q.a.name)
      (hcookie : q.a.cookie = q.b.cookie)
      (hsent : statusMsg ++ q.challengeMsg ++ q.ackMsg <+: p.sent)
      (hreceived : q.nameMsg ++ q.replyMsg <+: p.received)

/-- **A step of the originator.** The acceptor has sent its status and its challenge, or a part of
that, or has seen the reply and sent the ack as well. -/
theorem OriginatorStage.moves (hp : OriginatorStage q p)
    (hpeer : peerSent <+: statusMsg ++ q.challengeMsg ∨
      statusMsg ++ q.challengeMsg ++ q.ackMsg <+: peerSent ∧
        q.nameMsg ++ q.replyMsg <+: p.sent ∧ q.a.cookie = q.b.cookie)
    (h : p.Moves q.a peerSent p') : OriginatorStage q p' := by
  -- before the reply there is no ack
  have hbefore (hsent : p.sent = q.nameMsg) : peerSent <+: statusMsg ++ q.challengeMsg := by
    rcases hpeer with hpeer | ⟨-, hreply, -⟩
    · exact hpeer
    · rw [hsent] at hreply
      exact absurd hreply (Framing.not_append_isPrefix q.isFrame_replyMsg.ne_nil)
  cases hp with
  | sendingName hp hreceived =>
    obtain ⟨hsame, hp' | ⟨hhandedOver, hsent, hc⟩⟩ := hp.moves h
    · exact .sendingName hp' (hsame.trans hreceived)
    · exact .awaitingStatus (hp.awaiting (by rintro ⟨⟩) hc hhandedOver) List.nil_prefix
        isFrame_statusMsg.ne_nil.symm hsent (hsame.trans hreceived)
  | @awaitingStatus u hp hu hne hsent hreceived =>
    rcases hp.moves h with rfl | ⟨bytes, c, hbytes, hc, rfl⟩
    · exact .awaitingStatus hp hu hne hsent hreceived
    · have hreceived' : p.received ++ bytes = u ++ bytes := by rw [hreceived]
      rw [hreceived'] at hbytes
      have hpre := hbytes.trans (hbefore hsent)
      rcases hp.read isFrame_statusMsg
        (List.prefix_or_prefix_of_prefix hpre (List.prefix_append _ _)) hc with
        ⟨hX, hneX, hp'⟩ | ⟨v, c₀, hv, hc₀, hread⟩
      · exact .awaitingStatus hp' hX hneX hsent hreceived'
      · rw [hv] at hreceived' hpre
        have hvpre := (List.prefix_append_right_inj _).mp hpre
        rcases statusRead hvpre hc₀ hread with ⟨hneC, hw⟩ | ⟨rfl, hw⟩
        · exact .awaitingChallenge ⟨hw, hp.handedOver⟩ hvpre hneC hsent hreceived'
        · exact .sendingReply (hp.sending hw hsent) hreceived'
  | @awaitingChallenge u hp hu hne hsent hreceived =>
    rcases hp.moves h with rfl | ⟨bytes, c, hbytes, hc, rfl⟩
    · exact .awaitingChallenge hp hu hne hsent hreceived
    · have hreceived' : p.received ++ bytes = statusMsg ++ (u ++ bytes) := by
        rw [hreceived, List.append_assoc]
      rw [hreceived'] at hbytes
      have hpre := (List.prefix_append_right_inj _).mp (hbytes.trans (hbefore hsent))
      rcases hp.read_all q.isFrame_challengeMsg hpre hc with
        ⟨hneX, hp'⟩ | ⟨-, c₀, hc₀, hread⟩
      · exact .awaitingChallenge hp' hpre hneX hsent hreceived'
      · -- nobody holds the state
        cases (challengeRead hc₀ hread).1
  | sendingReply hp hreceived =>
    obtain ⟨hsame, hp' | ⟨hhandedOver, hsent, hc⟩⟩ := hp.moves h
    · exact .sendingReply hp' (hsame.trans hreceived)
    · exact .awaitingAck (hp.awaiting (by rintro ⟨⟩) hc hhandedOver) List.nil_prefix
        q.isFrame_ackMsg.ne_nil.symm hsent
        (hsame.trans (hreceived.trans (List.append_nil _).symm))
  | @awaitingAck u hp hu hne hsent hreceived =>
    rcases hp.moves h with rfl | ⟨bytes, c, hbytes, hc, rfl⟩
    · exact .awaitingAck hp hu hne hsent hreceived
    · have hreceived' : p.received ++ bytes = statusMsg ++ q.challengeMsg ++ (u ++ bytes) := by
        rw [hreceived, List.append_assoc _ u]
      rw [hreceived'] at hbytes
      rcases hpeer with hpeer | ⟨hack, hreply, hcookie⟩
      · -- there is nothing to be read
        have hmore := List.append_ne_nil_of_right_ne_nil u (NodeConnection.step_read hc).1
        exact absurd (hbytes.trans hpeer) (Framing.not_append_isPrefix hmore)
      · have hcases := List.prefix_or_prefix_of_prefix hbytes hack
        rw [List.prefix_append_right_inj, List.prefix_append_right_inj] at hcases
        rcases hp.read q.isFrame_ackMsg hcases hc with
          ⟨hX, hneX, hp'⟩ | ⟨v, c₀, hv, hc₀, hread⟩
        · exact .awaitingAck hp' hX hneX hsent hreceived'
        · refine .connected (challengeAckRead hcookie hc₀ hread) hcookie hreply ?_
          rw [hreceived', hv, ← List.append_assoc]
          exact List.prefix_append _ _
  | connected hp hcookie hsent hreceived =>
    exact .connected (h.connected hp) hcookie (hsent.trans h.sent_isPrefix)
      (hreceived.trans h.received_isPrefix)

/-- **A step of the acceptor.** The originator has sent its name, or a part of that, or has seen the
challenge and sent the reply as well. -/
theorem AcceptorStage.moves (hinj : Set.InjOn q.a.md5 q.digested) (hp : AcceptorStage q p)
    (hpeer : peerSent <+: q.nameMsg ∨
      q.nameMsg ++ q.replyMsg <+: peerSent ∧ statusMsg ++ q.challengeMsg <+: p.sent)
    (h : p.Moves q.b peerSent p') : AcceptorStage q p' := by
  cases hp with
  | @awaitingName u hp hu hne hsent hreceived =>
    rcases hp.moves h with rfl | ⟨bytes, c, hbytes, hc, rfl⟩
    · exact .awaitingName hp hu hne hsent hreceived
    · have hreceived' : p.received ++ bytes = u ++ bytes := by rw [hreceived]
      rw [hreceived'] at hbytes
      have hpre : u ++ bytes <+: q.nameMsg := by
        rcases hpeer with hpeer | ⟨-, hchallenge⟩
        · exact hbytes.trans hpeer
        · rw [hsent] at hchallenge
          exact absurd (List.prefix_nil.mp hchallenge)
            (List.append_ne_nil_of_left_ne_nil isFrame_statusMsg.ne_nil _)
      rcases hp.read_all q.isFrame_nameMsg hpre hc with
        ⟨hneX, hp'⟩ | ⟨hwhole, c₀, hc₀, hread⟩
      · exact .awaitingName hp' hpre hneX hsent hreceived'
      · rw [hwhole] at hreceived'
        obtain ⟨hw, hname⟩ := nameRead hc₀ hread
        exact .sendingStatus (hp.sending hw hsent) hname hreceived'
  | sendingStatus hp hname hreceived =>
    have hname' := (hp.peerName_eq h).trans hname
    obtain ⟨hsame, hp' | ⟨hhandedOver, hsent, hc⟩⟩ := hp.moves h
    · exact .sendingStatus hp' hname' (hsame.trans hreceived)
    · refine .sendingChallenge ⟨?_, ?_⟩ hname' (hsame.trans hreceived)
      · rw [hc]
        exact ⟨⟨hp.state_ne, hp.receivedMsgs, hp.beforeTraffic⟩, hp.state_eq, hp.ownChallenge_eq,
          hp.handshakeMsgs, hp.pendingRead, rfl, rfl⟩
      · rw [hsent, hhandedOver]
        simp
  | sendingChallenge hp hname hreceived =>
    have hname' := (hp.peerName_eq h).trans hname
    obtain ⟨hsame, hp' | ⟨hhandedOver, hsent, hc⟩⟩ := hp.moves h
    · exact .sendingChallenge hp' hname' (hsame.trans hreceived)
    · exact .awaitingReply (hp.awaiting (by rintro ⟨⟩) hc hhandedOver) hname' List.nil_prefix
        q.isFrame_replyMsg.ne_nil.symm hsent
        (hsame.trans (hreceived.trans (List.append_nil _).symm))
  | @awaitingReply u hp hname hu hne hsent hreceived =>
    have hname' := (h.peerName_eq fun k hread => by cases hp.pendingRead.symm.trans hread).trans
      hname
    rcases hp.moves h with rfl | ⟨bytes, c, hbytes, hc, rfl⟩
    · exact .awaitingReply hp hname hu hne hsent hreceived
    · have hreceived' : p.received ++ bytes = q.nameMsg ++ (u ++ bytes) := by
        rw [hreceived, List.append_assoc]
      rw [hreceived'] at hbytes
      rcases hpeer with hpeer | ⟨hreply, -⟩
      · -- there is nothing to be read
        have hmore := List.append_ne_nil_of_right_ne_nil u (NodeConnection.step_read hc).1
        exact absurd (hbytes.trans hpeer) (Framing.not_append_isPrefix hmore)
      · have hcases := List.prefix_or_prefix_of_prefix hbytes hreply
        rw [List.prefix_append_right_inj, List.prefix_append_right_inj] at hcases
        rcases hp.read q.isFrame_replyMsg hcases hc with
          ⟨hX, hneX, hp'⟩ | ⟨v, c₀, hv, hc₀, hread⟩
        · exact .awaitingReply hp' hname' hX hneX hsent hreceived'
        · have hall : q.nameMsg ++ q.replyMsg <+: p.received ++ bytes := by
            rw [hreceived', hv, ← List.append_assoc]
            exact List.prefix_append _ _
          rcases replyReceived hinj hc₀ hread with ⟨hcookie, hw⟩ | ⟨hcookie, hc'⟩
          · exact .sendingAck (hp.sending hw hsent) hname' hcookie hall
          · exact .givenUp hc' hcookie hsent hall
  | givenUp hp hcookie hsent hreceived =>
    obtain ⟨hc, hsent'⟩ := h.givenUp hp
    exact .givenUp hc hcookie (hsent'.trans hsent) (hreceived.trans h.received_isPrefix)
  | sendingAck hp hname hcookie hreceived =>
    have hname' := (hp.peerName_eq h).trans hname
    obtain ⟨hsame, hp' | ⟨-, hsent, hc⟩⟩ := hp.moves h
    · exact .sendingAck hp' hname' hcookie (by rwa [hsame])
    · refine .connected ?_ hname' hcookie (by rw [hsent]) (by rwa [hsame])
      rw [hc]
      exact hp.runs.toRunning.makeTransitionToConnected.1
  | connected hp hname hcookie hsent hreceived =>
    refine .connected (h.connected hp) ((h.peerName_eq fun k hread => ?_).trans hname) hcookie
      (hsent.trans h.sent_isPrefix) (hreceived.trans h.received_isPrefix)
    rcases hp.pendingRead with hread' | hread' <;> cases hread'.symm.trans hread

/-! ### How far both ends are -/

variable {t t' : ConnectionPair} {peerName : Str} {es : List PairEvent}

/-- What the originator has sent, and what it has seen before. -/
theorem OriginatorStage.sent_cases (hp : OriginatorStage q p) : p.sent <+: q.nameMsg ∨
    q.nameMsg ++ q.replyMsg <+: p.sent ∧ statusMsg ++ q.challengeMsg <+: p.received := by
  cases hp with
  | sendingName hp =>
    rw [hp.sent]
    split
    · exact .inl List.prefix_rfl
    · exact .inl List.nil_prefix
  | awaitingStatus _ _ _ hsent | awaitingChallenge _ _ _ hsent => exact .inl (by rw [hsent])
  | sendingReply hp hreceived =>
    rw [hp.sent, hreceived]
    split
    · exact .inr ⟨List.prefix_rfl, List.prefix_rfl⟩
    · exact .inl (by rw [List.append_nil])
  | awaitingAck _ _ _ hsent hreceived =>
    rw [hsent, hreceived]
    exact .inr ⟨List.prefix_rfl, List.prefix_append _ _⟩
  | connected _ _ hsent hreceived =>
    exact .inr ⟨hsent, (List.prefix_append _ _).trans hreceived⟩

/-- What the acceptor has sent, and what it has seen before. -/
theorem AcceptorStage.sent_cases (hp : AcceptorStage q p) :
    p.sent <+: statusMsg ++ q.challengeMsg ∨ statusMsg ++ q.challengeMsg ++ q.ackMsg <+: p.sent ∧
      q.nameMsg ++ q.replyMsg <+: p.received ∧ q.a.cookie = q.b.cookie := by
  cases hp with
  | awaitingName _ _ _ hsent => exact .inl (by rw [hsent]; exact List.nil_prefix)
  | sendingStatus hp =>
    rw [hp.sent]
    split
    · exact .inl (List.prefix_append _ _)
    · exact .inl List.nil_prefix
  | sendingChallenge hp =>
    rw [hp.sent]
    split
    · exact .inl List.prefix_rfl
    · exact .inl (by rw [List.append_nil]; exact List.prefix_append _ _)
  | awaitingReply _ _ _ _ hsent | givenUp _ _ hsent => exact .inl (by rw [hsent])
  | sendingAck hp _ hcookie hreceived =>
    rw [hp.sent]
    split
    · exact .inr ⟨List.prefix_rfl, hreceived, hcookie⟩
    · exact .inl (by rw [List.append_nil])
  | connected _ _ hcookie hsent hreceived => exact .inr ⟨hsent, hreceived, hcookie⟩

/-- What is true in every run. -/
structure Wf (q : CookiePair) (t : ConnectionPair) : Prop where
  originator : OriginatorStage q t.originator
  acceptor : AcceptorStage q t.acceptor
  toOriginator : t.originator.received <+: t.acceptor.sent
  toAcceptor : t.acceptor.received <+: t.originator.sent

theorem wf_start (q : CookiePair) (peerName : Str) : Wf q (q.start peerName) where
  originator := .sendingName
    ⟨⟨⟨by rintro ⟨⟩, rfl, rfl, rfl⟩, rfl, rfl, rfl, rfl, rfl, rfl⟩, rfl⟩ rfl
  acceptor := .awaitingName
    ⟨⟨⟨by rintro ⟨⟩, rfl, rfl, rfl⟩, rfl, rfl, rfl, rfl, rfl, rfl⟩, rfl⟩ List.nil_prefix
      q.isFrame_nameMsg.ne_nil.symm rfl rfl
  toOriginator := List.nil_prefix
  toAcceptor := List.nil_prefix

theorem Wf.step (hinj : Set.InjOn q.a.md5 q.digested) (ht : Wf q t) {e : PairEvent}
    (h : q.step t e = some t') : Wf q t' := by
  cases e with
  | originator e =>
    obtain ⟨p, hp, rfl⟩ := Option.map_eq_some_iff.mp h
    have hmoves := Endpoint.moves_of_step ht.toOriginator hp
    refine ⟨ht.originator.moves ?_ hmoves, ht.acceptor,
      hmoves.received_isPrefix_peerSent ht.toOriginator, ht.toAcceptor.trans hmoves.sent_isPrefix⟩
    exact ht.acceptor.sent_cases.imp_right fun hack => ⟨hack.1, hack.2.1.trans ht.toAcceptor,
      hack.2.2⟩
  | acceptor e =>
    obtain ⟨p, hp, rfl⟩ := Option.map_eq_some_iff.mp h
    have hmoves := Endpoint.moves_of_step ht.toAcceptor hp
    refine ⟨ht.originator, ht.acceptor.moves hinj ?_ hmoves,
      ht.toOriginator.trans hmoves.sent_isPrefix, hmoves.received_isPrefix_peerSent ht.toAcceptor⟩
    exact ht.originator.sent_cases.imp_right fun hreply => ⟨hreply.1,
      hreply.2.trans ht.toOriginator⟩

/-- **How far the two ends are in any run.** -/
theorem wf_of_run (hinj : Set.InjOn q.a.md5 q.digested)
    (h : run q.step (q.start peerName) es = some t) : Wf q t :=
  run_induction (fun _ _ _ ht hstep => ht.step hinj hstep) (wf_start q peerName) h

/-! ### When nothing is in flight -/

/-- Where an originator is that does not write. -/
theorem OriginatorStage.of_not_writing (hp : OriginatorStage q p)
    (hwriting : p.connection.writing = false) :
    p.received.length < (statusMsg ++ q.challengeMsg).length ∧ p.sent = q.nameMsg ∨
      p.connection.state ≠ .connected ∧ p.sent = q.nameMsg ++ q.replyMsg ∧
        p.received.length < (statusMsg ++ q.challengeMsg ++ q.ackMsg).length ∨
      p.connection.Connected ∧ statusMsg ++ q.challengeMsg ++ q.ackMsg <+: p.received := by
  cases hp with
  | sendingName hp | sendingReply hp => cases hp.writing.symm.trans hwriting
  | awaitingStatus _ hu hne hsent hreceived =>
    have hlt := length_lt_of_isPrefix hu hne
    refine .inl ⟨?_, hsent⟩
    rw [hreceived, List.length_append]
    omega
  | awaitingChallenge _ hu hne hsent hreceived =>
    have hlt := length_lt_of_isPrefix hu hne
    refine .inl ⟨?_, hsent⟩
    rw [hreceived, List.length_append, List.length_append]
    omega
  | awaitingAck hp hu hne hsent hreceived =>
    have hlt := length_lt_of_isPrefix hu hne
    refine .inr (.inl ⟨hp.state_ne, hsent, ?_⟩)
    simp only [hreceived, List.length_append]
    omega
  | connected hp _ _ hreceived => exact .inr (.inr ⟨hp, hreceived⟩)

/-- Where an acceptor is that does not write. -/
theorem AcceptorStage.of_not_writing (hp : AcceptorStage q p)
    (hwriting : p.connection.writing = false) :
    p.received.length < q.nameMsg.length ∧ p.sent = [] ∨
      p.received.length < (q.nameMsg ++ q.replyMsg).length ∧
        p.sent = statusMsg ++ q.challengeMsg ∨
      p.connection.state ≠ .connected ∧ q.a.cookie ≠ q.b.cookie ∧
        p.sent = statusMsg ++ q.challengeMsg ∨
      p.connection.state = .connected ∧ q.a.cookie = q.b.cookie ∧
        p.connection.peerName = some q.a.name ∧
          statusMsg ++ q.challengeMsg ++ q.ackMsg <+: p.sent := by
  cases hp with
  | sendingStatus hp | sendingChallenge hp | sendingAck hp => cases hp.writing.symm.trans hwriting
  | awaitingName _ hu hne hsent hreceived =>
    have hlt := length_lt_of_isPrefix hu hne
    exact .inl ⟨by rwa [hreceived], hsent⟩
  | awaitingReply _ _ hu hne hsent hreceived =>
    have hlt := length_lt_of_isPrefix hu hne
    refine .inr (.inl ⟨?_, hsent⟩)
    rw [hreceived, List.length_append, List.length_append]
    omega
  | givenUp hp hcookie hsent => exact .inr (.inr (.inl ⟨hp.state_ne, hcookie, hsent⟩))
  | connected hp hname hcookie hsent =>
    exact .inr (.inr (.inr ⟨hp.state, hcookie, hname, hsent⟩))

/-- **When nothing is in flight**, the nodes have connected, or they have different cookies. -/
theorem Wf.of_quiet (ht : Wf q t) (hquiet : t.Quiet) :
    q.a.cookie = q.b.cookie ∧ t.originator.connection.state = .connected ∧
        t.acceptor.connection.state = .connected ∧
          t.acceptor.connection.peerName = some q.a.name ∨
      q.a.cookie ≠ q.b.cookie ∧ t.originator.connection.state ≠ .connected ∧
        t.acceptor.connection.state ≠ .connected := by
  have hack := q.isFrame_ackMsg.ne_nil
  have hacceptor := ht.acceptor.of_not_writing hquiet.acceptor
  rcases ht.originator.of_not_writing hquiet.originator with
    ⟨hlt, hsent⟩ | ⟨hstate, hsent, hlt⟩ | ⟨hc, hreceived⟩
  · -- the originator has not seen the challenge, but then it has not been sent
    rw [hquiet.toOriginator] at hlt
    rw [← hquiet.toAcceptor] at hsent
    rcases hacceptor with ⟨hlt', -⟩ | ⟨-, hsent'⟩ | ⟨-, -, hsent'⟩ | ⟨-, -, -, hsent'⟩
    · rw [hsent] at hlt'
      exact absurd hlt' (Nat.lt_irrefl _)
    · rw [hsent'] at hlt
      exact absurd hlt (Nat.lt_irrefl _)
    · rw [hsent'] at hlt
      exact absurd hlt (Nat.lt_irrefl _)
    · have hle := ((List.prefix_append _ _).trans hsent').length_le
      omega
  · -- the originator waits for the ack, and the acceptor has seen the reply
    rw [hquiet.toOriginator] at hlt
    rw [← hquiet.toAcceptor] at hsent
    rcases hacceptor with ⟨hlt', -⟩ | ⟨hlt', -⟩ | ⟨hstate', hcookie, -⟩ | ⟨-, -, -, hsent'⟩
    · rw [hsent, List.length_append] at hlt'
      omega
    · rw [hsent] at hlt'
      exact absurd hlt' (Nat.lt_irrefl _)
    · exact .inr ⟨hcookie, hstate, hstate'⟩
    · have hle := hsent'.length_le
      omega
  · -- the originator has seen the ack
    rw [hquiet.toOriginator] at hreceived
    rcases hacceptor with ⟨-, hsent'⟩ | ⟨-, hsent'⟩ | ⟨-, -, hsent'⟩ | ⟨hstate', hcookie, hname, -⟩
    · rw [hsent', List.prefix_nil] at hreceived
      exact absurd hreceived (List.append_ne_nil_of_right_ne_nil _ hack)
    · rw [hsent'] at hreceived
      exact absurd hreceived (Framing.not_append_isPrefix hack)
    · rw [hsent'] at hreceived
      exact absurd hreceived (Framing.not_append_isPrefix hack)
    · exact .inl ⟨hcookie, hc.state, hstate', hname⟩

/-! ### What is undefined -/

/-- **A read of the originator is undefined** if it completes a challenge that is waited for. -/
theorem OriginatorStage.undefined_read_iff (hp : OriginatorStage q p)
    (hpeer : peerSent <+: statusMsg ++ q.challengeMsg ∨
      statusMsg ++ q.challengeMsg ++ q.ackMsg <+: peerSent ∧
        q.nameMsg ++ q.replyMsg <+: p.sent ∧ q.a.cookie = q.b.cookie)
    (hstate : p.connection.state ≠ .connected) {bytes : MsgSeq}
    (hbytes : p.received ++ bytes <+: peerSent) :
    p.connection.Undefined q.a (.read bytes) ↔ statusMsg.length ≤ p.received.length ∧
      p.received.length < (statusMsg ++ q.challengeMsg).length ∧
        (statusMsg ++ q.challengeMsg).length ≤ (p.received ++ bytes).length ∧
          bytes.length ≤ readBufferSize := by
  cases hp with
  | sendingName hp hreceived =>
    refine iff_of_false (fun h => h.1.1 hp.pendingRead) fun ⟨hle, _⟩ => ?_
    have := List.length_pos_of_ne_nil isFrame_statusMsg.ne_nil
    rw [hreceived, List.length_nil] at hle
    omega
  | awaitingStatus hp hu hne hsent hreceived =>
    have hlt := length_lt_of_isPrefix hu hne
    refine iff_of_false (fun h => ?_) fun ⟨hle, _⟩ => ?_
    · cases ((hp.undefined_read_iff (by rintro ⟨⟩)).mp h).2.1
    · rw [hreceived] at hle
      omega
  | @awaitingChallenge u hp hu hne hsent hreceived =>
    have hlt := length_lt_of_isPrefix hu hne
    have hbefore : peerSent <+: statusMsg ++ q.challengeMsg := by
      rcases hpeer with hpeer | ⟨-, hreply, -⟩
      · exact hpeer
      · rw [hsent] at hreply
        exact absurd hreply (Framing.not_append_isPrefix q.isFrame_replyMsg.ne_nil)
    rw [hreceived, List.append_assoc] at hbytes
    have hpre := (List.prefix_append_right_inj _).mp (hbytes.trans hbefore)
    rw [hp.undefined_read_iff (by rintro ⟨⟩), hreceived]
    simp only [List.length_append] at hpre ⊢
    constructor
    · rintro ⟨⟨hpos, hsize⟩, -, msg, rest, tail, hsplit, -⟩
      have hwhole : u ++ bytes = q.challengeMsg := by
        by_contra hpart
        have hnone := q.isFrame_challengeMsg.split_of_isPrefix hpre hpart
        cases hnone.symm.trans hsplit
      have hlen := congrArg List.length hwhole
      rw [List.length_append] at hlen
      omega
    · rintro ⟨-, -, hle, hsize⟩
      have hwhole : u ++ bytes = q.challengeMsg := by
        refine hpre.eq_of_length_le ?_
        rw [List.length_append]
        omega
      have hsplit := Framing.split_frame_append (s := []) q.isFrame_challengeMsg
      rw [List.append_nil, Framing.split_nil, ← hwhole] at hsplit
      have hparse : parse q.challengeMsg recvChallenge ChallengeAttributes.init = some _ :=
        parse_sendChallengeG q.challengeB q.nameFitsB.1
      refine ⟨⟨by omega, hsize⟩, trivial, _, _, _, hsplit, ?_⟩
      rw [hwhole, hparse]
      rintro ⟨⟩
  | sendingReply hp hreceived =>
    refine iff_of_false (fun h => h.1.1 hp.pendingRead) fun ⟨_, hlt, _⟩ => ?_
    rw [hreceived] at hlt
    exact Nat.lt_irrefl _ hlt
  | awaitingAck hp _ _ _ hreceived =>
    refine iff_of_false (fun h => ?_) fun ⟨_, hlt, _⟩ => ?_
    · cases ((hp.undefined_read_iff (by rintro ⟨⟩)).mp h).2.1
    · rw [hreceived, List.length_append] at hlt
      omega
  | connected hp => exact absurd hp.state hstate

/-- No read of the acceptor is. -/
theorem AcceptorStage.not_undefined_read (hp : AcceptorStage q p)
    (hstate : p.connection.state ≠ .connected) (bytes : MsgSeq) :
    ¬ p.connection.Undefined q.b (.read bytes) := by
  intro h
  cases hp with
  | awaitingName hp | awaitingReply hp =>
    cases ((hp.undefined_read_iff (by rintro ⟨⟩)).mp h).2.1
  | sendingStatus hp | sendingChallenge hp | sendingAck hp => exact h.1.1 hp.pendingRead
  | givenUp hp => exact h.1.1 hp.waits.1
  | connected hp => exact hstate hp.state

/-- **What is undefined in a handshake**: the read of a challenge that has not come with the status,
and nothing else. -/
theorem Wf.undefined_iff (ht : Wf q t) {e : PairEvent}
    (hstate : (endOf t e).connection.state ≠ .connected) :
    q.Undefined t e ↔ q.ReadsChallengeApart t e := by
  cases e with
  | originator e =>
    have hack := ht.acceptor.sent_cases.imp_right fun hack =>
      (⟨hack.1, hack.2.1.trans ht.toAcceptor, hack.2.2⟩ :
        _ ∧ q.nameMsg ++ q.replyMsg <+: t.originator.sent ∧ q.a.cookie = q.b.cookie)
    by_cases hread : ∃ n, e = .read n
    · obtain ⟨n, rfl⟩ := hread
      exact ht.originator.undefined_read_iff hack hstate
        (Endpoint.received_append_take_isPrefix ht.toOriginator n)
    · refine iff_of_false (fun h => hread (Endpoint.Undefined.exists_read h)) fun h => ?_
      cases e with
      | read n => exact hread ⟨n, rfl⟩
      | _ => exact h
  | acceptor e =>
    refine iff_of_false (fun h => ?_) id
    obtain ⟨n, rfl⟩ := Endpoint.Undefined.exists_read h
    exact ht.acceptor.not_undefined_read hstate _ h

/-- **Two nodes connect exactly when their cookies agree**, as long as no challenge is read apart
from the status. In every state of a run in which nothing is in flight and no write is to be
completed, both are connected if they have the same cookie, and the acceptor knows the name of the
originator. If they have different cookies, neither of them is connected. A run ends where the code
is undefined, and in a handshake that is where a challenge is read apart. -/
theorem connected_iff_cookie_eq (q : CookiePair) (hinj : Set.InjOn q.a.md5 q.digested)
    (peerName : Str) {es : List PairEvent} {t : ConnectionPair}
    (h : run q.step (q.start peerName) es = some t) :
    (t.Quiet →
      (q.a.cookie = q.b.cookie → t.originator.connection.state = .connected ∧
        t.acceptor.connection.state = .connected ∧
          t.acceptor.connection.peerName = some q.a.name) ∧
      (q.a.cookie ≠ q.b.cookie → t.originator.connection.state ≠ .connected ∧
        t.acceptor.connection.state ≠ .connected)) ∧
    ∀ e, (endOf t e).connection.state ≠ .connected →
      (q.Undefined t e ↔ q.ReadsChallengeApart t e) := by
  have ht := wf_of_run hinj h
  refine ⟨fun hquiet => ?_, fun e hstate => ht.undefined_iff hstate⟩
  rcases ht.of_quiet hquiet with ⟨heq, hconnected⟩ | ⟨hne, hnot⟩
  · exact ⟨fun _ => hconnected, fun hne => absurd heq hne⟩
  · exact ⟨fun heq => absurd heq hne, fun _ => hnot⟩

/-- `nodeA` and a node with the same cookie. -/
def sameCookie : CookiePair where
  a := nodeA
  b := { nodeA with name := bytesOf "b@h" }
  challengeA := 1
  challengeB := 2
  nameFitsA := by decide
  nameFitsB := by decide
  md5_eq := rfl

/-- A whole handshake. The status and the challenge are read together, and the answer to the name is
there before the originator knows that it has been written. -/
def wholeHandshake : List PairEvent :=
  [.originator .transmit, .acceptor (.read 4), .acceptor (.read 128), .acceptor .transmit,
    .acceptor .written, .acceptor .transmit, .originator .written, .acceptor .written,
    .originator (.read 128), .originator .transmit, .acceptor (.read 128), .originator .written,
    .acceptor .transmit, .originator (.read 7), .acceptor .written, .originator (.read 128)]

theorem connected_iff_cookie_eq_whole : ∃ t,
    run sameCookie.step (sameCookie.start (bytesOf "b")) wholeHandshake = some t ∧ t.Quiet ∧
      t.originator.connection.state = .connected ∧ t.acceptor.connection.state = .connected ∧
        t.acceptor.connection.peerName = some (bytesOf "a@h") := by
  obtain ⟨t, hrun, hquiet⟩ : ∃ t, run sameCookie.step (sameCookie.start (bytesOf "b"))
      wholeHandshake = some t ∧ t.Quiet := ⟨_, rfl, rfl, rfl, rfl, rfl⟩
  have hinj : Set.InjOn sameCookie.a.md5 sameCookie.digested := by
    rintro _ ⟨_, _, rfl | rfl, rfl | rfl, rfl⟩ _ ⟨_, _, rfl | rfl, rfl | rfl, rfl⟩ hdigest
    all_goals first | rfl | exact absurd hdigest (by decide)
  exact ⟨t, hrun, hquiet, ((connected_iff_cookie_eq sameCookie hinj _ hrun).1 hquiet).1 rfl⟩

/-- The same nodes. The originator reads the status as soon as that is there. -/
def statusReadFirst : List PairEvent :=
  [.originator .transmit, .originator .written, .acceptor (.read 128), .acceptor .transmit,
    .originator (.read 128), .acceptor .written, .acceptor .transmit, .acceptor .written]

/-- What it does with the challenge, which is all that is in flight then, is undefined. -/
theorem undefined_statusReadFirst : ∃ t,
    run sameCookie.step (sameCookie.start (bytesOf "b")) statusReadFirst = some t ∧
      sameCookie.a.cookie = sameCookie.b.cookie ∧
        t.originator.incoming t.acceptor.sent = sameCookie.challengeMsg ∧
          t.acceptor.incoming t.originator.sent = [] ∧
            sameCookie.Undefined t (.originator (.read 128)) :=
  ⟨_, rfl, rfl, rfl, rfl, ⟨by rintro ⟨⟩, by decide⟩, rfl⟩

end CookiePair

end TinchPp
