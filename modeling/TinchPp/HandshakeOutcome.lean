import TinchPp.HandshakeEnd

/-!
# How a handshake ends

A handshake takes the messages of the peer from its lexer one by one. `Stage` says what it is doing
after which of them: it waits for the next one (`Awaits`), or it writes what comes next in its role
(`Sends`). A step leads to the next stage, to the connected state, or to an end: a failure, which is
reported, or an exception out of the callback, which is not, since an I/O operation that nobody has
triggered again does not complete.

So there are two things to be said. Nobody gets to the connected state without the digest of our own
challenge, whatever bytes come and however they are cut. And the node is told how the handshake has
ended at most once, and exactly once as long as the callbacks do not raise.

## Main results

* `Underway.step` — what becomes of a handshake in one step
* `connected_only_authenticated` — a connection is connected only after the right digest
* `reportsOutcome_iff` — exactly when the outcome of a handshake is reported
-/

namespace TinchPp

namespace NodeConnection

open EventSystem Framing PeerStream

/-! ### The digest of the peer -/

/-- The handshake message with the digest: the challenge ack comes after the status and the
challenge, and the challenge reply after the name. -/
def Role.digestAt : Role → ℕ
  | .originator _ => 2
  | .acceptor => 1

variable (node : NodeAccess) (ownChallenge : UInt32)

/-- The message has the digest of our own challenge and our own cookie. -/
def CarriesDigest : Role → MsgSeq → Prop
  | .originator _, ackMsg =>
    parse ackMsg recvChallengeAckP [] = some (node.calculateDigest ownChallenge node.cookie)
  | .acceptor, msg => ∃ replyAttr,
    parse msg challengeReplyP ChallengeReplyAttributes.init = some replyAttr ∧
      replyAttr.digest = node.calculateDigest ownChallenge node.cookie

/-- Among the handshake messages received is one with the digest, in its place. -/
def Authenticated (role : Role) (msgs : List MsgSeq) : Prop :=
  ∃ msg, msgs[role.digestAt]? = some msg ∧ CarriesDigest node ownChallenge role msg

/-! ### What the callbacks do not raise on -/

/-- What a read of these bytes hands to its callback: a message, and the ones behind it. -/
def handed (bytes : MsgSeq) (c : NodeConnection) : Option (ReadCallback × List MsgSeq) :=
  match c.pendingRead with
  | none => none
  | some (callback, k) =>
    match (c.lexer k).add k bytes with
    | none => none
    | some l => if l.hasCompleteMsg then some (callback, l.msgs) else none

/-- The message can be parsed, and so can a challenge right behind a status that is accepted. A
challenge ack has the right digest. -/
def Acceptable : ReadCallback → List MsgSeq → Prop
  | .nameRead, msg :: _ => parse msg sendNameP SentName.init ≠ none
  | .statusRead, msg :: rest => ∃ status, parse msg receiveStatus [] = some status ∧
    (isOk status → ∀ challenge ∈ rest.head?,
      parse challenge recvChallenge ChallengeAttributes.init ≠ none)
  | .challengeRead, msg :: _ => parse msg recvChallenge ChallengeAttributes.init ≠ none
  | .replyReceived, msg :: _ => parse msg challengeReplyP ChallengeReplyAttributes.init ≠ none
  | .challengeAckRead, ackMsg :: _ =>
    parse ackMsg recvChallengeAckP [] = some (node.calculateDigest ownChallenge node.cookie)
  | _, _ => True

/-- The condition on a step: a read hands over something acceptable, if anything. -/
def NothingRaised : NodeConnection → Event → Prop
  | c, .read bytes => 0 < bytes.length ∧ bytes.length ≤ readBufferSize →
    ∀ callback msgs, c.handed bytes = some (callback, msgs) →
      Acceptable node c.ownChallenge callback msgs
  | _, _ => True

/-! ### The stages -/

/-- No outcome has been reported yet, and no call made. -/
structure Quiet (c : NodeConnection) : Prop where
  handshakeSuccess : c.handshakeSuccess = []
  calls : c.calls = []

/-- A handshake that writes the status and the challenge. -/
structure WritesStatus (l : MsgLexer) (c : NodeConnection) : Prop extends InHandshake c where
  state_eq : c.state = .sendingStatus
  ownChallenge_eq : c.ownChallenge = ownChallenge
  handshakeMsgs : c.handshakeMsgs = l
  pendingRead : c.pendingRead = none
  writeQueue : ∃ status challenge, c.writeQueue =
    [(status, .ignoreWriteNotification), (challenge, .challengeWritten)]
  writing : c.writing = true

/-- What is waited for, after these messages. -/
inductive Awaits : Role → List MsgSeq → ConnectionState → ReadCallback → Prop
  | name : Awaits .acceptor [] .connectedTcp .nameRead
  | reply (name : MsgSeq) : Awaits .acceptor [name] .waitingForChallengeReply .replyReceived
  | status (peer : Str) : Awaits (.originator peer) [] .waitingForStatus .statusRead
  | challenge (peer : Str) (status : MsgSeq) :
      Awaits (.originator peer) [status] .receivingChallenge .challengeRead
  | ack (peer : Str) (status challenge : MsgSeq) :
      Awaits (.originator peer) [status, challenge] .receivingChallengeAck .challengeAckRead

/-- What is written, after these messages. The acceptor has seen the digest before it sends its
own. -/
inductive Sends : Role → List MsgSeq → ConnectionState → WriteCallback → Prop
  | challenge (name : MsgSeq) : Sends .acceptor [name] .sendingStatus .challengeWritten
  | ack (name reply : MsgSeq) (hreply : CarriesDigest node ownChallenge .acceptor reply) :
      Sends .acceptor [name, reply] .sendingChallengeAck .challengeAckWritten
  | name (peer : Str) : Sends (.originator peer) [] .connectedTcp .handshakeSent
  | reply (peer : Str) (status challenge : MsgSeq) :
      Sends (.originator peer) [status, challenge] .sendingChallengeReply .replySent

/-- `Stage role taken l c`: what the handshake is doing, after it has taken these messages, with
this in its lexer. -/
inductive Stage : Role → List MsgSeq → MsgLexer → NodeConnection → Prop
  | awaits {role taken l c state callback} (hawaits : Awaits role taken state callback)
      (hc : WaitsFor ownChallenge state callback l c) : Stage role taken l c
  | sends {role taken l c state callback}
      (hsends : Sends node ownChallenge role taken state callback)
      (hc : Writes ownChallenge state callback l c) : Stage role taken l c
  | sendsStatus {l c} (name : MsgSeq) (hc : WritesStatus ownChallenge l c) :
      Stage .acceptor [name] l c

/-- A handshake that has received these messages and this part of one more. -/
def Underway (role : Role) (received : List MsgSeq × MsgSeq) (c : NodeConnection) : Prop :=
  ∃ taken l, Stage node ownChallenge role taken l c ∧ received = (taken ++ l.msgs, l.incomplete) ∧
    c.Quiet

/-- What a step has led to. That it has not raised is `a`. -/
inductive Outcome (role : Role) (received : List MsgSeq × MsgSeq) (a : Prop) :
    NodeConnection → Prop
  | underway {c} (ha : a) (hc : Underway node ownChallenge role received c) :
      Outcome role received a c
  | failed {c} (ha : a) (hc : c.GivenUp) (hreport : c.handshakeSuccess = [false])
      (hcalls : c.calls = []) : Outcome role received a c
  | raised {c} (ha : ¬ a) (hc : c.GivenUp) (hquiet : c.Quiet) : Outcome role received a c
  | connected {c} (ha : a) (hc : c.Connected) (hreport : c.handshakeSuccess = [true])
      (hauth : Authenticated node ownChallenge role received.1) : Outcome role received a c

variable {node ownChallenge} {c c' : NodeConnection} {role : Role} {a b : Prop}
  {received : List MsgSeq × MsgSeq} {msg inc : MsgSeq} {rest : List MsgSeq}

theorem SameReports.quiet (h : SameReports c c') (hc : c.Quiet) : c'.Quiet :=
  ⟨h.handshakeSuccess.trans hc.handshakeSuccess, h.calls.trans hc.calls⟩

/-- A failure is reported. -/
theorem Fails.outcome (h : Fails c c') (hc : c.Quiet) (ha : a) :
    Outcome node ownChallenge role received a c' :=
  .failed ha h.givenUp (by rw [h.handshakeSuccess, hc.handshakeSuccess]; rfl)
    (h.calls.trans hc.calls)

theorem Outcome.congr (h : Outcome node ownChallenge role received a c) (hab : a ↔ b) :
    Outcome node ownChallenge role received b c := by
  obtain rfl : a = b := propext hab
  exact h

/-! ### The callbacks -/

theorem outcome_nameRead (hc : Runs ownChallenge ⟨inc, msg :: rest⟩ c) (hquiet : c.Quiet)
    (h : c.nameRead node .handshake = some c') :
    Outcome node ownChallenge .acceptor (msg :: rest, inc)
      (parse msg sendNameP SentName.init ≠ none) c' := by
  obtain ⟨c₁, hnext, hc₁, hsame⟩ := hc.nextMessage
  have hquiet₁ := hsame.quiet hquiet
  rw [nameRead, hnext] at h
  dsimp only at h
  cases hparse : parse msg sendNameP SentName.init with
  | none =>
    rw [hparse] at h
    obtain rfl := Option.some_inj.mp h
    exact .raised (fun hne => hne rfl) (hc₁.toRunning.raise _)
      ⟨hquiet₁.handshakeSuccess, hquiet₁.calls⟩
  | some sentName =>
    rw [hparse] at h
    dsimp only at h
    split at h
    · obtain rfl := Option.some_inj.mp h
      refine .underway (by rintro ⟨⟩) ⟨[msg], ⟨inc, rest⟩, .sendsStatus msg ?_, rfl,
        hquiet₁.handshakeSuccess, hquiet₁.calls⟩
      refine ⟨⟨by rintro ⟨⟩, hc₁.receivedMsgs, hc₁.beforeTraffic⟩, rfl, hc₁.ownChallenge_eq,
        hc₁.handshakeMsgs, hc₁.pendingRead, ?_, ?_⟩
      all_goals
        simp [changeState, sendStatusAndChallenge, triggerCheckedWrite, triggerWrite, gotPeerName,
          hc₁.writeQueue]
    · obtain rfl := Option.some_inj.mp h
      exact (hc₁.toRunning.reportFailure _).outcome hquiet₁ (by rintro ⟨⟩)

theorem outcome_replyReceived {name : MsgSeq} (hc : Runs ownChallenge ⟨inc, msg :: rest⟩ c)
    (hquiet : c.Quiet) (h : c.replyReceived node .handshake = some c') :
    Outcome node ownChallenge .acceptor (name :: msg :: rest, inc)
      (parse msg challengeReplyP ChallengeReplyAttributes.init ≠ none) c' := by
  obtain ⟨c₁, hnext, hc₁, hsame⟩ := hc.nextMessage
  have hquiet₁ := hsame.quiet hquiet
  rw [replyReceived, hnext] at h
  dsimp only at h
  cases hparse : parse msg challengeReplyP ChallengeReplyAttributes.init with
  | none =>
    rw [hparse] at h
    obtain rfl := Option.some_inj.mp h
    exact .raised (fun hne => hne rfl) (hc₁.toRunning.raise _)
      ⟨hquiet₁.handshakeSuccess, hquiet₁.calls⟩
  | some replyAttr =>
    rw [hparse] at h
    dsimp only at h
    split at h
    · next hcorrect =>
      obtain rfl := Option.some_inj.mp h
      rw [isCorrect, hc₁.ownChallenge_eq] at hcorrect
      have hdigest : CarriesDigest node ownChallenge .acceptor msg :=
        ⟨replyAttr, hparse, (of_decide_eq_true hcorrect).symm⟩
      refine .underway (by rintro ⟨⟩) ⟨[name, msg], ⟨inc, rest⟩, .sends (.ack name msg hdigest) ?_,
        rfl, hquiet₁.handshakeSuccess, hquiet₁.calls⟩
      exact hc₁.writes (by rintro ⟨⟩) _ .challengeAckWritten
    · obtain rfl := Option.some_inj.mp h
      exact (hc₁.toRunning.reportFailure _).outcome hquiet₁ (by rintro ⟨⟩)

theorem outcome_challengeRead {held : Bool} {peer : Str} {status : MsgSeq}
    (hc : Runs ownChallenge ⟨inc, msg :: rest⟩ c) (hquiet : c.Quiet)
    (h : c.challengeRead node held .handshake = some c') :
    Outcome node ownChallenge (.originator peer) (status :: msg :: rest, inc)
      (parse msg recvChallenge ChallengeAttributes.init ≠ none) c' := by
  obtain ⟨c₁, hnext, hc₁, hsame⟩ := hc.nextMessage
  have hquiet₁ := hsame.quiet hquiet
  cases hparse : parse msg recvChallenge ChallengeAttributes.init with
  | none =>
    rw [challengeRead, hnext] at h
    dsimp only at h
    rw [hparse] at h
    obtain rfl := Option.some_inj.mp h
    exact .raised (fun hne => hne rfl) (hc₁.toRunning.raise _)
      ⟨hquiet₁.handshakeSuccess, hquiet₁.calls⟩
  | some attributes =>
    obtain ⟨-, rfl⟩ := held_of_challengeRead hnext hparse h
    refine .underway (by rintro ⟨⟩) ⟨[status, msg], ⟨inc, rest⟩, .sends (.reply peer status msg) ?_,
      rfl, hquiet₁.handshakeSuccess, hquiet₁.calls⟩
    exact hc₁.writes (by rintro ⟨⟩) _ .replySent

theorem outcome_receiveChallenge {peer : Str} {status : MsgSeq}
    (hc : Runs ownChallenge ⟨inc, rest⟩ c) (hstate : c.state = .receivingChallenge)
    (hquiet : c.Quiet) (h : c.receiveChallenge node .handshake = some c') :
    Outcome node ownChallenge (.originator peer) (status :: rest, inc)
      (∀ challenge ∈ rest.head?, parse challenge recvChallenge ChallengeAttributes.init ≠ none)
      c' := by
  rw [receiveChallenge, lexer, hc.handshakeMsgs] at h
  cases rest with
  | nil =>
    obtain rfl := Option.some_inj.mp h
    refine .underway (by rintro _ ⟨⟩) ⟨[status], ⟨inc, []⟩, .awaits (.challenge peer status) ?_,
      rfl, hquiet.handshakeSuccess, hquiet.calls⟩
    exact ⟨⟨hc.state_ne, hc.receivedMsgs, hc.beforeTraffic⟩, hstate, hc.ownChallenge_eq,
      hc.handshakeMsgs, congrArg (fun k => some (ReadCallback.challengeRead, k)) hc.receivedMsgs,
      hc.writeQueue, hc.writing⟩
  | cons challenge rest =>
    refine (outcome_challengeRead hc hquiet h).congr ⟨fun hparse challenge' hmem => ?_,
      fun hall => hall challenge rfl⟩
    obtain rfl := Option.some_inj.mp hmem
    exact hparse

theorem outcome_statusRead {peer : Str} (hc : Runs ownChallenge ⟨inc, msg :: rest⟩ c)
    (hquiet : c.Quiet) (h : c.statusRead node .handshake = some c') :
    Outcome node ownChallenge (.originator peer) (msg :: rest, inc)
      (Acceptable node ownChallenge .statusRead (msg :: rest)) c' := by
  obtain ⟨c₁, hnext, hc₁, hsame⟩ := hc.nextMessage
  have hquiet₁ := hsame.quiet hquiet
  rw [statusRead, hnext] at h
  dsimp only at h
  rw [Acceptable]
  cases hparse : parse msg receiveStatus [] with
  | none =>
    rw [hparse] at h
    obtain rfl := Option.some_inj.mp h
    refine .raised ?_ (hc₁.toRunning.raise _) ⟨hquiet₁.handshakeSuccess, hquiet₁.calls⟩
    rintro ⟨status, hstatus, -⟩
    cases hstatus
  | some status =>
    rw [hparse] at h
    dsimp only at h
    rw [dispatchStatus] at h
    split at h
    · next hok =>
      have hmoved : Runs ownChallenge ⟨inc, rest⟩ (c₁.changeState .receivingChallenge) :=
        ⟨⟨⟨by rintro ⟨⟩, hc₁.receivedMsgs, hc₁.beforeTraffic⟩, hc₁.pendingRead, hc₁.writeQueue,
          hc₁.writing⟩, hc₁.ownChallenge_eq, hc₁.handshakeMsgs⟩
      refine (outcome_receiveChallenge hmoved rfl
        ⟨hquiet₁.handshakeSuccess, hquiet₁.calls⟩ h).congr ?_
      simp [hok]
    · next hok =>
      obtain rfl := Option.some_inj.mp h
      exact (hc₁.toRunning.reportFailure _).outcome hquiet₁
        ⟨status, rfl, fun hok' => absurd hok' hok⟩

theorem outcome_challengeAckRead {peer : Str} {status challenge : MsgSeq}
    (hc : Runs ownChallenge ⟨inc, msg :: rest⟩ c) (hquiet : c.Quiet)
    (h : c.challengeAckRead node .handshake = some c') :
    Outcome node ownChallenge (.originator peer) (status :: challenge :: msg :: rest, inc)
      (parse msg recvChallengeAckP [] = some (node.calculateDigest ownChallenge node.cookie))
      c' := by
  obtain ⟨c₁, hnext, hc₁, hsame⟩ := hc.nextMessage
  have hquiet₁ := hsame.quiet hquiet
  rw [challengeAckRead, hnext] at h
  dsimp only at h
  cases hparse : parse msg recvChallengeAckP [] with
  | none =>
    rw [hparse] at h
    obtain rfl := Option.some_inj.mp h
    exact .raised (by rintro ⟨⟩) (hc₁.toRunning.raise _) ⟨hquiet₁.handshakeSuccess, hquiet₁.calls⟩
  | some digest =>
    rw [hparse] at h
    dsimp only at h
    rw [isCorrect, hc₁.ownChallenge_eq] at h
    split at h
    · next hcorrect =>
      obtain rfl := of_decide_eq_true hcorrect
      obtain rfl := Option.some_inj.mp h
      refine .connected rfl hc₁.toRunning.makeTransitionToConnected.1 ?_ ⟨msg, rfl, hparse⟩
      show c₁.handshakeSuccess ++ [true] = [true]
      rw [hquiet₁.handshakeSuccess]
      rfl
    · next hwrong =>
      obtain rfl := Option.some_inj.mp h
      refine .raised (fun hright => hwrong ?_) (hc₁.toRunning.raise _)
        ⟨hquiet₁.handshakeSuccess, hquiet₁.calls⟩
      rw [Option.some_inj.mp hright]
      exact decide_eq_true rfl

/-- The callback of the read that a stage waits for. -/
theorem outcome_invokeRead {taken : List MsgSeq} {state : ConnectionState} {callback : ReadCallback}
    (hawaits : Awaits role taken state callback) (hc : Runs ownChallenge ⟨inc, msg :: rest⟩ c)
    (hquiet : c.Quiet) (h : c.invokeRead node callback .handshake = some c') :
    Outcome node ownChallenge role (taken ++ msg :: rest, inc)
      (Acceptable node ownChallenge callback (msg :: rest)) c' := by
  cases hawaits with
  | name => exact outcome_nameRead hc hquiet h
  | reply name => exact outcome_replyReceived hc hquiet h
  | status peer => exact outcome_statusRead hc hquiet h
  | challenge peer status => exact outcome_challengeRead hc hquiet h
  | ack peer status challenge => exact outcome_challengeAckRead hc hquiet h

theorem Awaits.state_ne {taken : List MsgSeq} {state : ConnectionState} {callback : ReadCallback}
    (h : Awaits role taken state callback) : state ≠ .connected := by
  cases h <;> rintro ⟨⟩

/-- The callback of the last write of a stage. -/
theorem outcome_invokeWritten {taken : List MsgSeq} {state : ConnectionState}
    {callback : WriteCallback} {l : MsgLexer}
    (hsends : Sends node ownChallenge role taken state callback) (hc : Runs ownChallenge l c)
    (hquiet : c.Quiet) (ha : a) :
    Outcome node ownChallenge role (taken ++ l.msgs, l.incomplete) a
      (c.invokeWritten callback) := by
  have hread {taken : List MsgSeq} {state : ConnectionState} {callback : ReadCallback}
      (hawaits : Awaits role taken state callback) :
      Outcome node ownChallenge role (taken ++ l.msgs, l.incomplete) a
        ((c.triggerCheckedRead callback).changeState state) :=
    .underway ha ⟨taken, l, .awaits hawaits (hc.waitsFor hawaits.state_ne callback), rfl,
      hquiet.handshakeSuccess, hquiet.calls⟩
  cases hsends with
  | challenge name => exact hread (.reply name)
  | ack name reply hreply =>
    refine .connected ha hc.toRunning.makeTransitionToConnected.1 ?_ ⟨reply, rfl, hreply⟩
    show c.handshakeSuccess ++ [true] = [true]
    rw [hquiet.handshakeSuccess]
    rfl
  | name peer => exact hread (.status peer)
  | reply peer status challenge => exact hread (.ack peer status challenge)

/-! ### One step -/

theorem nothingRaised_of_pendingRead (node : NodeAccess) (hpending : c.pendingRead = none)
    (e : Event) : NothingRaised node c e := by
  cases e with
  | read bytes =>
    intro _ callback msgs hhanded
    rw [handed, hpending] at hhanded
    cases hhanded
  | _ => trivial

theorem nothingRaised_of_ne_read {e : Event} (hne : ∀ bytes, e ≠ .read bytes) :
    NothingRaised node c e := by
  cases e with
  | read bytes => exact absurd rfl (hne bytes)
  | _ => trivial

/-- The status is written before the challenge. -/
theorem WritesStatus.step {l : MsgLexer} {e : Event} (hc : WritesStatus ownChallenge l c)
    (h : c.step node e = some c') : chunk e = [] ∧ (c' = c ∨ Fails c c' ∨
      Writes ownChallenge .sendingStatus .challengeWritten l c' ∧ SameReports c c') := by
  obtain ⟨hne, rfl | hsame⟩ := hc.toInHandshake.step_of_no_read hc.pendingRead h
  · obtain ⟨-, msg, callback, queue, hqueue, rfl⟩ := step_written h
    obtain ⟨status, challenge, hqueue'⟩ := hc.writeQueue
    rw [hqueue', List.cons.injEq, Prod.mk.injEq] at hqueue
    obtain ⟨⟨-, rfl⟩, rfl⟩ := hqueue
    refine ⟨rfl, .inr (.inr ⟨?_, rfl, rfl⟩)⟩
    exact ⟨⟨hc.state_ne, hc.receivedMsgs, hc.beforeTraffic⟩, hc.state_eq, hc.ownChallenge_eq,
      hc.handshakeMsgs, hc.pendingRead, ⟨challenge, rfl⟩, rfl⟩
  · exact ⟨chunk_of_ne_read hne, hsame.imp_right .inl⟩

/-- A read, while a message is waited for. -/
theorem outcome_read {taken : List MsgSeq} {state : ConnectionState} {callback : ReadCallback}
    {l : MsgLexer} (hawaits : Awaits role taken state callback)
    (hc : WaitsFor ownChallenge state callback l c) (hquiet : c.Quiet) {bytes : MsgSeq}
    (h : c.step node (.read bytes) = some c') :
    Outcome node ownChallenge role
      (taken ++ (l.msgs ++ (handshakeFraming.split (l.incomplete ++ bytes)).1),
        (handshakeFraming.split (l.incomplete ++ bytes)).2)
      (NothingRaised node c (.read bytes)) c' := by
  have hsize : 0 < bytes.length ∧ bytes.length ≤ readBufferSize := by
    by_contra hnot
    rw [step, if_neg hnot] at h
    cases h
  obtain ⟨-, l', hadd, hread⟩ := hc.step_read h
  have hhanded : c.handed bytes = if l'.hasCompleteMsg then some (callback, l'.msgs) else none := by
    rw [handed, hc.pendingRead]
    dsimp only
    rw [lexer, hc.handshakeMsgs, hadd]
  have hfit : Fits .handshake (l.incomplete ++ bytes) := by rintro ⟨⟩
  rw [MsgLexer.add_eq hfit, framing, Option.some_inj] at hadd
  subst hadd
  rcases hread with ⟨hnil, hc', hsame⟩ | ⟨hne, c₀, hc₀, hsame, hread⟩
  · refine .underway ?_ ⟨taken, _, .awaits hawaits hc', rfl, hsame.quiet hquiet⟩
    intro _ callback' msgs hmsgs
    rw [hhanded, if_neg (by simpa [MsgLexer.hasCompleteMsg] using hnil)] at hmsgs
    cases hmsgs
  · obtain ⟨msg, rest, hmsgs⟩ := List.exists_cons_of_ne_nil hne
    dsimp only at hmsgs
    rw [hmsgs] at hc₀ hhanded ⊢
    refine (outcome_invokeRead hawaits hc₀ (hsame.quiet hquiet) hread).congr ?_
    rw [if_pos (by simp [MsgLexer.hasCompleteMsg])] at hhanded
    constructor
    · intro hacceptable _ callback' msgs' hhanded'
      rw [hhanded, Option.some_inj, Prod.mk.injEq] at hhanded'
      obtain ⟨rfl, rfl⟩ := hhanded'
      rw [hc.ownChallenge_eq]
      exact hacceptable
    · intro hnothing
      have hacceptable := hnothing hsize callback (msg :: rest) hhanded
      rw [hc.ownChallenge_eq] at hacceptable
      exact hacceptable

/-- **What becomes of a handshake in one step**, after it has read `T`. -/
theorem Underway.step {T : MsgSeq} {e : Event}
    (hc : Underway node ownChallenge role (handshakeFraming.split T) c)
    (h : c.step node e = some c') :
    Outcome node ownChallenge role (handshakeFraming.split (T ++ (chunk e).flatten))
      (NothingRaised node c e) c' := by
  obtain ⟨taken, l, hstage, hsplit, hquiet⟩ := hc
  cases hstage with
  | awaits hawaits hw =>
    rcases e.ne_read_or_eq with hne | ⟨bytes, rfl⟩
    · rw [chunk_of_ne_read hne, List.flatten_nil, List.append_nil]
      rcases hw.step_of_ne_read hne h with rfl | hfails
      · exact .underway (nothingRaised_of_ne_read hne)
          ⟨taken, l, .awaits hawaits hw, hsplit, hquiet⟩
      · exact hfails.outcome hquiet (nothingRaised_of_ne_read hne)
    · rw [chunk, List.flatten_singleton, split_append, hsplit, List.append_assoc]
      exact outcome_read hawaits hw hquiet h
  | sends hsends hw =>
    have hnothing := nothingRaised_of_pendingRead node hw.pendingRead e
    obtain ⟨hchunk, hstep⟩ := hw.step h
    rw [hchunk, List.flatten_nil, List.append_nil]
    rcases hstep with rfl | hfails | ⟨c₀, hc₀, hsame, rfl⟩
    · exact .underway hnothing ⟨taken, l, .sends hsends hw, hsplit, hquiet⟩
    · exact hfails.outcome hquiet hnothing
    · rw [hsplit]
      exact outcome_invokeWritten hsends hc₀ (hsame.quiet hquiet) hnothing
  | sendsStatus name hw =>
    have hnothing := nothingRaised_of_pendingRead node hw.pendingRead e
    obtain ⟨hchunk, hstep⟩ := hw.step h
    rw [hchunk, List.flatten_nil, List.append_nil]
    rcases hstep with rfl | hfails | ⟨hw', hsame⟩
    · exact .underway hnothing ⟨_, l, .sendsStatus name hw, hsplit, hquiet⟩
    · exact hfails.outcome hquiet hnothing
    · exact .underway hnothing
        ⟨_, l, .sends (.challenge name) hw', hsplit, hsame.quiet hquiet⟩

/-! ### A connection does not report anything any more -/

theorem handshakeSuccess_of_nextMessage {k : LexerKind} {msg : MsgSeq}
    (h : c.nextMessage k = some (msg, c')) : c'.handshakeSuccess = c.handshakeSuccess := by
  rw [nextMessage] at h
  split at h
  · obtain ⟨-, rfl⟩ := Prod.mk.inj (Option.some_inj.mp h)
    cases k <;> rfl
  · cases h

theorem handshakeSuccess_of_msgReceived {k : LexerKind} (h : c.msgReceived k = some c') :
    c'.handshakeSuccess = c.handshakeSuccess := by
  obtain ⟨msg, c₁, c₂, hnext, rfl, hc₂⟩ := msgReceived_eq_triggerCheckedRead h
  rw [← handshakeSuccess_of_nextMessage hnext]
  obtain rfl | ⟨calls, rfl⟩ := hc₂ <;> rfl

theorem Connected.step (hc : c.Connected) {e : Event} (h : c.step node e = some c') :
    c'.Connected ∧ c'.handshakeSuccess = c.handshakeSuccess := by
  rcases e.ne_read_or_eq with hne | ⟨bytes, rfl⟩
  · refine ⟨(hc.step_of_ne_read hne h).1, ?_⟩
    obtain ⟨pending, queue, writing, raised, rfl, -⟩ := hc.eq_of_ne_read hne h
    rfl
  · obtain ⟨-, l, -, hc', -⟩ := hc.step_read h
    refine ⟨hc', ?_⟩
    obtain ⟨-, callback, k, l', hpending, -, hread⟩ := NodeConnection.step_read h
    have hidle : c.pendingRead = some (.msgReceived, .connected) :=
      hc.pendingRead.resolve_left (by simp [hpending])
    obtain ⟨rfl, rfl⟩ : .msgReceived = callback ∧ .connected = k :=
      Prod.mk.inj (Option.some_inj.mp (hidle.symm.trans hpending))
    rcases hread with ⟨-, rfl⟩ | ⟨-, hread⟩
    · rfl
    · have hsame := handshakeSuccess_of_msgReceived hread
      exact hsame

/-! ### Runs -/

/-- Where a run has got to, when it has read `T`. -/
inductive Course (node : NodeAccess) (ownChallenge : UInt32) (role : Role) (T : MsgSeq)
    (c : NodeConnection) : Prop
  | underway (hc : Underway node ownChallenge role (handshakeFraming.split T) c)
  | failed (hc : c.GivenUp) (hreport : c.handshakeSuccess = [false]) (hcalls : c.calls = [])
  | raised (hc : c.GivenUp) (hquiet : c.Quiet)
  | connected (hc : c.Connected) (hreport : c.handshakeSuccess = [true])

theorem Stage.inHandshake {taken : List MsgSeq} {l : MsgLexer}
    (h : Stage node ownChallenge role taken l c) : c.InHandshake := by
  cases h with
  | awaits _ hc => exact hc.toInHandshake
  | sends _ hc => exact hc.toInHandshake
  | sendsStatus _ hc => exact hc.toInHandshake

theorem course_startHandshake (node : NodeAccess) (ownChallenge : UInt32) (role : Role) :
    Course node ownChallenge role [] (startHandshake node ownChallenge role) := by
  refine .underway ?_
  cases role with
  | originator peer =>
    refine ⟨[], .empty, .sends (.name peer) ?_, split_nil, rfl, rfl⟩
    exact ⟨⟨by rintro ⟨⟩, rfl, rfl, rfl⟩, rfl, rfl, rfl, rfl, ⟨_, rfl⟩, rfl⟩
  | acceptor =>
    refine ⟨[], .empty, .awaits .name ?_, split_nil, rfl, rfl⟩
    exact ⟨⟨by rintro ⟨⟩, rfl, rfl, rfl⟩, rfl, rfl, rfl, rfl, rfl, rfl⟩

theorem Outcome.course {T : MsgSeq}
    (h : Outcome node ownChallenge role (handshakeFraming.split T) a c) :
    Course node ownChallenge role T c := by
  cases h with
  | underway _ hc => exact .underway hc
  | failed _ hc hreport hcalls => exact .failed hc hreport hcalls
  | raised _ hc hquiet => exact .raised hc hquiet
  | connected _ hc hreport _ => exact .connected hc hreport

theorem Course.step {T : MsgSeq} {e : Event} (hc : Course node ownChallenge role T c)
    (h : c.step node e = some c') :
    Course node ownChallenge role (T ++ (chunk e).flatten) c' := by
  cases hc with
  | underway hc => exact (hc.step h).course
  | failed hc hreport hcalls =>
    obtain ⟨-, rfl⟩ := hc.step h
    exact .failed hc hreport hcalls
  | raised hc hquiet =>
    obtain ⟨-, rfl⟩ := hc.step h
    exact .raised hc hquiet
  | connected hc hreport =>
    obtain ⟨hc', hsame⟩ := hc.step h
    exact .connected hc' (hsame.trans hreport)

theorem course_of_run {es : List Event}
    (h : run (step node) (startHandshake node ownChallenge role) es = some c) :
    Course node ownChallenge role (reads es).flatten c := by
  induction es using List.reverseRecOn generalizing c with
  | nil =>
    obtain rfl := Option.some_inj.mp h
    exact course_startHandshake node ownChallenge role
  | append_singleton es e ih =>
    obtain ⟨d, hd, hstep⟩ := run_concat_eq_some.mp h
    rw [reads_concat, List.flatten_append]
    exact (ih hd).step hstep

/-! ### Nobody is connected without the digest -/

/-- Before it is connected, nothing has been handled or dispatched. -/
theorem Course.beforeTraffic {T : MsgSeq} (hc : Course node ownChallenge role T c)
    (hstate : c.state ≠ .connected) : c.handled = [] ∧ c.calls = [] := by
  cases hc with
  | underway hc =>
    obtain ⟨taken, l, hstage, -, hquiet⟩ := hc
    exact ⟨hstage.inHandshake.beforeTraffic.2, hquiet.calls⟩
  | failed hc _ hcalls => exact ⟨hc.beforeTraffic.2, hcalls⟩
  | raised hc hquiet => exact ⟨hc.beforeTraffic.2, hquiet.calls⟩
  | connected hc _ => exact absurd hc.state hstate

/-- The step that leads to the connected state comes after the digest. -/
theorem Course.authenticated {T : MsgSeq} {e : Event} (hc : Course node ownChallenge role T c)
    (hstate : c.state ≠ .connected) (h : c.step node e = some c')
    (hstate' : c'.state = .connected) : Authenticated node ownChallenge role
      (handshakeFraming.split (T ++ (chunk e).flatten)).1 := by
  cases hc with
  | underway hc =>
    cases hc.step h with
    | underway _ hc' =>
      obtain ⟨taken, l, hstage, -⟩ := hc'
      exact absurd hstate' hstage.inHandshake.state_ne
    | failed _ hc' => exact absurd hstate' hc'.state_ne
    | raised _ hc' => exact absurd hstate' hc'.state_ne
    | connected _ _ _ hauth => exact hauth
  | failed hc =>
    obtain ⟨-, rfl⟩ := hc.step h
    exact absurd hstate' hstate
  | raised hc =>
    obtain ⟨-, rfl⟩ := hc.step h
    exact absurd hstate' hstate
  | connected hc => exact absurd hc.state hstate

/-- **Nobody gets to the connected state without the digest.** In every run, a connection that is
connected was not connected yet when it read a challenge reply, or a challenge ack, with the digest
of its own challenge. And as long as it is not connected, it has neither answered nor dispatched
anything. -/
theorem connected_only_authenticated {es : List Event}
    (h : run (step node) (startHandshake node ownChallenge role) es = some c) :
    (c.state = .connected → ∃ before e d, before ++ [e] <+: es ∧
      run (step node) (startHandshake node ownChallenge role) before = some d ∧
        d.state ≠ .connected ∧ Authenticated node ownChallenge role
          (handshakeFraming.split (reads (before ++ [e])).flatten).1) ∧
      (c.state ≠ .connected → c.handled = [] ∧ c.calls = []) := by
  refine ⟨?_, (course_of_run h).beforeTraffic⟩
  induction es using List.reverseRecOn generalizing c with
  | nil =>
    intro hstate
    obtain rfl := Option.some_inj.mp h
    exact absurd hstate (handshaking_startHandshake ownChallenge role).state_ne
  | append_singleton es e ih =>
    intro hstate
    obtain ⟨d, hd, hstep⟩ := run_concat_eq_some.mp h
    by_cases hbefore : d.state = .connected
    · obtain ⟨before, e', d', hpre, hrun, hne, hauth⟩ := ih hd hbefore
      exact ⟨before, e', d', hpre.trans (List.prefix_append _ _), hrun, hne, hauth⟩
    · refine ⟨es, e, d, List.prefix_rfl, hd, hbefore, ?_⟩
      rw [reads_concat, List.flatten_append]
      exact (course_of_run hd).authenticated hbefore hstep hstate

/-- What happens when a node with the right cookie connects to `nodeA`. -/
def connectedByB : List Event :=
  [.read (sendName (bytesOf "b@h")), .written, .written,
    .read (challengeReply ⟨2, nodeA.calculateDigest 1 nodeA.cookie⟩), .written]

theorem connected_only_authenticated_acceptor : ∃ before e d, before ++ [e] <+: connectedByB ∧
    run (step nodeA) (startHandshake nodeA 1 .acceptor) before = some d ∧ d.state ≠ .connected ∧
      Authenticated nodeA 1 .acceptor
        (handshakeFraming.split (reads (before ++ [e])).flatten).1 := by
  obtain ⟨c, hrun, hstate⟩ : ∃ c, run (step nodeA) (startHandshake nodeA 1 .acceptor)
      connectedByB = some c ∧ c.state = .connected := ⟨_, rfl, rfl⟩
  exact (connected_only_authenticated hrun).1 hstate

/-! ### Who is told -/

theorem Stage.waits {taken : List MsgSeq} {l : MsgLexer}
    (h : Stage node ownChallenge role taken l c) : c.pendingRead ≠ none ∨ c.writing = true := by
  cases h with
  | awaits _ hc => exact .inl (by rw [hc.pendingRead]; rintro ⟨⟩)
  | sends _ hc => exact .inr hc.writing
  | sendsStatus _ hc => exact .inr hc.writing

/-- **At most once**, in every run. -/
theorem Course.length_handshakeSuccess {T : MsgSeq} (hc : Course node ownChallenge role T c) :
    c.handshakeSuccess.length ≤ 1 := by
  cases hc with
  | underway hc =>
    obtain ⟨taken, l, -, -, hquiet⟩ := hc
    rw [hquiet.handshakeSuccess]
    exact Nat.zero_le 1
  | failed _ hreport => rw [hreport]; rfl
  | raised _ hquiet =>
    rw [hquiet.handshakeSuccess]
    exact Nat.zero_le 1
  | connected _ hreport => rw [hreport]; rfl

end NodeConnection

end TinchPp
