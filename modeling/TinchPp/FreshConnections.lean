import TinchPp.AgreeingCookies
import TinchPp.Traffic

/-!
# What a handshake leaves behind

Both ends of a handshake until one of the nodes makes its first request. An end that is connected has
nothing to write and waits for a frame, and as its peer has sent nothing behind its last message,
there is nothing to read. So the bytes of the handshake have all been read as such, and the traffic
begins with a clean stream in each direction.

## Main results

* `Endpoint.Handshaking.moves` — an end goes on with its handshake, or it has just connected
* `CookiePair.Fresh.step` — what every step keeps
* `CookiePair.fresh_of_run` — so every run without requests
-/

namespace TinchPp

open EventSystem NodeConnection

/-! ### One end -/

namespace Endpoint

variable {node : NodeAccess} {peerSent : MsgSeq} {p p' : Endpoint}

/-- An end in its handshake. What is handed over is what is being written. -/
structure Handshaking (p : Endpoint) : Prop where
  handshaking : p.connection.Handshaking
  writing : p.handedOver = true → p.connection.writing = true

/-- An end whose handshake is over, and where nothing has happened since. -/
structure JustConnected (p : Endpoint) : Prop where
  begins : ∃ c : NodeConnection, c.Running ∧ p.connection = c.makeTransitionToConnected
  handedOver : p.handedOver = false

namespace JustConnected

theorem connected (hp : p.JustConnected) : p.connection.Connected ∧ p.connection.BeforeTraffic := by
  obtain ⟨c, hc, hbegins⟩ := hp.begins
  rw [hbegins]
  exact hc.makeTransitionToConnected

theorem writeQueue (hp : p.JustConnected) : p.connection.writeQueue = [] := by
  obtain ⟨c, hc, hbegins⟩ := hp.begins
  rw [hbegins]
  exact hc.writeQueue

theorem pendingRead (hp : p.JustConnected) :
    p.connection.pendingRead = some (.msgReceived, .connected) := by
  obtain ⟨c, -, hbegins⟩ := hp.begins
  rw [hbegins]
  rfl

/-- All that can happen, short of a request, is that more comes in. -/
theorem exists_more (hp : p.JustConnected) (hpeer : p.received <+: peerSent) {e : EndpointEvent}
    (he : ∀ op, e ≠ .request op) (h : p.step node peerSent e = some p') :
    ∃ bytes, bytes ≠ [] ∧ p.received ++ bytes <+: peerSent := by
  cases e with
  | transmit =>
    rw [step] at h
    split at h
    · next hqueue => cases hp.writeQueue.symm.trans hqueue
    · cases h
  | written =>
    rw [step, if_neg (by simp [hp.handedOver])] at h
    cases h
  | read n =>
    obtain ⟨c, hc, -⟩ := Option.map_eq_some_iff.mp h
    obtain ⟨rest, rfl⟩ := hpeer
    refine ⟨_, (NodeConnection.step_read hc).1, ?_⟩
    rw [incoming, List.drop_left, List.prefix_append_right_inj]
    exact List.take_prefix n rest
  | request op => exact absurd rfl (he op)

end JustConnected

/-- **An end goes on with its handshake, or it has just connected.** -/
theorem Handshaking.moves (hp : p.Handshaking) (h : p.Moves node peerSent p') :
    p'.Handshaking ∨ p'.JustConnected := by
  cases h with
  | transmit _ hwriting => exact .inl ⟨hp.handshaking, fun _ => hwriting⟩
  | written _ hc =>
    rcases hp.handshaking.step hc with hc' | ⟨hc', -⟩
    · exact .inl ⟨hc', by rintro ⟨⟩⟩
    · exact .inr ⟨hp.handshaking.exists_transition hc hc'.state, rfl⟩
  | read _ hc =>
    -- an end that reads has written all it had to write
    have hwriting : p.connection.writing = false := by
      obtain ⟨-, callback, k, l, hpending, -⟩ := NodeConnection.step_read hc
      rcases hp.handshaking.waits with hw | ⟨-, -, -, -, hw⟩ | hw
      · exact hw.2
      · exact hw
      · cases hw.1.symm.trans hpending
    have hnew : p.handedOver = false := by
      by_contra hdone
      cases hwriting.symm.trans (hp.writing (Bool.of_not_eq_false hdone))
    rcases hp.handshaking.step hc with hc' | ⟨hc', -⟩
    · exact .inl ⟨hc', fun hdone => by cases hnew.symm.trans hdone⟩
    · exact .inr ⟨hp.handshaking.exists_transition hc hc'.state, hnew⟩
  | request hc =>
    rw [NodeConnection.step, request_of_ne hp.handshaking.state_ne] at hc
    obtain rfl := Option.some_inj.mp hc
    exact .inl hp

end Endpoint

/-! ### Both ends -/

/-- No node makes a request. -/
def PairEvent.isRequest : PairEvent → Bool
  | .originator (.request _) | .acceptor (.request _) => true
  | _ => false

namespace CookiePair

variable {q : CookiePair} {t t' : ConnectionPair} {p p' : Endpoint} {peerSent : MsgSeq}

/-- What an originator has sent that is not connected. -/
theorem OriginatorStage.sent_isPrefix (hp : OriginatorStage q p)
    (hstate : p.connection.state ≠ .connected) : p.sent <+: q.nameMsg ++ q.replyMsg := by
  cases hp with
  | sendingName hp =>
    rw [hp.sent]
    split
    · exact List.prefix_append _ _
    · exact List.nil_prefix
  | awaitingStatus _ _ _ hsent | awaitingChallenge _ _ _ hsent =>
    rw [hsent]
    exact List.prefix_append _ _
  | sendingReply hp =>
    rw [hp.sent]
    split
    · exact List.prefix_rfl
    · rw [List.append_nil]
      exact List.prefix_append _ _
  | awaitingAck _ _ _ hsent => rw [hsent]
  | connected hp => exact absurd hp.state hstate

/-- What an acceptor has sent that is not connected. -/
theorem AcceptorStage.sent_isPrefix (hp : AcceptorStage q p)
    (hstate : p.connection.state ≠ .connected) :
    p.sent <+: statusMsg ++ q.challengeMsg ++ q.ackMsg := by
  cases hp with
  | awaitingName _ _ _ hsent =>
    rw [hsent]
    exact List.nil_prefix
  | sendingStatus hp =>
    rw [hp.sent, List.append_assoc]
    split
    · exact List.prefix_append _ _
    · exact List.nil_prefix
  | sendingChallenge hp =>
    rw [hp.sent]
    split
    · exact List.prefix_append _ _
    · rw [List.append_nil, List.append_assoc]
      exact List.prefix_append _ _
  | awaitingReply _ _ _ _ hsent | givenUp _ _ hsent =>
    rw [hsent]
    exact List.prefix_append _ _
  | sendingAck hp =>
    rw [hp.sent]
    split
    · exact List.prefix_rfl
    · rw [List.append_nil]
      exact List.prefix_append _ _
  | connected hp => exact absurd hp.state hstate

theorem OriginatorStage.received_of_connected (hp : OriginatorStage q p)
    (hstate : p.connection.state = .connected) :
    statusMsg ++ q.challengeMsg ++ q.ackMsg <+: p.received := by
  cases hp with
  | sendingName hp | sendingReply hp => exact absurd hstate hp.state_ne
  | awaitingStatus hp | awaitingChallenge hp | awaitingAck hp => exact absurd hstate hp.state_ne
  | connected _ _ _ hreceived => exact hreceived

theorem AcceptorStage.received_of_connected (hp : AcceptorStage q p)
    (hstate : p.connection.state = .connected) : q.nameMsg ++ q.replyMsg <+: p.received := by
  cases hp with
  | awaitingName hp | awaitingReply hp => exact absurd hstate hp.state_ne
  | sendingStatus hp | sendingChallenge hp | sendingAck hp => exact absurd hstate hp.state_ne
  | givenUp hp => exact absurd hstate hp.state_ne
  | connected _ _ _ _ hreceived => exact hreceived

/-- What is true as long as there are no requests. -/
structure Fresh (q : CookiePair) (t : ConnectionPair) : Prop extends Wf q t where
  originatorEnd : t.originator.Handshaking ∨ t.originator.JustConnected
  acceptorEnd : t.acceptor.Handshaking ∨ t.acceptor.JustConnected
  originatorSent : t.originator.sent <+: q.nameMsg ++ q.replyMsg
  acceptorSent : t.acceptor.sent <+: statusMsg ++ q.challengeMsg ++ q.ackMsg

theorem fresh_start (q : CookiePair) (peerName : Str) : Fresh q (q.start peerName) where
  toWf := wf_start q peerName
  originatorEnd := .inl ⟨handshaking_startHandshakeAsA _ _, by rintro ⟨⟩⟩
  acceptorEnd := .inl ⟨handshaking_startHandshakeAsB _, by rintro ⟨⟩⟩
  originatorSent := List.nil_prefix
  acceptorSent := List.nil_prefix

theorem injOn_sameCookie : Set.InjOn sameCookie.a.md5 sameCookie.digested := by
  rintro _ ⟨_, _, rfl | rfl, rfl | rfl, rfl⟩ _ ⟨_, _, rfl | rfl, rfl | rfl, rfl⟩ hdigest
  all_goals first | rfl | exact absurd hdigest (by decide)

/-- **One end goes on.** It is in its handshake, or its peer would have sent more than `all`. -/
theorem step_of_fresh {node : NodeAccess} {all : MsgSeq} {e : EndpointEvent}
    (hp : p.Handshaking ∨ p.JustConnected) (hpeer : p.received <+: peerSent)
    (hall : p.connection.state = .connected → all <+: p.received) (hsent : peerSent <+: all)
    (he : ∀ op, e ≠ .request op) (h : p.step node peerSent e = some p') :
    p.connection.state ≠ .connected ∧ (p'.Handshaking ∨ p'.JustConnected) := by
  rcases hp with hp | hp
  · exact ⟨hp.handshaking.state_ne, hp.moves (Endpoint.moves_of_step hpeer h)⟩
  · obtain ⟨bytes, hne, hmore⟩ := hp.exists_more hpeer he h
    have hback := hmore.trans (hsent.trans (hall hp.connected.1.state))
    exact absurd hback (Framing.not_append_isPrefix hne)

/-- Only an end that is not connected yet sends something. -/
theorem sent_eq_or_state_eq {node : NodeAccess} (h : p.Moves node peerSent p') :
    p'.sent = p.sent ∨ p'.connection.state = p.connection.state := by
  cases h with
  | transmit => exact .inr rfl
  | written | read | request => exact .inl rfl

/-- **What every step keeps**, unless it is a request. -/
theorem Fresh.step (hinj : Set.InjOn q.a.md5 q.digested) (ht : Fresh q t) {e : PairEvent}
    (he : e.isRequest = false) (h : q.step t e = some t') : Fresh q t' := by
  have hwf := ht.toWf.step hinj h
  cases e with
  | originator e =>
    have hrequest : ∀ op, e ≠ .request op := by
      rintro op rfl
      cases he
    obtain ⟨p, hp, rfl⟩ := Option.map_eq_some_iff.mp h
    obtain ⟨hstate, hend⟩ := step_of_fresh ht.originatorEnd ht.toOriginator
      ht.originator.received_of_connected ht.acceptorSent hrequest hp
    refine ⟨hwf, hend, ht.acceptorEnd, ?_, ht.acceptorSent⟩
    rcases sent_eq_or_state_eq (Endpoint.moves_of_step ht.toOriginator hp) with hsent | hstate'
    · show p.sent <+: _
      rw [hsent]
      exact ht.originatorSent
    · exact hwf.originator.sent_isPrefix (hstate' ▸ hstate)
  | acceptor e =>
    have hrequest : ∀ op, e ≠ .request op := by
      rintro op rfl
      cases he
    obtain ⟨p, hp, rfl⟩ := Option.map_eq_some_iff.mp h
    obtain ⟨hstate, hend⟩ := step_of_fresh ht.acceptorEnd ht.toAcceptor
      ht.acceptor.received_of_connected ht.originatorSent hrequest hp
    refine ⟨hwf, ht.originatorEnd, hend, ht.originatorSent, ?_⟩
    rcases sent_eq_or_state_eq (Endpoint.moves_of_step ht.toAcceptor hp) with hsent | hstate'
    · show p.sent <+: _
      rw [hsent]
      exact ht.acceptorSent
    · exact hwf.acceptor.sent_isPrefix (hstate' ▸ hstate)

/-- **In every run without requests.** -/
theorem fresh_of_run (hinj : Set.InjOn q.a.md5 q.digested) {peerName : Str} {es : List PairEvent}
    (hes : ∀ e ∈ es, e.isRequest = false) (h : run q.step (q.start peerName) es = some t) :
    Fresh q t := by
  refine run_history_induction (P := fun es t => (∀ e ∈ es, e.isRequest = false) → Fresh q t)
    (fun _ => fresh_start q peerName) (fun es s e t hs hstep hes => ?_) h hes
  have hs' := hs fun e' he' => hes e' (List.mem_append_left _ he')
  exact hs'.step hinj (hes e (List.mem_append_right _ (List.mem_singleton_self e))) hstep

end CookiePair

end TinchPp
