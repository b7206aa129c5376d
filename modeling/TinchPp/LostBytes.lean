import TinchPp.HandshakeEnd

/-!
# Bytes that are lost

The other direction of `PeerStream.noBytesLost_of_safelyCut`. As soon as a read is not safely cut,
some bytes of the frames are, or will be, in the handshake lexer. A connection in that situation is
`Behind`: it has received less on its connected lexer than the peer has sent after the handshake,
and that does not change any more.

## Main results

* `PeerStream.Progress.behind_of_read`, `PeerStream.Progress.length_lt_of_read` — the read that is
  not safely cut
* `PeerStream.Behind.step` — nothing makes up for it
* `PeerStream.noBytesLost_iff` — no bytes are lost exactly if the reads are safely cut
-/

namespace TinchPp

open EventSystem NodeConnection

namespace PeerStream

variable {node : NodeAccess} {ownChallenge : UInt32} (p : PeerStream node ownChallenge)

/-- How many bytes have got to the connected lexer. -/
def received (c : NodeConnection) : ℕ :=
  (c.handled ++ c.connectedMsgs.msgs).flatten.length + c.connectedMsgs.incomplete.length

/-- `Behind p T c`: the connection has read `T`, and bytes from behind the handshake are not, or
will not be, on its connected lexer. -/
inductive Behind : MsgSeq → NodeConnection → Prop
  | sendingReply {T l c} (hc : Writes ownChallenge .sendingChallengeReply .replySent l c)
      (hT : p.handshake.length ≤ T.length) : Behind T c
  | awaitingAck {T l c}
      (hc : WaitsFor ownChallenge .receivingChallengeAck .challengeAckRead l c)
      (hT : p.handshake.length ≤ T.length) : Behind T c
  | givenUp {T c} (hc : GivenUp c) : Behind T c
  | connected {T c} (hc : Connected c) (hT : p.handshake.length + received c < T.length) :
      Behind T c

variable {p} {c c' : NodeConnection} {T : MsgSeq}

theorem received_of_beforeTraffic (h : c.BeforeTraffic) : received c = 0 := by
  rw [received, h.1, h.2]
  rfl

theorem received_step_read (hc : Connected c) {b : MsgSeq}
    (h : c.step node (.read b) = some c') : received c' = received c + b.length := by
  obtain ⟨-, l, hadd, -, -, hlexer, hhandled⟩ := hc.step_read h
  have hbytes := congrArg List.length (MsgLexer.flatten_add hadd)
  simp only [List.length_append] at hbytes
  rw [received, received, hlexer, hhandled, List.append_assoc, head_append_tail]
  simp only [List.flatten_append, List.length_append]
  omega

namespace Behind

/-- **Nothing makes up for what is lost.** -/
theorem step (hb : p.Behind T c) {e : Event} (h : c.step node e = some c') :
    p.Behind (T ++ (chunk e).flatten) c' := by
  cases hb with
  | sendingReply hc hT =>
    obtain ⟨hchunk, hstep⟩ := hc.step h
    rw [hchunk, List.flatten_nil, List.append_nil]
    rcases hstep with rfl | hc' | ⟨c₀, hc₀, -, rfl⟩
    · exact .sendingReply hc hT
    · exact .givenUp hc'.givenUp
    · have hne : ConnectionState.receivingChallengeAck ≠ .connected := by rintro ⟨⟩
      exact .awaitingAck (hc₀.waitsFor hne .challengeAckRead) hT
  | awaitingAck hc hT =>
    rcases e.ne_read_or_eq with hne | ⟨b, rfl⟩
    · rw [chunk_of_ne_read hne, List.flatten_nil, List.append_nil]
      rcases hc.step_of_ne_read hne h with rfl | hc'
      · exact .awaitingAck hc hT
      · exact .givenUp hc'.givenUp
    · -- the read goes to the handshake lexer
      obtain ⟨hb, l', -, hread⟩ := hc.step_read h
      have hlen : T.length < (T ++ (chunk (.read b)).flatten).length := by
        have := List.length_pos_of_ne_nil hb
        rw [chunk, List.flatten_singleton, List.length_append]
        omega
      rcases hread with ⟨-, hc', -⟩ | ⟨-, c₀, hc₀, -, hread⟩
      · exact .awaitingAck hc' (by omega)
      · rcases hc₀.toRunning.challengeAckRead hread with hc' | ⟨hc', hbefore⟩
        · exact .givenUp hc'
        · exact .connected hc' (by rw [received_of_beforeTraffic hbefore]; omega)
  | givenUp hc =>
    obtain ⟨-, rfl⟩ := hc.step h
    exact .givenUp hc
  | connected hc hT =>
    rcases e.ne_read_or_eq with hne | ⟨b, rfl⟩
    · obtain ⟨hc', hlexer, hhandled, -⟩ := hc.step_of_ne_read hne h
      rw [chunk_of_ne_read hne, List.flatten_nil, List.append_nil]
      exact .connected hc' (by rwa [received, hlexer, hhandled])
    · obtain ⟨-, l, -, hc', -⟩ := hc.step_read h
      refine .connected hc' ?_
      rw [received_step_read hc h, chunk, List.flatten_singleton, List.length_append]
      omega

/-- At the end of the stream, frames are missing. -/
theorem ne_frames (hb : p.Behind p.bytes c) (hframes : p.frames ≠ []) :
    c.handled ++ c.connectedMsgs.msgs ≠ p.frames := by
  have hnothing (hbefore : c.BeforeTraffic) : c.handled ++ c.connectedMsgs.msgs ≠ p.frames := by
    rw [hbefore.1, hbefore.2]
    exact hframes.symm
  cases hb with
  | sendingReply hc => exact hnothing hc.beforeTraffic
  | awaitingAck hc => exact hnothing hc.beforeTraffic
  | givenUp hc => exact hnothing hc.beforeTraffic
  | connected hc hT =>
    intro hall
    rw [received, hall, bytes, List.length_append] at hT
    omega

end Behind

/-! ### The read that is not safely cut -/

theorem Runs.receiveChallenge {inc : MsgSeq} {rest : List MsgSeq}
    (hc : Runs ownChallenge ⟨inc, p.challenge :: rest⟩ c)
    (h : c.receiveChallenge node .handshake = some c') :
    Writes ownChallenge .sendingChallengeReply .replySent ⟨inc, rest⟩ c' := by
  rw [NodeConnection.receiveChallenge, lexer, hc.handshakeMsgs,
    if_pos (by simp [MsgLexer.hasCompleteMsg])] at h
  exact hc.challengeRead h

/-- A read that brings the end of the handshake and more, or all of it from the challenge on. -/
theorem Progress.behind_of_read {b : MsgSeq} (hp : p.Progress T c)
    (h : c.step node (.read b) = some c') (hpre : T ++ b <+: p.bytes)
    (hlt : T.length < p.handshake.length)
    (hbad : p.handshake.length < (T ++ b).length ∨
      T.length < (p.status ++ p.challenge).length ∧ p.handshake.length ≤ (T ++ b).length) :
    p.Behind (T ++ b) c' := by
  have hend : p.handshake.length ≤ (T ++ b).length := by omega
  have hlen := p.length_handshake
  have hpre' : T ++ b <+: p.status ++ (p.challenge ++ (p.ack ++ p.frames.flatten)) := by
    simpa [bytes, handshake, List.append_assoc] using hpre
  cases hp with
  | sendingName hc => exact absurd (hc.step h).1 (by simp [chunk])
  | awaitingStatus hc hT hne =>
    rcases Framing.prefix_append_cases hpre' with ⟨hX, -⟩ | ⟨v, hv, hvpre⟩
    · have := hX.length_le
      have := length_ack_pos (p := p)
      omega
    have hvlen : (T ++ b).length = p.status.length + v.length := by rw [hv, List.length_append]
    rcases Framing.prefix_append_cases hvpre with ⟨hX, -⟩ | ⟨w, rfl, -⟩
    · have := hX.length_le
      have := length_ack_pos (p := p)
      omega
    have hsplit := Framing.split_frame_append (s := p.challenge ++ w) p.status_isFrame
    rw [Framing.split_frame_append p.challenge_isFrame, ← hv] at hsplit
    obtain ⟨c₀, hc₀, hread⟩ := hc.step_read_cons hsplit h
    obtain ⟨c₁, hc₁, -, hreceive⟩ := hc₀.statusRead hread
    exact .sendingReply (hc₁.receiveChallenge hreceive) hend
  | @awaitingChallenge u _ hc hu hne =>
    rw [List.append_assoc, List.prefix_append_right_inj] at hpre'
    have hlen' : (p.status ++ (u ++ b)).length = p.status.length + (u ++ b).length :=
      List.length_append
    rw [List.append_assoc] at hend ⊢
    rcases Framing.prefix_append_cases hpre' with ⟨hX, -⟩ | ⟨w, hw, -⟩
    · have := hX.length_le
      have := length_ack_pos (p := p)
      omega
    have hsplit := Framing.split_frame_append (s := w) p.challenge_isFrame
    rw [← hw] at hsplit
    obtain ⟨c₀, hc₀, hread⟩ := hc.step_read_cons hsplit h
    exact .sendingReply (hc₀.challengeRead hread) hend
  | sendingReply hc => exact absurd (hc.step h).1 (by simp [chunk])
  | @awaitingAck u _ hc hu hne =>
    have hmore : p.handshake.length < (p.status ++ p.challenge ++ u ++ b).length := by
      simp only [List.length_append] at hbad ⊢
      omega
    have hpre' : u ++ b <+: p.ack ++ p.frames.flatten := by
      rw [List.append_assoc, List.append_assoc, List.prefix_append_right_inj,
        List.prefix_append_right_inj] at hpre'
      exact hpre'
    rcases Framing.prefix_append_cases hpre' with ⟨hX, -⟩ | ⟨w, hw, -⟩
    · have := hX.length_le
      simp only [List.length_append] at this hmore
      omega
    have hsplit := Framing.split_frame_append (s := w) p.ack_isFrame
    rw [← hw] at hsplit
    obtain ⟨c₀, hc₀, hread⟩ := hc.step_read_cons hsplit h
    obtain ⟨hc', hbefore⟩ := hc₀.challengeAckRead hread
    exact .connected hc' (by rw [received_of_beforeTraffic hbefore]; omega)
  | connected =>
    rw [List.length_append] at hlt
    omega
  | givenUp hc => exact absurd rfl ((hc.step h).1 b)
  | allRead => omega

/-- A challenge that is waited for is never read to its end. -/
theorem Progress.length_lt_of_read {b : MsgSeq} (hp : p.Progress T c)
    (h : c.step node (.read b) = some c') (hpre : T ++ b <+: p.bytes)
    (hle : p.status.length ≤ T.length) (hlt : T.length < (p.status ++ p.challenge).length) :
    (T ++ b).length < (p.status ++ p.challenge).length := by
  have hlen := p.length_handshake
  rw [List.length_append] at hlt
  cases hp with
  | sendingName hc => exact absurd (hc.step h).1 (by simp [chunk])
  | awaitingStatus _ hT hne =>
    have := length_lt_of_isPrefix hT hne
    omega
  | @awaitingChallenge u _ hc hu hne =>
    have hpre' : u ++ b <+: p.challenge ++ (p.ack ++ p.frames.flatten) := by
      simpa [bytes, handshake, List.append_assoc] using hpre
    rcases Framing.prefix_append_cases hpre' with ⟨hX, hneX⟩ | ⟨w, hw, -⟩
    · have := length_lt_of_isPrefix hX hneX
      simp only [List.length_append] at this ⊢
      omega
    · -- the read would be undefined
      have hsplit := Framing.split_frame_append (s := w) p.challenge_isFrame
      rw [← hw] at hsplit
      obtain ⟨attributes, hparse⟩ := p.challenge_parses
      have hsize : 0 < b.length ∧ b.length ≤ readBufferSize := by
        by_contra hsize
        rw [step, if_neg hsize] at h
        cases h
      have hundefined : Undefined node c (.read b) := (hc.undefined_read_iff (by rintro ⟨⟩)).mpr
        ⟨hsize, rfl, _, _, _, hsplit, by rw [hparse]; rintro ⟨⟩⟩
      cases hundefined.2.symm.trans h
  | sendingReply | awaitingAck =>
    simp only [List.length_append] at hlt
    omega
  | connected =>
    rw [List.length_append] at hlt
    omega
  | givenUp hc => exact absurd rfl ((hc.step h).1 b)
  | allRead => omega

/-! ### Runs -/

variable (p) in
/-- The part of `SafelyCut` that is about the first `n` reads, where frames follow. -/
def CutUpTo (rs : List MsgSeq) (n : ℕ) : Prop := ∀ i < n,
  ((rs.take i).flatten.length < p.handshake.length →
    (rs.take (i + 1)).flatten.length ≤ p.handshake.length) ∧
  ((rs.take i).flatten.length < (p.status ++ p.challenge).length →
    (rs.take (i + 1)).flatten.length < p.handshake.length)

/-- **Each read is safely cut, or the connection is behind from there on.** -/
theorem progress_or_behind {rs : List MsgSeq} (hrs : rs.flatten = p.bytes)
    (hfit : ∀ f ∈ p.frames, f.length < 2 ^ 32) (peerName : Str) (es : List Event) :
    ∀ {c}, reads es <+: rs →
      run (NodeConnection.step node) (startHandshakeAsA node ownChallenge peerName) es = some c →
        p.Progress (reads es).flatten c ∧ p.CutUpTo rs (reads es).length ∨
          p.Behind (reads es).flatten c := by
  induction es using List.reverseRecOn with
  | nil =>
    intro c _ h
    obtain rfl := Option.some_inj.mp h
    exact .inl ⟨.sendingName ⟨⟨by rintro ⟨⟩, rfl, rfl, rfl⟩, rfl, rfl, rfl, rfl, ⟨_, rfl⟩, rfl⟩,
      by rintro _ ⟨⟩⟩
  | append_singleton es e ih =>
    intro c' hpre h
    obtain ⟨c, hc, hstep⟩ := run_concat_eq_some.mp h
    rw [reads_concat] at hpre ⊢
    rcases ih ((List.prefix_append _ _).trans hpre) hc with ⟨hp, hcut⟩ | hb
    · rcases e.ne_read_or_eq with hne | ⟨b, rfl⟩
      · rw [chunk_of_ne_read hne, List.append_nil]
        exact .inl ⟨hp.step_of_ne_read hne hstep, hcut⟩
      · obtain ⟨-, hbefore, hnow⟩ := take_of_concat_isPrefix hpre
        have hread := flatten_isPrefix hpre
        rw [chunk, flatten_concat] at hread ⊢
        rw [hrs] at hread
        by_cases hsafe : ((reads es).flatten.length < p.handshake.length →
            ((reads es).flatten ++ b).length ≤ p.handshake.length) ∧
          ((reads es).flatten.length < (p.status ++ p.challenge).length →
            ((reads es).flatten ++ b).length < p.handshake.length)
        · refine .inl ⟨hp.step_read hstep hread hsafe.1 (fun _ => hsafe.2)
            (fieldsFit_flatten p.frames_isFrame hfit), fun i hi => ?_⟩
          rw [List.length_append] at hi
          rcases Nat.lt_succ_iff_lt_or_eq.mp hi with hi | rfl
          · exact hcut i hi
          · rw [hbefore, hnow, flatten_concat]
            exact hsafe
        · have hshort : (p.status ++ p.challenge).length ≤ p.handshake.length :=
            (List.prefix_append _ p.ack).length_le
          exact .inr (hp.behind_of_read hstep hread (by omega) (by omega))
    · rw [List.flatten_append]
      exact .inr (hb.step hstep)

/-- A connection has handled, or is about to handle, messages of fewer than `2 ^ 32` bytes. -/
theorem length_lt_of_run (peerName : Str) {es : List Event}
    (h : run (NodeConnection.step node) (startHandshakeAsA node ownChallenge peerName) es =
      some c) : ∀ m ∈ c.handled ++ c.connectedMsgs.msgs, m.length < 2 ^ 32 := by
  let Short (c : NodeConnection) : Prop :=
    Handshaking c ∨ Connected c ∧ ∀ m ∈ c.handled ++ c.connectedMsgs.msgs, m.length < 2 ^ 32
  have hempty {c : NodeConnection} (hc : c.BeforeTraffic) :
      ∀ m ∈ c.handled ++ c.connectedMsgs.msgs, m.length < 2 ^ 32 := by
    rw [hc.1, hc.2]
    rintro _ ⟨⟩
  have hstep : ∀ s e t, Short s → s.step node e = some t → Short t := by
    rintro s e t (hs | ⟨hs, hshort⟩) hst
    · exact (hs.step hst).imp_right fun ht => ⟨ht.1, hempty ht.2⟩
    · rcases e.ne_read_or_eq with hne | ⟨b, rfl⟩
      · obtain ⟨ht, hlexer, hhandled, -⟩ := hs.step_of_ne_read hne hst
        exact .inr ⟨ht, by rwa [hlexer, hhandled]⟩
      · obtain ⟨-, l, hadd, ht, -, hlexer, hhandled⟩ := hs.step_read hst
        have hl := MsgLexer.length_lt_of_add hadd fun m hm =>
          hshort m (List.mem_append_right _ hm)
        refine .inr ⟨ht, fun m hm => ?_⟩
        rw [hlexer, hhandled, List.append_assoc, head_append_tail] at hm
        rcases List.mem_append.mp hm with hm | hm
        · exact hshort m (List.mem_append_left _ hm)
        · exact hl m hm
  have hstart : Short (startHandshakeAsA node ownChallenge peerName) :=
    .inl (handshaking_startHandshakeAsA ownChallenge peerName)
  rcases run_induction hstep hstart h with hc | ⟨-, hshort⟩
  · exact hempty hc.beforeTraffic
  · exact hshort

/-- **A run does not get past a challenge that is read apart from the status.** -/
theorem challenge_with_status_of_run {rs : List MsgSeq} (hrs : rs.flatten = p.bytes)
    (hfit : ∀ f ∈ p.frames, f.length < 2 ^ 32) (peerName : Str) (es : List Event) :
    ∀ {c}, reads es <+: rs →
      run (NodeConnection.step node) (startHandshakeAsA node ownChallenge peerName) es = some c →
        (∀ i ≤ (reads es).length, (rs.take i).flatten.length < p.status.length ∨
          (p.status ++ p.challenge).length ≤ (rs.take i).flatten.length) ∨
        p.status.length ≤ (reads es).flatten.length ∧
          (reads es).flatten.length < (p.status ++ p.challenge).length := by
  induction es using List.reverseRecOn with
  | nil =>
    intro c _ _
    refine .inl fun i hi => .inl ?_
    obtain rfl : i = 0 := Nat.le_zero.mp hi
    exact List.length_pos_of_ne_nil p.status_isFrame.ne_nil
  | append_singleton es e ih =>
    intro c' hpre h
    obtain ⟨c, hc, hstep⟩ := run_concat_eq_some.mp h
    rw [reads_concat] at hpre ⊢
    have hbefore := (List.prefix_append _ _).trans hpre
    rcases e.ne_read_or_eq with hne | ⟨b, rfl⟩
    · rw [chunk_of_ne_read hne, List.append_nil]
      exact ih hbefore hc
    · obtain ⟨-, -, hnow⟩ := take_of_concat_isPrefix hpre
      have hread := flatten_isPrefix hpre
      rw [chunk, flatten_concat] at hread ⊢
      rw [hrs] at hread
      rcases ih hbefore hc with hall | ⟨hle, hlt⟩
      · by_cases hsafe : ((reads es).flatten ++ b).length < p.status.length ∨
          (p.status ++ p.challenge).length ≤ ((reads es).flatten ++ b).length
        · refine .inl fun i hi => ?_
          rw [List.length_append, List.length_singleton] at hi
          rcases Nat.le_succ_iff.mp hi with hi | rfl
          · exact hall i hi
          · rwa [Nat.succ_eq_add_one, hnow, flatten_concat]
        · rw [not_or, Nat.not_lt, Nat.not_le] at hsafe
          exact .inr hsafe
      · right
        refine ⟨hle.trans (by rw [List.length_append]; omega), ?_⟩
        have hlen := p.length_handshake
        have hshort : (p.status ++ p.challenge).length =
          p.status.length + p.challenge.length := List.length_append
        rcases progress_or_behind hrs hfit peerName es hbefore hc with ⟨hp, -⟩ | hb
        · exact hp.length_lt_of_read hstep hread hle hlt
        · cases hb with
          | sendingReply _ hT | awaitingAck _ hT => omega
          | givenUp hc => exact absurd rfl ((hc.step hstep).1 b)
          | connected _ hT => omega

/-- A run that has read everything and lost nothing had safely cut reads. -/
theorem safelyCut_of_noBytesLost {rs : List MsgSeq} (hrs : rs.flatten = p.bytes) (peerName : Str)
    {es : List Event} (hes : reads es = rs)
    (h : run (NodeConnection.step node) (startHandshakeAsA node ownChallenge peerName) es =
      some c) (hlost : p.NoBytesLost rs es c) : p.SafelyCut rs := by
  have hall := hlost.2 hes
  have hfit : ∀ f ∈ p.frames, f.length < 2 ^ 32 := hall ▸ length_lt_of_run peerName h
  have hapart : ∀ i ≤ rs.length, (rs.take i).flatten.length < p.status.length ∨
      (p.status ++ p.challenge).length ≤ (rs.take i).flatten.length := by
    rcases challenge_with_status_of_run hrs hfit peerName es (hes ▸ List.prefix_rfl) h with
      hall | ⟨-, hlt⟩
    · rwa [hes] at hall
    · have hlen := p.length_handshake
      rw [hes, hrs, bytes] at hlt
      simp only [List.length_append] at hlt
      omega
  by_cases hframes : p.frames = []
  · -- nothing follows the ack
    refine ⟨hapart, fun i _ _ => ?_, fun hne => absurd hframes hne, hfit⟩
    have hle := (flatten_isPrefix (List.take_prefix (i + 1) rs)).length_le
    rwa [hrs, bytes, hframes, List.flatten_nil, List.append_nil] at hle
  · rcases progress_or_behind hrs hfit peerName es (hes ▸ List.prefix_rfl) h with ⟨-, hcut⟩ | hb
    · rw [hes] at hcut
      exact ⟨hapart, fun i hi => (hcut i hi).1, fun _ i hi => (hcut i hi).2, hfit⟩
    · rw [hes, hrs] at hb
      exact absurd hall (hb.ne_frames hframes)

/-- **No bytes are lost when the handshake ends, exactly if the reads are safely cut**: then in
every run of an originator that gets its bytes in these reads, and no read of the handshake is
undefined; and otherwise in none that has read them all. -/
theorem noBytesLost_iff {rs : List MsgSeq} (hrs : rs.flatten = p.bytes) (peerName : Str) :
    (p.SafelyCut rs → ∀ es c, reads es <+: rs →
      run (NodeConnection.step node) (startHandshakeAsA node ownChallenge peerName) es = some c →
        p.NoBytesLost rs es c ∧ ∀ b, reads es ++ [b] <+: rs → c.state ≠ .connected →
          ¬ c.Undefined node (.read b)) ∧
    ∀ es c, reads es = rs →
      run (NodeConnection.step node) (startHandshakeAsA node ownChallenge peerName) es = some c →
        p.NoBytesLost rs es c → p.SafelyCut rs :=
  ⟨fun hcut _ _ hes h => ⟨noBytesLost_of_safelyCut hrs hcut peerName hes h,
      fun _ hread hstate => not_undefined_of_safelyCut hrs hcut peerName hread h hstate⟩,
    fun _ _ hes h hlost => safelyCut_of_noBytesLost hrs peerName hes h hlost⟩

/-- A peer that sends a tick after its handshake. -/
def streamOfB : PeerStream nodeA 1 :=
  ofB nodeA 1 2 (show bytesOf "b@h" ≠ [] from by decide) (by decide)
    (show ∀ f ∈ [tick], connectedFraming.IsFrame f from by decide)

/-- The ack and the tick in a read of their own: the tick is handled. -/
theorem noBytesLost_streamOfB : ∃ c,
    run (NodeConnection.step nodeA) (startHandshakeAsA nodeA 1 (bytesOf "b"))
      [.written, .read (streamOfB.status ++ streamOfB.challenge), .written, .read streamOfB.ack,
        .read tick] = some c ∧
    streamOfB.NoBytesLost [streamOfB.status ++ streamOfB.challenge, streamOfB.ack, tick]
      [.written, .read (streamOfB.status ++ streamOfB.challenge), .written, .read streamOfB.ack,
        .read tick] c := by
  refine ⟨_, rfl, ?_⟩
  have hcut : streamOfB.SafelyCut
      [streamOfB.status ++ streamOfB.challenge, streamOfB.ack, tick] :=
    ⟨by decide, by decide, fun _ => by decide, by decide⟩
  exact ((noBytesLost_iff (by decide) (bytesOf "b")).1 hcut _ _ List.prefix_rfl rfl).1

/-- The ack and the tick in one read: the tick is lost. -/
theorem tick_is_lost : ∃ c,
    run (NodeConnection.step nodeA) (startHandshakeAsA nodeA 1 (bytesOf "b"))
      [.written, .read (streamOfB.status ++ streamOfB.challenge), .written,
        .read (streamOfB.ack ++ tick)] = some c ∧
    [streamOfB.status ++ streamOfB.challenge, streamOfB.ack ++ tick].flatten = streamOfB.bytes ∧
    ¬ streamOfB.NoBytesLost [streamOfB.status ++ streamOfB.challenge, streamOfB.ack ++ tick]
      [.written, .read (streamOfB.status ++ streamOfB.challenge), .written,
        .read (streamOfB.ack ++ tick)] c := by
  refine ⟨_, rfl, by decide, fun h => ?_⟩
  exact absurd (h.2 rfl) (by decide)

/-- The status and the challenge in a read of their own: what the second one does is undefined. -/
theorem challenge_apart_is_undefined : ∃ c,
    run (NodeConnection.step nodeA) (startHandshakeAsA nodeA 1 (bytesOf "b"))
      [.written, .read streamOfB.status] = some c ∧
    c.Undefined nodeA (.read streamOfB.challenge) :=
  ⟨_, rfl, ⟨by rintro ⟨⟩, by decide⟩, rfl⟩

end PeerStream

end TinchPp
