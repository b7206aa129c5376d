import TinchPp.AgreeingCookies
import TinchPp.Md5Digests

/-!
# Cookies and MD5

`calculate_digest` of `utils.cpp`, and what becomes of a handshake with it. That two nodes connect
exactly if their cookies agree takes that the digests of what they hash are different. With MD5 they
need not be. But two nodes with different cookies that do connect have found a collision of its
compression function.

`calculate_digest` hands the number of bytes to `md5_append` as an `int`, and this shifts it: a cookie
has to be shorter than `2 ^ 28` bytes, with a challenge appended (`NodeAccess.ComputesDigests`).

A challenge is appended to a cookie, and so two cookies that lead MD5 to the same state have the same
digest for every challenge. Nodes with such cookies cannot tell each other apart.

## Main results

* `calculateDigest_eq` — what `calculate_digest` computes
* `NodeAccess.computesDigests_iff` — the nodes that have what it computes
* `CookiePair.collides_of_connected` — how nodes with different cookies get to be connected
* `NodeConnection.run_eq_of_absorb_eq` — cookies that are as good as each other
-/

namespace TinchPp

open EventSystem Md5

theorem length_challenge_le (challenge : UInt32) :
    (bytesOf (toString challenge.toNat)).length ≤ 10 := by
  have hlt := challenge.toNat_lt
  rw [bytesOf, List.length_map, String.length_toList]
  exact (Nat.length_repr_le_iff (by decide)).mpr (by omega)

/-- **What `calculate_digest` computes**, from any state. It is undefined for a text of `2 ^ 28`
bytes, where `md5_append` gets a number of bytes that it cannot take. -/
theorem calculateDigest_eq (order : ByteOrder) (state : Md5State) (challenge : UInt32)
    (cookie : Str) : calculateDigest order state challenge cookie =
      if (cookie ++ bytesOf (toString challenge.toNat)).length < 2 ^ 28 then
        some (digest (cookie ++ bytesOf (toString challenge.toNat))).toList
      else none := by
  split
  · next hlen =>
    obtain ⟨state₁, happend, h₁⟩ := (represents_init state).append order _ hlen
    obtain ⟨state₂, hfinish⟩ := h₁.finish order
    simp only [calculateDigest, happend, hfinish, List.nil_append, Option.bind_eq_bind,
      Option.bind_some]
  · next hlen =>
    simp only [calculateDigest, append_eq_none order _ (Nat.not_lt.mp hlen), Option.bind_eq_bind,
      Option.bind_none]

namespace NodeAccess

variable {node : NodeAccess}

/-- What the node has for digests of its own cookie is what `calculate_digest` returns, on every
machine and from every state. -/
def ComputesDigests (node : NodeAccess) : Prop := ∀ order state challenge,
  TinchPp.calculateDigest order state challenge node.cookie =
    some (node.calculateDigest challenge node.cookie)

/-- The texts are short enough, and the digests are digests of MD5. -/
theorem computesDigests_iff : node.ComputesDigests ↔ ∀ challenge : UInt32,
    (node.cookie ++ bytesOf (toString challenge.toNat)).length < 2 ^ 28 ∧
      node.md5 (node.cookie ++ bytesOf (toString challenge.toNat)) =
        digest (node.cookie ++ bytesOf (toString challenge.toNat)) := by
  constructor
  · intro h challenge
    have hdigest := h .littleEndian ⟨Vector.replicate 2 0, initial, Vector.replicate 64 0⟩ challenge
    rw [calculateDigest_eq] at hdigest
    split at hdigest
    · next hlen => exact ⟨hlen, (Vector.toList_inj.mp (Option.some_inj.mp hdigest)).symm⟩
    · cases hdigest
  · intro h order state challenge
    rw [calculateDigest_eq, if_pos (h challenge).1, calculateDigest, (h challenge).2]

/-- So it is with MD5 and a cookie that leaves room for the ten digits of a challenge. -/
theorem computesDigests_of_length (hmd5 : node.md5 = digest)
    (hlen : node.cookie.length + 10 < 2 ^ 28) : node.ComputesDigests := by
  refine computesDigests_iff.mpr fun challenge => ⟨?_, by rw [hmd5]⟩
  have htext := length_challenge_le challenge
  rw [List.length_append]
  omega

end NodeAccess

/-! ### Cookies that are as good as each other -/

/-- What is appended to two messages of the same length in the same state of the hash. -/
theorem digest_append_eq {m m' : MsgSeq} (hlen : m.length = m'.length)
    (hstate : md5.absorb initial m = md5.absorb initial m') (s : MsgSeq) :
    digest (m ++ s) = digest (m' ++ s) := by
  have hpadded : md5.absorb initial (padded (m ++ s)) = md5.absorb initial (padded (m' ++ s)) := by
    simp only [padded, List.append_assoc, List.length_append, hlen]
    rw [BlockHash.absorb_append, hstate, ← BlockHash.absorb_append]
  rw [digest, digest, hpadded]

namespace NodeConnection

/-- All that a connection makes of its node is the name and the digests. -/
theorem step_congr {node node' : NodeAccess} (hname : node.name = node'.name)
    (hdigest : ∀ challenge, node.calculateDigest challenge node.cookie =
      node'.calculateDigest challenge node'.cookie) (c : NodeConnection) (e : Event) :
    c.step node e = c.step node' e := by
  have hio (error : Str) (c : NodeConnection) :
      c.handleIoError node error = c.handleIoError node' error := by
    simp only [handleIoError, hname]
  have hcorrect (digest : MsgSeq) (c : NodeConnection) :
      c.isCorrect node digest = c.isCorrect node' digest := by
    rw [isCorrect, isCorrect, decide_eq_decide, hdigest]
  have hread (callback : ReadCallback) (k : LexerKind) (c : NodeConnection) :
      c.invokeRead node callback k = c.invokeRead node' callback k := by
    cases callback <;>
      simp only [invokeRead, nameRead, sendStatusAndChallenge, statusRead, dispatchStatus,
        receiveChallenge, challengeRead, sendReply, replyReceived, challengeAckRead, hcorrect,
        sendAck, hname, hdigest]
  cases e <;>
    simp only [step, checkedRead, checkedReadError, checkedWriteError, hio, hread]

/-- **Cookies that lead MD5 to the same state** are as good as each other: with either, a connection
does the same in every run. -/
theorem run_eq_of_absorb_eq {node node' : NodeAccess} (hname : node.name = node'.name)
    (hnode : node.ComputesDigests) (hnode' : node'.ComputesDigests)
    (hlen : node.cookie.length = node'.cookie.length)
    (hstate : md5.absorb initial node.cookie = md5.absorb initial node'.cookie)
    (c : NodeConnection) (es : List Event) :
    run (step node) c es = run (step node') c es := by
  have hdigest (challenge : UInt32) : node.calculateDigest challenge node.cookie =
      node'.calculateDigest challenge node'.cookie := by
    rw [NodeAccess.calculateDigest, NodeAccess.calculateDigest,
      (NodeAccess.computesDigests_iff.mp hnode challenge).2,
      (NodeAccess.computesDigests_iff.mp hnode' challenge).2, digest_append_eq hlen hstate]
  have hstep : step node = step node' := by
    funext c e
    exact step_congr hname hdigest c e
  rw [hstep]

end NodeConnection

/-! ### Nodes with different cookies -/

namespace CookiePair

variable {q : CookiePair} {t : ConnectionPair} {peerName : Str} {es : List PairEvent}

/-- Where the digests are different, a connected node has the cookie of its peer. -/
theorem Wf.cookie_eq_of_connected (ht : Wf q t)
    (hconnected : t.originator.connection.state = .connected ∨
      t.acceptor.connection.state = .connected) : q.a.cookie = q.b.cookie := by
  rcases hconnected with hstate | hstate
  · cases ht.originator with
    | connected _ hcookie => exact hcookie
    | sendingName hp | awaitingStatus hp | awaitingChallenge hp | sendingReply hp
    | awaitingAck hp => exact absurd hstate hp.state_ne
  · cases ht.acceptor with
    | connected _ _ hcookie => exact hcookie
    | awaitingName hp | sendingStatus hp | sendingChallenge hp | awaitingReply hp | givenUp hp
    | sendingAck hp => exact absurd hstate hp.state_ne

/-- What the two nodes hash are texts that `md5_append` takes, and they have the digests of MD5. -/
theorem digest_of_mem_digested (ha : q.a.ComputesDigests) (hb : q.b.ComputesDigests) {s : Str}
    (hs : s ∈ q.digested) : s.length < 2 ^ 28 ∧ q.a.md5 s = digest s := by
  obtain ⟨cookie, challenge, hcookie, -, rfl⟩ := hs
  rcases hcookie with rfl | rfl
  · exact NodeAccess.computesDigests_iff.mp ha challenge
  · rw [← q.md5_eq]
    exact NodeAccess.computesDigests_iff.mp hb challenge

/-- **Two nodes that connect with different cookies** have found a collision of the compression
function of MD5, on the way through two of the texts they have hashed. -/
theorem collides_of_connected (q : CookiePair) (ha : q.a.ComputesDigests)
    (hb : q.b.ComputesDigests) (hne : q.a.cookie ≠ q.b.cookie) {es : List PairEvent}
    {t : ConnectionPair} (h : run q.step (q.start peerName) es = some t)
    (hconnected : t.originator.connection.state = .connected ∨
      t.acceptor.connection.state = .connected) :
    ∃ s ∈ q.digested, ∃ s' ∈ q.digested, s ≠ s' ∧
      md5.Collides initial (md5.blocks (padded s)) (md5.blocks (padded s')) := by
  by_cases hinj : Set.InjOn q.a.md5 q.digested
  · exact absurd ((wf_of_run hinj h).cookie_eq_of_connected hconnected) hne
  · rw [Set.InjOn] at hinj
    push Not at hinj
    obtain ⟨s, hs, s', hs', hdigest, hss'⟩ := hinj
    obtain ⟨hlen, hmd5⟩ := digest_of_mem_digested ha hb hs
    obtain ⟨hlen', hmd5'⟩ := digest_of_mem_digested ha hb hs'
    rw [hmd5, hmd5'] at hdigest
    exact ⟨s, hs, s', hs', hss', collides_of_digest_eq (by omega) (by omega) hss' hdigest⟩

/-- Two nodes with cookies that lead MD5 to the same state. -/
def collidingCookies : CookiePair where
  a := { name := bytesOf "a@h", cookie := collidingBlocks.1, md5 := digest }
  b := { name := bytesOf "b@h", cookie := collidingBlocks.2, md5 := digest }
  challengeA := 1
  challengeB := 2
  nameFitsA := by decide
  nameFitsB := by decide
  md5_eq := rfl

/-- The handshake of `collidingCookies` gets to its end. -/
theorem collides_of_connected_colliding : ∃ t, run collidingCookies.step
    (collidingCookies.start (bytesOf "b")) wholeHandshake = some t ∧
      t.originator.connection.state = .connected ∧
        ∃ s ∈ collidingCookies.digested, ∃ s' ∈ collidingCookies.digested, s ≠ s' ∧
          md5.Collides initial (md5.blocks (padded s)) (md5.blocks (padded s')) := by
  have hstate : ((run collidingCookies.step (collidingCookies.start (bytesOf "b"))
      wholeHandshake).map fun t => t.originator.connection.state) = some .connected := by
    decide +kernel
  obtain ⟨t, ht, hstate⟩ := Option.map_eq_some_iff.mp hstate
  exact ⟨t, ht, hstate, collides_of_connected collidingCookies
    (NodeAccess.computesDigests_of_length rfl (by decide))
    (NodeAccess.computesDigests_of_length rfl (by decide)) (by decide) ht (.inl hstate)⟩

end CookiePair

theorem absorb_collidingBlocks : md5.absorb initial collidingBlocks.2 =
    md5.absorb initial collidingBlocks.1 := by decide +kernel

/-- Node B with its own cookie, and with that of node A. -/
theorem NodeConnection.run_eq_of_absorb_eq_colliding :
    run (step CookiePair.collidingCookies.b) =
      run (step { CookiePair.collidingCookies.b with cookie := collidingBlocks.1 }) := by
  funext c es
  exact @run_eq_of_absorb_eq CookiePair.collidingCookies.b
    { CookiePair.collidingCookies.b with cookie := collidingBlocks.1 } rfl
    (NodeAccess.computesDigests_of_length rfl (by decide))
    (NodeAccess.computesDigests_of_length rfl (by decide)) rfl absorb_collidingBlocks c es

end TinchPp
