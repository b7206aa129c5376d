import TinchPp.NodeConnector

/-!
# Connections that break

An I/O error on a connection is raised as a `connection_io_error` with the name of the peer, and
`run_async_io` drops the connection under that name. A connection that another node has made is
stored under the name its peer has given, which is the name that it raises. One that this node has
made is stored under the full name of the peer, but knows it by the part in front of the `@`: the
broken connection stays in the map, and the next `get_connection_to` returns it.

## Main results

* `NodeConnector.completeIo_of_ioError` — an I/O error drops what is stored under the peer's name
* `NodeConnector.forgotten_iff` — exactly the connections from other nodes are forgotten
-/

namespace TinchPp

open EventSystem

/-- The name of a peer is a part of its full name. -/
theorem ne_of_splitNodeName {node name host : Str} (h : splitNodeName node = .ok (name, host)) :
    node ≠ name := by
  rw [splitNodeName] at h
  split at h
  · next name' host' hspan =>
    split at h
    · obtain ⟨rfl, rfl⟩ := Prod.mk.inj (Except.ok.inj h)
      have happend : node = name' ++ 64 :: host' := by
        rw [List.span_eq_takeWhile_dropWhile, Prod.mk.injEq] at hspan
        rw [← hspan.1, ← hspan.2, List.takeWhile_append_dropWhile]
      intro heq
      have hlen := congrArg List.length (heq.symm.trans happend)
      rw [List.length_append, List.length_cons] at hlen
      omega
    · cases h
  · cases h

/-- An operation that has failed. -/
def NodeConnection.Event.IsIoError (e : NodeConnection.Event) : Prop :=
  ∃ error, e = .readError error ∨ e = .writeError error

namespace NodeConnector

variable {node : NodeAccess} {s s' : NodeConnector} {i : ℕ} {m : Made} {key peer : Str}
  {e : NodeConnection.Event}

/-- The connection is not in the map any more, and the next call for its name makes a new one. -/
def Forgotten (key : Str) (i : ℕ) (s : NodeConnector) : Prop :=
  s.nodeConnections key = none ∧ ∀ key', s.nodeConnections key' ≠ some i

/-- On a connection, an I/O error is raised with the name of the peer. -/
theorem step_of_ioError {c c' : NodeConnection} (hc : c.Connected)
    (hpeer : c.peerName = some peer) (he : e.IsIoError) (h : c.step node e = some c') :
    c'.handshakeSuccess = c.handshakeSuccess ∧
      ∃ error, c'.raised = c.raised ++ [.connectionIoError error peer] := by
  obtain ⟨error, rfl | rfl⟩ := he
  · obtain ⟨-, rfl⟩ := NodeConnection.step_readError h
    simp only [NodeConnection.handleIoError, hc.state, hpeer]
    exact ⟨rfl, error, rfl⟩
  · obtain ⟨-, rfl⟩ := NodeConnection.step_writeError h
    simp only [NodeConnection.handleIoError, hc.state, hpeer]
    exact ⟨rfl, error, rfl⟩

/-- **An I/O error drops what is stored under the peer's name**, whatever it is. -/
theorem completeIo_of_ioError (hm : s.connections[i]? = some m) (hc : m.connection.Connected)
    (hpeer : m.connection.peerName = some peer) (he : e.IsIoError)
    (h : s.completeIo node i e = some s') :
    s'.nodeConnections = Function.update s.nodeConnections peer none := by
  obtain ⟨m', c, hm', hstep, rfl⟩ := completeIo_eq_some h
  obtain rfl := Option.some_inj.mp (hm.symm.trans hm')
  obtain ⟨hreport, error, hraised⟩ := step_of_ioError hc hpeer he hstep
  rw [hreport, hraised, List.drop_length, List.drop_left]
  rfl

/-- **When a broken connection is forgotten**: exactly when the other node has made it. -/
theorem forgotten_iff {es : List NodeConnectorEvent} (hrun : run (step node) start es = some s)
    (hstored : s.nodeConnections key = some i) (hm : s.connections[i]? = some m)
    (hstate : m.connection.state = .connected) (he : e.IsIoError)
    (h : s.step node (.io i e) = some s') : s'.Forgotten key i ↔ m.role = .acceptor := by
  have hs := wf_of_run hrun
  obtain ⟨ownChallenge, T, hcourse⟩ := hs.course i m hm
  have hc : m.connection.Connected := by
    cases hcourse with
    | underway hc =>
      obtain ⟨taken, l, hstage, -⟩ := hc
      exact absurd hstate hstage.inHandshake.state_ne
    | failed hc => exact absurd hstate hc.state_ne
    | raised hc => exact absurd hstate hc.state_ne
    | connected hc => exact hc
  obtain ⟨m', hm', hbelongs⟩ := hs.stored key i hstored
  obtain rfl := Option.some_inj.mp (hm.symm.trans hm')
  cases hrole : m.role with
  | originator name =>
    -- the entry for the full name stays
    rw [Made.BelongsTo, hrole] at hbelongs
    obtain ⟨host, hsplit⟩ := hbelongs
    have hmap := completeIo_of_ioError hm hc (hs.peerName i m name hm hrole) he h
    refine iff_of_false (fun hforgotten => ?_) (by rintro ⟨⟩)
    have hkept := hforgotten.2 key
    rw [hmap, Function.update_of_ne (ne_of_splitNodeName hsplit)] at hkept
    exact hkept hstored
  | acceptor =>
    rw [Made.BelongsTo, hrole] at hbelongs
    have hmap := completeIo_of_ioError hm hc hbelongs.2 he h
    refine iff_of_true ⟨by rw [hmap, Function.update_self], fun key' hstored' => ?_⟩ rfl
    rw [hmap] at hstored'
    by_cases hkey : key' = key
    · rw [hkey, Function.update_self] at hstored'
      cases hstored'
    · -- it is stored under one name only
      rw [Function.update_of_ne hkey] at hstored'
      obtain ⟨m', hm', hbelongs'⟩ := hs.stored key' i hstored'
      obtain rfl := Option.some_inj.mp (hm.symm.trans hm')
      rw [Made.BelongsTo, hrole] at hbelongs'
      exact hkey (Option.some_inj.mp (hbelongs'.2.symm.trans hbelongs.2))

/-- A node connects to `nodeA`. -/
def connectedFromB : List NodeConnectorEvent :=
  .accept 1 :: NodeConnection.connectedByB.map (.io 0)

/-- And `nodeA` connects to a node. -/
def connectedToB : List NodeConnectorEvent :=
  [.call (bytesOf "b@h") 1 (.ok ()), .io 0 .written,
    .io 0 (.read (statusOk ++ challengeOfB)), .io 0 .written, .io 0 (.read ackOfB), .wake 0]

/-- The connection from the other node is forgotten. -/
theorem forgotten_from_b : ∃ s s', run (step nodeA) start connectedFromB = some s ∧
    s.step nodeA (.io 0 (.readError [])) = some s' ∧ s'.Forgotten (bytesOf "b@h") 0 := by
  obtain ⟨s, m, s', hrun, hstored, hm, hstate, hrole, h⟩ : ∃ (s : NodeConnector) (m : Made)
      (s' : NodeConnector), run (step nodeA) start connectedFromB = some s ∧
        s.nodeConnections (bytesOf "b@h") = some 0 ∧ s.connections[0]? = some m ∧
          m.connection.state = .connected ∧ m.role = .acceptor ∧
            s.step nodeA (.io 0 (.readError [])) = some s' :=
    ⟨_, _, _, rfl, rfl, rfl, rfl, rfl, rfl⟩
  exact ⟨s, s', hrun, h, (forgotten_iff hrun hstored hm hstate ⟨[], .inl rfl⟩ h).mpr hrole⟩

/-- The connection to it is not: the name it raises is `b`, and the key is `b@h`. -/
theorem not_forgotten_to_b : ∃ s m s', run (step nodeA) start connectedToB = some s ∧
    s.nodeConnections (bytesOf "b@h") = some 0 ∧ s.connections[0]? = some m ∧
      m.connection.state = .connected ∧ s.step nodeA (.io 0 (.readError [])) = some s' ∧
        ¬ s'.Forgotten (bytesOf "b@h") 0 := by
  refine ⟨_, _, _, rfl, rfl, rfl, rfl, rfl, fun hforgotten => ?_⟩
  have hkept : some 0 = none := hforgotten.1
  cases hkept

end NodeConnector

end TinchPp
