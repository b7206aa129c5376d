import TinchPp.HandshakeResults

/-!
# The connections on record

A node and its peer can connect to each other at the same time. Each of the two handshakes ends with
an insertion into the map of connections, and an insertion leaves the entry that it finds: the
connection whose handshake ends first stays on record, and the other one is not. But the call of
`get_connection_to` that has made the other one returns it all the same; and a connection that the
peer makes anew, because the old one is lost, is ignored as long as the old one is still there.

## Main results

* `NodeConnector.insert_self_iff` — what an insertion leaves under the name
* `NodeConnector.onRecord_iff` — the connections handed out are those on record exactly as long as
  each handshake that succeeds finds no other entry under the name of the peer
-/

namespace TinchPp

open EventSystem

namespace NodeConnection

variable {node : NodeAccess} {c c' : NodeConnection}

/-- No exception has been raised, or no outcome reported. -/
def NotBoth (c c' : NodeConnection) : Prop :=
  c'.raised = c.raised ∨ c'.handshakeSuccess = c.handshakeSuccess

theorem NotBoth.trans_left {d : NodeConnection} (h : NotBoth d c')
    (hd : d.raised = c.raised ∧ d.handshakeSuccess = c.handshakeSuccess) : NotBoth c c' := by
  rcases h with h | h
  · exact .inl (h.trans hd.1)
  · exact .inr (h.trans hd.2)

theorem notBoth_nextMessage {k : LexerKind} {msg : MsgSeq}
    (h : c.nextMessage k = some (msg, c')) :
    c'.raised = c.raised ∧ c'.handshakeSuccess = c.handshakeSuccess := by
  rw [nextMessage] at h
  split at h
  · obtain ⟨-, rfl⟩ := Prod.mk.inj (Option.some_inj.mp h)
    cases k <;> exact ⟨rfl, rfl⟩
  · cases h

theorem notBoth_handleIoError (node : NodeAccess) (error : Str) (c : NodeConnection) :
    NotBoth c (c.handleIoError node error) := by
  rw [handleIoError]
  split
  · split <;> exact .inr rfl
  · exact .inl rfl

theorem notBoth_challengeRead {held : Bool} {k : LexerKind}
    (h : c.challengeRead node held k = some c') :
    NotBoth c c' := by
  obtain ⟨msg, c₁, hnext, hc'⟩ := challengeRead_eq_some h
  refine NotBoth.trans_left ?_ (notBoth_nextMessage hnext)
  obtain rfl | ⟨challenge, rfl⟩ := hc'
  · exact .inr rfl
  · exact .inl rfl

/-- A callback raises, or it reports. -/
theorem notBoth_invokeRead {callback : ReadCallback} {k : LexerKind}
    (h : c.invokeRead node callback k = some c') : NotBoth c c' := by
  cases callback with
  | nameRead =>
    obtain ⟨msg, c₁, hnext, hc'⟩ := nameRead_eq_some h
    refine NotBoth.trans_left ?_ (notBoth_nextMessage hnext)
    obtain rfl | ⟨name, rfl⟩ | ⟨reason, rfl⟩ := hc'
    · exact .inr rfl
    · exact .inl rfl
    · exact .inl rfl
  | statusRead =>
    obtain ⟨msg, c₁, hnext, hc'⟩ := statusRead_eq_some h
    refine NotBoth.trans_left ?_ (notBoth_nextMessage hnext)
    obtain rfl | ⟨reason, rfl⟩ | rfl | hread := hc'
    · exact .inr rfl
    · exact .inl rfl
    · exact .inl rfl
    · exact (notBoth_challengeRead hread).trans_left ⟨rfl, rfl⟩
  | challengeRead => exact notBoth_challengeRead h
  | replyReceived =>
    obtain ⟨msg, c₁, hnext, hc'⟩ := replyReceived_eq_some h
    refine NotBoth.trans_left ?_ (notBoth_nextMessage hnext)
    obtain rfl | ⟨challenge, rfl⟩ | ⟨reason, rfl⟩ := hc'
    · exact .inr rfl
    · exact .inl rfl
    · exact .inl rfl
  | challengeAckRead =>
    obtain ⟨msg, c₁, hnext, hc'⟩ := challengeAckRead_eq_some h
    refine NotBoth.trans_left ?_ (notBoth_nextMessage hnext)
    obtain ⟨e, rfl⟩ | rfl := hc'
    · exact .inr rfl
    · exact .inl rfl
  | msgReceived =>
    obtain ⟨msg, c₁, c₂, hnext, rfl, hc₂⟩ := msgReceived_eq_triggerCheckedRead h
    refine NotBoth.trans_left ?_ (notBoth_nextMessage hnext)
    obtain rfl | ⟨calls, rfl⟩ := hc₂
    · exact .inl rfl
    · exact .inl rfl

/-- **A step does not raise and report at once.** -/
theorem notBoth_step {e : Event} (h : c.step node e = some c') : NotBoth c c' := by
  cases e with
  | read bytes =>
    obtain ⟨-, callback, k, l, -, -, hread⟩ := NodeConnection.step_read h
    rcases hread with ⟨-, rfl⟩ | ⟨-, hread⟩
    · cases k <;> exact .inl rfl
    · refine (notBoth_invokeRead hread).trans_left ?_
      cases k <;> exact ⟨rfl, rfl⟩
  | readError error =>
    obtain ⟨-, rfl⟩ := step_readError h
    exact (notBoth_handleIoError node error _).trans_left ⟨rfl, rfl⟩
  | written =>
    obtain ⟨-, msg, callback, queue, -, rfl⟩ := step_written h
    cases callback <;> exact .inl rfl
  | writeError error =>
    obtain ⟨-, rfl⟩ := step_writeError h
    exact (notBoth_handleIoError node error _).trans_left ⟨rfl, rfl⟩
  | request op =>
    rw [step, request] at h
    split at h <;> obtain rfl := Option.some_inj.mp h <;> exact .inl rfl

end NodeConnection

namespace NodeConnector

variable {node : NodeAccess} {s s' : NodeConnector} {i k : ℕ} {peer : Str}

/-! ### What is handed out, and what is accepted -/

/-- In this step a call of `get_connection_to` for the peer returns the connection. -/
def Returns (s s' : NodeConnector) (peer : Str) (i : ℕ) : Prop :=
  ∃ (k : ℕ) (call : Call), s'.calls[k]? = some call ∧ call.peerNodeName = peer ∧
    call.result = some (.ok i) ∧ ∀ old, s.calls[k]? = some old → old.result = none

/-- In this step the callback of an incoming connection has been run with success. -/
def Accepts (s s' : NodeConnector) (peer : Str) (i : ℕ) : Prop :=
  ∃ m m', s.connections[i]? = some m ∧ s'.connections[i]? = some m' ∧ m.role = .acceptor ∧
    m'.connection.peerName = some peer ∧
      m'.connection.handshakeSuccess = m.connection.handshakeSuccess ++ [true]

/-- What a step hands out or accepts is what is on record afterwards. -/
def OnRecord (node : NodeAccess) (s : NodeConnector) (e : NodeConnectorEvent) : Prop :=
  ∀ s', s.step node e = some s' → ∀ peer i, Returns s s' peer i ∨ Accepts s s' peer i →
    s'.nodeConnections peer = some i

/-- No other connection is on record for the peer. -/
def IsFreeFor (s : NodeConnector) (peer : Str) (i : ℕ) : Prop :=
  s.nodeConnections peer = none ∨ s.nodeConnections peer = some i

/-- A handshake that ends with success finds no other connection on record for its peer: neither
when a call takes the result, nor when an incoming connection reports it. -/
def FindsNameFree (node : NodeAccess) (s : NodeConnector) : NodeConnectorEvent → Prop
  | .wake k => ∀ peer i, s.calls[k]? = some ⟨peer, some i, none⟩ → s.handshakeDone = some true →
      s.IsFreeFor peer i
  | .io i e => ∀ (m : Made) (c : NodeConnection) (peer : Str), s.connections[i]? = some m →
      m.role = .acceptor → m.connection.step node e = some c →
      c.handshakeSuccess = m.connection.handshakeSuccess ++ [true] → c.peerName = some peer →
      s.IsFreeFor peer i
  | _ => True

/-- **What an insertion leaves under the name.** -/
theorem insert_self_iff :
    (s.insert peer i).nodeConnections peer = some i ↔ s.IsFreeFor peer i := by
  rw [insert, IsFreeFor]
  split
  · next j hj => simp [hj]
  · next hnone => simp [hnone]

/-! ### Steps that hand out and accept nothing -/

theorem not_returns_of_calls_eq (h : s'.calls = s.calls) : ¬ Returns s s' peer i := by
  rintro ⟨k, call, hcall, -, hresult, hold⟩
  rw [h] at hcall
  rw [hold call hcall] at hresult
  cases hresult

theorem not_accepts_of_old (h : ∀ m, s.connections[i]? = some m → s'.connections[i]? = some m) :
    ¬ Accepts s s' peer i := by
  rintro ⟨m, m', hm, hm', -, -, hreport⟩
  obtain rfl := Option.some_inj.mp ((h m hm).symm.trans hm')
  exact absurd (congrArg List.length hreport) (by simp)

theorem getElem?_connections_append {m new : Made} (hm : s.connections[i]? = some m) :
    (s.connections ++ [new])[i]? = some m := by
  rw [List.getElem?_append_left (List.getElem?_eq_some_iff.mp hm).1]
  exact hm

/-- A call that is made now is the last one. -/
theorem returns_of_append {call : Call} (hcalls : s'.calls = s.calls ++ [call])
    (h : Returns s s' peer i) : call.peerNodeName = peer ∧ call.result = some (.ok i) := by
  obtain ⟨k, call', hcall, hpeer, hresult, hold⟩ := h
  rw [hcalls, List.getElem?_append] at hcall
  split at hcall
  · rw [hold call' hcall] at hresult
    cases hresult
  · rw [List.getElem?_singleton] at hcall
    split at hcall
    · obtain rfl := Option.some_inj.mp hcall
      exact ⟨hpeer, hresult⟩
    · cases hcall

/-! ### Taking a result -/

/-- A call that takes a success inserts the connection that it has started. -/
theorem waitForHandshakeResult_of_success (hcall : s.calls[k]? = some ⟨peer, some i, none⟩)
    (hdone : s.handshakeDone = some true) :
    (s.waitForHandshakeResult k).nodeConnections = (s.insert peer i).nodeConnections ∧
      (s.waitForHandshakeResult k).calls = s.calls.set k ⟨peer, some i, some (.ok i)⟩ := by
  constructor <;> simp only [waitForHandshakeResult, hcall, hdone]

/-- The one call that has changed is the one that returns. -/
theorem eq_of_set {calls : List Call} {j : ℕ} {call new : Call} {result : Except Raised ℕ}
    (hcall : (calls.set k new)[j]? = some call) (hresult : call.result = some result)
    (hold : ∀ old, calls[j]? = some old → old.result = none) : j = k ∧ call = new := by
  by_cases hj : k = j
  · subst hj
    rw [List.getElem?_set_self'] at hcall
    obtain ⟨_, -, rfl⟩ := Option.map_eq_some_iff.mp hcall
    exact ⟨rfl, rfl⟩
  · rw [List.getElem?_set_ne hj] at hcall
    rw [hold call hcall] at hresult
    cases hresult

/-- Nothing else makes a call return. -/
theorem success_of_returns (h : Returns s (s.waitForHandshakeResult k) peer i) :
    s.calls[k]? = some ⟨peer, some i, none⟩ ∧ s.handshakeDone = some true := by
  obtain ⟨j, call, hcall, rfl, hresult, hold⟩ := h
  rw [waitForHandshakeResult] at hcall
  split at hcall
  · next peer' j' hwaiting hdone =>
    obtain ⟨rfl, rfl⟩ := eq_of_set hcall hresult hold
    cases hresult
    exact ⟨hwaiting, hdone⟩
  · obtain ⟨rfl, rfl⟩ := eq_of_set hcall hresult hold
    cases hresult
  · rw [hold call hcall] at hresult
    cases hresult

theorem connections_waitForHandshakeResult (k : ℕ) (s : NodeConnector) :
    (s.waitForHandshakeResult k).connections = s.connections := by
  rw [waitForHandshakeResult]
  split
  · rw [insert_eq]
  · rfl
  · rfl

theorem onRecord_wake_iff : OnRecord node s (.wake k) ↔ FindsNameFree node s (.wake k) := by
  have hnothing (peer : Str) (i : ℕ) : ¬ Accepts s (s.waitForHandshakeResult k) peer i :=
    not_accepts_of_old fun m hm => by rwa [connections_waitForHandshakeResult]
  constructor
  · intro h peer i hcall hdone
    obtain ⟨hmap, hcalls⟩ := waitForHandshakeResult_of_success hcall hdone
    have hlt := (List.getElem?_eq_some_iff.mp hcall).1
    rw [← insert_self_iff, ← hmap]
    refine h _ rfl peer i (.inl ⟨k, ⟨peer, some i, some (.ok i)⟩, ?_, rfl, rfl, fun old hold => ?_⟩)
    · rw [hcalls, List.getElem?_set_self hlt]
    · obtain rfl := Option.some_inj.mp (hcall.symm.trans hold)
      rfl
  · intro h s' hs' peer i hhands
    obtain rfl := Option.some_inj.mp hs'
    obtain ⟨hcall, hdone⟩ := success_of_returns (hhands.resolve_right (hnothing peer i))
    rw [(waitForHandshakeResult_of_success hcall hdone).1, insert_self_iff]
    exact h peer i hcall hdone

/-! ### A call -/

/-- A call that is over at once has nothing to do with the map, or has found its connection
there. -/
theorem onRecord_addCall {result : Except Raised ℕ}
    (hfound : ∀ i, result = .ok i → s.nodeConnections peer = some i) {peer' : Str}
    (hhands : Returns s (s.addCall ⟨peer, none, some result⟩) peer' i ∨
      Accepts s (s.addCall ⟨peer, none, some result⟩) peer' i) :
    (s.addCall ⟨peer, none, some result⟩).nodeConnections peer' = some i := by
  obtain ⟨rfl, hresult⟩ := returns_of_append rfl (hhands.resolve_right
    (not_accepts_of_old fun m hm => hm))
  exact hfound i (Option.some_inj.mp hresult)

/-- A call that starts a connection finds the name free, and may take a result at once. -/
theorem onRecord_startConnection (hnone : s.nodeConnections peer = none) {peerName peer' : Str}
    {ownChallenge : UInt32} (hhands : Returns s ((s.startConnection node peer peerName
        ownChallenge).waitForHandshakeResult s.calls.length) peer' i ∨
      Accepts s ((s.startConnection node peer peerName
        ownChallenge).waitForHandshakeResult s.calls.length) peer' i) :
    ((s.startConnection node peer peerName ownChallenge).waitForHandshakeResult
      s.calls.length).nodeConnections peer' = some i := by
  have hnot : ¬ Accepts s ((s.startConnection node peer peerName
      ownChallenge).waitForHandshakeResult s.calls.length) peer' i :=
    not_accepts_of_old fun m hm => by
      rw [connections_waitForHandshakeResult]
      exact getElem?_connections_append hm
  obtain ⟨k, call, hcall, hpeer, hresult, hold⟩ := hhands.resolve_right hnot
  have hlast : (s.startConnection node peer peerName ownChallenge).calls[s.calls.length]? =
      some ⟨peer, some s.connections.length, none⟩ := List.getElem?_concat_length
  -- also seen from the call that has started, it is this call that returns
  have hreturns : Returns (s.startConnection node peer peerName ownChallenge)
      ((s.startConnection node peer peerName ownChallenge).waitForHandshakeResult
        s.calls.length) peer' i := by
    refine ⟨k, call, hcall, hpeer, hresult, fun old hold' => ?_⟩
    rw [startConnection, List.getElem?_append] at hold'
    split at hold'
    · exact hold old hold'
    · rw [List.getElem?_singleton] at hold'
      split at hold'
      · obtain rfl := Option.some_inj.mp hold'
        rfl
      · cases hold'
  obtain ⟨hstarted, hdone⟩ := success_of_returns hreturns
  obtain ⟨rfl, -⟩ := Call.mk.inj (Option.some_inj.mp (hlast.symm.trans hstarted))
  rw [(waitForHandshakeResult_of_success hstarted hdone).1, insert_self_iff]
  exact .inl hnone

theorem onRecord_call (peerNodeName : Str) (ownChallenge : UInt32)
    (requested : Except Raised Unit) :
    OnRecord node s (.call peerNodeName ownChallenge requested) := by
  intro s' hs' peer i hhands
  obtain rfl := Option.some_inj.mp hs'
  rcases hmap : s.nodeConnections peerNodeName with _ | existing
  · rcases hrequest : requestNodeConnection peerNodeName requested with error | peerName
    · have hcall : s.getConnectionTo node peerNodeName ownChallenge requested =
          s.addCall ⟨peerNodeName, none, some (.error error)⟩ := by
        simp only [getConnectionTo, hmap, hrequest]
      rw [hcall] at hhands ⊢
      refine onRecord_addCall (fun i hi => ?_) hhands
      cases hi
    · have hcall : s.getConnectionTo node peerNodeName ownChallenge requested =
          (s.startConnection node peerNodeName peerName ownChallenge).waitForHandshakeResult
            s.calls.length := by
        simp only [getConnectionTo, hmap, hrequest]
      rw [hcall] at hhands ⊢
      exact onRecord_startConnection hmap hhands
  · have hcall : s.getConnectionTo node peerNodeName ownChallenge requested =
        s.addCall ⟨peerNodeName, none, some (.ok existing)⟩ := by
      simp only [getConnectionTo, hmap]
    rw [hcall] at hhands ⊢
    refine onRecord_addCall (fun i hi => ?_) hhands
    cases hi
    exact hmap

/-! ### A completed operation -/

theorem nodeConnections_insert_congr (h : s'.nodeConnections = s.nodeConnections) :
    (s'.insert peer i).nodeConnections = (s.insert peer i).nodeConnections := by
  rcases hmap : s.nodeConnections peer with _ | j <;> simp only [insert, h, hmap]

theorem nodeConnections_handshakeSuccessAsB {m : Made} (hm : s.connections[i]? = some m)
    (hpeer : m.connection.peerName = some peer) :
    (s.handshakeSuccessAsB i true).nodeConnections = (s.insert peer i).nodeConnections := by
  simp only [handshakeSuccessAsB, if_true, hm, Option.bind_some, hpeer]
  rfl

/-- An incoming connection that reports success is inserted, and that is all. -/
theorem completeIo_of_success {m : Made} {c : NodeConnection} {e : NodeConnection.Event}
    (hm : s.connections[i]? = some m) (hrole : m.role = .acceptor)
    (hstep : m.connection.step node e = some c)
    (hreport : c.handshakeSuccess = m.connection.handshakeSuccess ++ [true])
    (hpeer : c.peerName = some peer) :
    ∃ s', s.completeIo node i e = some s' ∧
      s'.nodeConnections = (s.insert peer i).nodeConnections ∧
        s'.connections = s.connections.set i { m with connection := c } := by
  have hraised : c.raised = m.connection.raised :=
    (NodeConnection.notBoth_step hstep).resolve_right fun hsame => by
      rw [hsame] at hreport
      exact absurd (congrArg List.length hreport) (by simp)
  have hlt := (List.getElem?_eq_some_iff.mp hm).1
  let s₁ : NodeConnector := { s with connections := s.connections.set i { m with connection := c } }
  have hself : s₁.connections[i]? = some { m with connection := c } := List.getElem?_set_self hlt
  have hio : s.completeIo node i e = some (s₁.handshakeSuccessAsB i true) := by
    simp only [completeIo, hm, hstep, hreport, List.drop_left, hraised, List.drop_length,
      List.foldl_nil, List.foldl_cons, reported, hrole, s₁]
  refine ⟨_, hio, ?_, (handshakeSuccessAsB_frame i true s₁).1⟩
  rw [nodeConnections_handshakeSuccessAsB hself hpeer]
  exact nodeConnections_insert_congr rfl

/-- A completed operation changes the one connection. -/
theorem connections_completeIo {m : Made} {c : NodeConnection} {e : NodeConnection.Event}
    (hm : s.connections[i]? = some m) (hstep : m.connection.step node e = some c)
    (h : s.completeIo node i e = some s') :
    s'.connections = s.connections.set i { m with connection := c } := by
  have hreported (results : List Bool) (t : NodeConnector) :
      (results.foldl (fun t result => t.reported i m.role result) t).connections =
        t.connections := by
    induction results generalizing t with
    | nil => rfl
    | cons result results ih =>
      rw [List.foldl_cons, ih]
      cases m.role with
      | originator name => rfl
      | acceptor => exact (handshakeSuccessAsB_frame i result t).1
  obtain ⟨m', c', hm', hstep', rfl⟩ := completeIo_eq_some h
  obtain rfl := Option.some_inj.mp (hm.symm.trans hm')
  obtain rfl := Option.some_inj.mp (hstep.symm.trans hstep')
  rw [foldl_caught_eq]
  exact hreported _ _

/-- The callback of an incoming connection, and nothing else, accepts. -/
theorem onRecord_io_iff (hs : Wf node s) (i : ℕ) (e : NodeConnection.Event) :
    OnRecord node s (.io i e) ↔ FindsNameFree node s (.io i e) := by
  constructor
  · intro h m c peer hm hrole hstep hreport hpeer
    obtain ⟨s', hs', hmap, hconnections⟩ := completeIo_of_success hm hrole hstep hreport hpeer
    rw [← insert_self_iff, ← hmap]
    refine h s' hs' peer i (.inr ⟨m, { m with connection := c }, hm, ?_, hrole, hpeer, hreport⟩)
    rw [hconnections]
    exact List.getElem?_set_self (List.getElem?_eq_some_iff.mp hm).1
  · intro h s' hs' peer j hhands
    obtain ⟨m, c, hm, hstep, -⟩ := completeIo_eq_some hs'
    obtain ⟨-, -, -, -, hcalls, -⟩ := completeIo_frame hs hs'
    have hconnections := connections_completeIo hm hstep hs'
    obtain ⟨m₁, m₂, hm₁, hm₂, hrole, hpeer, hreport⟩ :=
      hhands.resolve_left (not_returns_of_calls_eq hcalls)
    by_cases hj : j = i
    · subst hj
      rw [hconnections, List.getElem?_set_self (List.getElem?_eq_some_iff.mp hm).1] at hm₂
      obtain rfl := Option.some_inj.mp hm₂
      obtain rfl := Option.some_inj.mp (hm.symm.trans hm₁)
      obtain ⟨s'', hs'', hmap, -⟩ := completeIo_of_success hm hrole hstep hreport hpeer
      obtain rfl := Option.some_inj.mp (hs''.symm.trans hs')
      rw [hmap, insert_self_iff]
      exact h m c peer hm hrole hstep hreport hpeer
    · rw [hconnections, List.getElem?_set_ne (Ne.symm hj)] at hm₂
      obtain rfl := Option.some_inj.mp (hm₁.symm.trans hm₂)
      exact absurd (congrArg List.length hreport) (by simp)

/-! ### Every run -/

/-- A step that neither ends a handshake nor makes a call. -/
theorem onRecord_of_quiet {e : NodeConnectorEvent}
    (h : ∀ s', s.step node e = some s' → s'.calls = s.calls ∧
      ∀ (i : ℕ) (m : Made), s.connections[i]? = some m → s'.connections[i]? = some m) :
    OnRecord node s e := by
  intro s' hs' peer i hhands
  obtain ⟨hcalls, hconnections⟩ := h s' hs'
  rcases hhands with hreturns | haccepts
  · exact absurd hreturns (not_returns_of_calls_eq hcalls)
  · exact absurd haccepts (not_accepts_of_old (hconnections i))

theorem onRecord_step_iff (hs : Wf node s) (e : NodeConnectorEvent) :
    OnRecord node s e ↔ FindsNameFree node s e := by
  cases e with
  | call peerNodeName ownChallenge requested =>
    exact iff_of_true (onRecord_call peerNodeName ownChallenge requested) trivial
  | wake k => exact onRecord_wake_iff
  | io i e => exact onRecord_io_iff hs i e
  | accept ownChallenge =>
    refine iff_of_true (onRecord_of_quiet fun s' hs' => ?_) trivial
    rw [step] at hs'
    split at hs'
    · obtain rfl := Option.some_inj.mp hs'
      exact ⟨rfl, fun i m hm => getElem?_connections_append hm⟩
    · cases hs'
  | acceptError =>
    refine iff_of_true (onRecord_of_quiet fun s' hs' => ?_) trivial
    rw [step] at hs'
    split at hs'
    · obtain rfl := Option.some_inj.mp hs'
      exact ⟨rfl, fun i m hm => hm⟩
    · cases hs'

/-- **The connections handed out are those on record** exactly in the runs in which no handshake
that succeeds finds another connection on record for its peer. -/
theorem onRecord_iff (node : NodeAccess) (es : List NodeConnectorEvent) :
    EveryStep (step node) (OnRecord node) start es ↔
      EveryStep (step node) (FindsNameFree node) start es :=
  everyStep_iff_of_invariant (fun _ _ _ hs ht => hs.step ht) (fun _ e hs => onRecord_step_iff hs e)
    wf_start

/-- `nodeA` connects to a node while that connects to it. The handshake of the other node ends first,
and then that of `nodeA`. -/
def connectedBothWays : List NodeConnectorEvent :=
  [.call (bytesOf "b@h") 1 (.ok ()), .accept 1] ++ NodeConnection.connectedByB.map (.io 1) ++
    [.io 0 .written, .io 0 (.read (statusOk ++ challengeOfB)), .io 0 .written,
      .io 0 (.read ackOfB)]

/-- The call returns connection 0, and connection 1 is on record. -/
theorem not_onRecord_both_ways : ∃ s s', run (step nodeA) start connectedBothWays = some s ∧
    s.step nodeA (.wake 0) = some s' ∧ Returns s s' (bytesOf "b@h") 0 ∧
      s'.nodeConnections (bytesOf "b@h") = some 1 ∧
        ¬ EveryStep (step nodeA) (OnRecord nodeA) start (connectedBothWays ++ [.wake 0]) := by
  obtain ⟨s, s', hrun, hwake, hreturns, hmap⟩ : ∃ s s', run (step nodeA) start
      connectedBothWays = some s ∧ s.step nodeA (.wake 0) = some s' ∧
        Returns s s' (bytesOf "b@h") 0 ∧ s'.nodeConnections (bytesOf "b@h") = some 1 := by
    refine ⟨_, _, rfl, rfl, ⟨0, _, rfl, rfl, rfl, fun old hold => ?_⟩, rfl⟩
    obtain rfl := Option.some_inj.mp hold
    rfl
  refine ⟨s, s', hrun, hwake, hreturns, hmap, fun h => ?_⟩
  have hrecord := h connectedBothWays (.wake 0) (List.prefix_refl _) s hrun s' hwake (bytesOf "b@h")
    0 (.inl hreturns)
  rw [hmap] at hrecord
  exact absurd (Option.some_inj.mp hrecord) (by decide)

end NodeConnector

end TinchPp
