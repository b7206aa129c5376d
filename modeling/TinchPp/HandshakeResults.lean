import TinchPp.NodeConnector

/-!
# Whose handshake it was

`wait_for_handshake_result` takes the outcome out of the one cell `handshake_done` that all the
calls of `get_connection_to` share, and the callback that puts it there does not say which
connection it comes from. As long as no call starts a connection while another one waits, the
outcome in the cell belongs to the connection of the call that waits, and each call gets its own. A
call that does start one then makes it a matter of order which of the two gets which outcome, and
there always is an order in which a call gets the other's.

## Main results

* `NodeConnector.OneAtATime.step` — whose outcome is in the cell
* `NodeConnector.truthful_of_startsAlone` — the calls that get their own outcomes, and that nothing
  less will do
-/

namespace TinchPp

open EventSystem

namespace NodeConnector

variable {node : NodeAccess} {s s' : NodeConnector} {i j k : ℕ} {m : Made}

/-- What connection `i` has reported. -/
def outcomes (s : NodeConnector) (i : ℕ) : List Bool :=
  match s.connections[i]? with
  | some m => m.connection.handshakeSuccess
  | none => []

end NodeConnector

/-- A call that has started a connection returns that one, after its handshake has succeeded, and it
raises that it has failed to connect after its handshake has failed. -/
structure Call.Truthful (outcomes : ℕ → List Bool) (call : Call) : Prop where
  returned : ∀ i j, call.started = some i → call.result = some (.ok j) →
    j = i ∧ true ∈ outcomes i
  failed : ∀ i, call.started = some i →
    call.result = some (.error (NodeConnector.failedToConnect call.peerNodeName)) →
      false ∈ outcomes i

namespace NodeConnector

variable {node : NodeAccess} {s s' : NodeConnector} {i j k : ℕ} {m : Made}

/-- The calls have not mixed up their results. -/
def Truthful (s : NodeConnector) : Prop := ∀ call ∈ s.calls, call.Truthful s.outcomes

/-- A call that starts a connection does so while no other call waits. -/
def StartsAlone (s : NodeConnector) : NodeConnectorEvent → Prop
  | .call peerNodeName _ requested =>
    s.nodeConnections peerNodeName = none →
      (∃ peerName, requestNodeConnection peerNodeName requested = .ok peerName) →
        ∀ call ∈ s.calls, call.result ≠ none
  | _ => True

/-- A new call of `get_connection_to`. -/
def IsCall : NodeConnectorEvent → Prop
  | .call _ _ _ => True
  | _ => False

/-- The results are right, and stay right without a new call, whatever the connections do and
whichever call wakes up. -/
def Settled (node : NodeAccess) (s : NodeConnector) : Prop :=
  ∀ rest, (∀ e ∈ rest, ¬ IsCall e) → Throughout (step node) Truthful s rest

/-! ### What the operations leave alone -/

theorem insert_eq (name : Str) (i : ℕ) (s : NodeConnector) :
    s.insert name i = { s with nodeConnections := (s.insert name i).nodeConnections } := by
  rw [insert]
  split <;> rfl

theorem foldl_caught_eq (es : List Raised) (s : NodeConnector) :
    es.foldl (fun s e => s.caught e) s =
      { s with nodeConnections := (es.foldl (fun s e => s.caught e) s).nodeConnections } := by
  induction es generalizing s with
  | nil => rfl
  | cons e es ih =>
    rw [List.foldl_cons, ih]
    cases e <;> rfl

theorem handshakeSuccessAsB_frame (i : ℕ) (succeeded : Bool) (s : NodeConnector) :
    (s.handshakeSuccessAsB i succeeded).connections = s.connections ∧
      (s.handshakeSuccessAsB i succeeded).calls = s.calls ∧
        (s.handshakeSuccessAsB i succeeded).handshakeDone = s.handshakeDone := by
  rw [handshakeSuccessAsB]
  split
  · split
    · rw [insert_eq]
      exact ⟨rfl, rfl, rfl⟩
    · exact ⟨rfl, rfl, rfl⟩
  · exact ⟨rfl, rfl, rfl⟩

/-- What a completed operation does to the cell: a connection of this node has its outcome there. -/
theorem completeIo_frame (hs : Wf node s) {e : NodeConnection.Event}
    (h : s.completeIo node i e = some s') : ∃ m c, s.connections[i]? = some m ∧
      s'.connections = s.connections.set i { m with connection := c } ∧ s'.calls = s.calls ∧
        (c.handshakeSuccess = m.connection.handshakeSuccess ∧ s'.handshakeDone = s.handshakeDone ∨
          m.connection.handshakeSuccess = [] ∧ ∃ result, c.handshakeSuccess = [result] ∧
            (m.role = .acceptor ∧ s'.handshakeDone = s.handshakeDone ∨
              (∃ name, m.role = .originator name) ∧ s'.handshakeDone = some result)) := by
  obtain ⟨m, c, hm, hstep, rfl⟩ := completeIo_eq_some h
  obtain ⟨ownChallenge, T, hcourse⟩ := hs.course i m hm
  refine ⟨m, c, hm, ?_⟩
  rw [foldl_caught_eq]
  dsimp only
  rcases hcourse.reports_cases hstep with hsame | ⟨hnone, result, hone⟩
  · rw [hsame, List.drop_length]
    exact ⟨rfl, rfl, .inl ⟨rfl, rfl⟩⟩
  · rw [hnone, hone]
    obtain ⟨role, d⟩ := m
    cases role with
    | originator name => exact ⟨rfl, rfl, .inr ⟨rfl, result, rfl, .inr ⟨⟨name, rfl⟩, rfl⟩⟩⟩
    | acceptor =>
      obtain ⟨hconnections, hcalls, hdone⟩ := handshakeSuccessAsB_frame i result
        { s with connections := s.connections.set i ⟨.acceptor, c⟩ }
      exact ⟨hconnections, hcalls, .inr ⟨rfl, result, rfl, .inl ⟨rfl, hdone⟩⟩⟩

/-! ### What has been reported -/

theorem outcomes_of_getElem? (hm : s.connections[i]? = some m) :
    s.outcomes i = m.connection.handshakeSuccess := by
  rw [outcomes, hm]

theorem handshakeSuccess_startHandshake (node : NodeAccess) (ownChallenge : UInt32)
    (role : NodeConnection.Role) :
    (NodeConnection.startHandshake node ownChallenge role).handshakeSuccess = [] := by
  cases role <;> rfl

/-- A new connection has reported nothing. -/
theorem outcomes_append (hm : m.connection.handshakeSuccess = [])
    (h : s'.connections = s.connections ++ [m]) : s'.outcomes = s.outcomes := by
  funext i
  rw [outcomes, outcomes, h]
  by_cases hlt : i < s.connections.length
  · rw [List.getElem?_append_left hlt]
  · rw [List.getElem?_append_right (Nat.le_of_not_lt hlt),
      List.getElem?_eq_none (Nat.le_of_not_lt hlt), List.getElem?_singleton]
    by_cases hlast : i - s.connections.length = 0
    · rw [if_pos hlast]
      exact hm
    · rw [if_neg hlast]

theorem outcomes_set {c : NodeConnection} (hm : s.connections[i]? = some m)
    (h : s'.connections = s.connections.set i { m with connection := c }) :
    s'.outcomes = Function.update s.outcomes i c.handshakeSuccess := by
  funext j
  by_cases hj : j = i
  · subst hj
    rw [Function.update_self, outcomes, h,
      List.getElem?_set_self (List.getElem?_eq_some_iff.mp hm).1]
  · rw [Function.update_of_ne hj, outcomes, h, List.getElem?_set_ne (Ne.symm hj)]
    rfl

theorem Truthful.mono (hs : s.Truthful) (hcalls : s'.calls = s.calls)
    (hsub : ∀ i, s.outcomes i ⊆ s'.outcomes i) : s'.Truthful := by
  intro call hmem
  rw [hcalls] at hmem
  refine ⟨fun i j hstarted hresult => ?_, fun i hstarted hresult => ?_⟩
  · obtain ⟨rfl, hok⟩ := (hs call hmem).returned i j hstarted hresult
    exact ⟨rfl, hsub _ hok⟩
  · exact hsub i ((hs call hmem).failed i hstarted hresult)

/-! ### One call at a time -/

/-- At most one call waits; it has started the one connection of this node whose handshake is not
over, or whose outcome is in the cell. -/
structure OneAtATime (s : NodeConnector) : Prop where
  unique : ∀ (k l : ℕ) (c d : Call), s.calls[k]? = some c → s.calls[l]? = some d →
    c.result = none → d.result = none → k = l
  awaited : ∀ (i : ℕ) (m : Made) (name : Str), s.connections[i]? = some m →
    m.role = .originator name → m.connection.handshakeSuccess = [] →
      ∃ call ∈ s.calls, call.started = some i ∧ call.result = none
  result : ∀ call ∈ s.calls, call.result = none →
    ∃ i, call.started = some i ∧ s.outcomes i = s.handshakeDone.toList
  idle : (∀ call ∈ s.calls, call.result ≠ none) → s.handshakeDone = none
  truthful : s.Truthful

theorem oneAtATime_start : OneAtATime start where
  unique k l c d hc := by simp [start] at hc
  awaited i m name hm := by simp [start] at hm
  result call hmem := by simp [start] at hmem
  idle _ := rfl
  truthful call hmem := by simp [start] at hmem

namespace OneAtATime

/-- Only one call waits. -/
theorem eq_of_waiting (hs : OneAtATime s) {c d : Call} (hc : c ∈ s.calls) (hd : d ∈ s.calls)
    (hcw : c.result = none) (hdw : d.result = none) : c = d := by
  obtain ⟨k, hk⟩ := List.mem_iff_getElem?.mp hc
  obtain ⟨l, hl⟩ := List.mem_iff_getElem?.mp hd
  obtain rfl := hs.unique k l c d hk hl hcw hdw
  exact Option.some_inj.mp (hk.symm.trans hl)

/-- A call that is over at once. -/
theorem addCall (hs : OneAtATime s) (peerNodeName : Str) (result : Except Raised ℕ) :
    OneAtATime (s.addCall ⟨peerNodeName, none, some result⟩) := by
  have hwaits {k : ℕ} {c : Call}
      (hk : (s.calls ++ [⟨peerNodeName, none, some result⟩])[k]? = some c) (hc : c.result = none) :
      s.calls[k]? = some c := by
    rw [List.getElem?_append] at hk
    split at hk
    · exact hk
    · rw [List.getElem?_singleton] at hk
      split at hk
      · rw [← Option.some_inj.mp hk] at hc
        cases hc
      · cases hk
  refine ⟨fun k l c d hk hl hc hd => ?_, fun i m name hm hrole hnone => ?_,
    fun call hmem hwaiting => ?_, fun hidle => ?_, fun call hmem => ?_⟩
  · exact hs.unique k l c d (hwaits hk hc) (hwaits hl hd) hc hd
  · obtain ⟨call, hmem, hcall⟩ := hs.awaited i m name hm hrole hnone
    exact ⟨call, List.mem_append_left _ hmem, hcall⟩
  · rcases List.mem_append.mp hmem with hmem | hmem
    · exact hs.result call hmem hwaiting
    · rw [List.mem_singleton.mp hmem] at hwaiting
      cases hwaiting
  · exact hs.idle fun call hmem => hidle call (List.mem_append_left _ hmem)
  · rcases List.mem_append.mp hmem with hmem | hmem
    · exact hs.truthful call hmem
    · rw [List.mem_singleton.mp hmem]
      exact ⟨by rintro _ _ ⟨⟩, by rintro _ ⟨⟩⟩

/-- A call that starts a connection while no other one waits. -/
theorem startConnection (hs : OneAtATime s) (hidle : ∀ call ∈ s.calls, call.result ≠ none)
    (peerNodeName peerName : Str) (ownChallenge : UInt32) :
    OneAtATime (s.startConnection node peerNodeName peerName ownChallenge) := by
  have houtcomes : (s.startConnection node peerNodeName peerName ownChallenge).outcomes =
      s.outcomes :=
    outcomes_append (handshakeSuccess_startHandshake node ownChallenge _) rfl
  have hmem_new (call : Call) :
      call ∈ (s.startConnection node peerNodeName peerName ownChallenge).calls ↔
        call ∈ s.calls ∨ call = ⟨peerNodeName, some s.connections.length, none⟩ := by
    rw [← List.mem_singleton]
    exact List.mem_append
  have hlast {k : ℕ} {c : Call}
      (hk : (s.startConnection node peerNodeName peerName ownChallenge).calls[k]? = some c)
      (hc : c.result = none) : k = s.calls.length := by
    change (s.calls ++ [_])[k]? = some c at hk
    rw [List.getElem?_append] at hk
    split at hk
    · exact absurd hc (hidle c (List.mem_of_getElem? hk))
    · rw [List.getElem?_singleton] at hk
      split at hk
      · omega
      · cases hk
  refine ⟨fun k l c d hk hl hc hd => ?_, fun i m name hm hrole hnone => ?_,
    fun call hmem hwaiting => ?_, fun hidle' => ?_, fun call hmem => ?_⟩
  · rw [hlast hk hc, hlast hl hd]
  · change (s.connections ++ [_])[i]? = some m at hm
    rw [List.getElem?_append] at hm
    split at hm
    · obtain ⟨call, hmem, hstarted, hwaiting⟩ := hs.awaited i m name hm hrole hnone
      exact absurd hwaiting (hidle call hmem)
    · next hlt =>
      refine ⟨_, (hmem_new _).mpr (.inr rfl), ?_, rfl⟩
      rw [List.getElem?_singleton] at hm
      split at hm
      · rw [show i = s.connections.length by omega]
      · cases hm
  · rcases (hmem_new call).mp hmem with hmem | rfl
    · exact absurd hwaiting (hidle call hmem)
    · refine ⟨_, rfl, ?_⟩
      rw [houtcomes, outcomes, List.getElem?_eq_none (Nat.le_refl _)]
      change [] = s.handshakeDone.toList
      rw [hs.idle hidle]
      rfl
  · exact absurd rfl (hidle' _ ((hmem_new _).mpr (.inr rfl)))
  · rw [houtcomes]
    rcases (hmem_new call).mp hmem with hmem | rfl
    · exact hs.truthful call hmem
    · exact ⟨by rintro _ _ _ ⟨⟩, by rintro _ _ ⟨⟩⟩

/-- The call that waits has got the outcome of its own connection. -/
theorem waitForHandshakeResult (hs : OneAtATime s) (k : ℕ) :
    OneAtATime (s.waitForHandshakeResult k) := by
  have hown {peer : Str} {i : ℕ} {r : Bool} (hcall : s.calls[k]? = some ⟨peer, some i, none⟩)
      (hdone : s.handshakeDone = some r) : s.outcomes i = [r] := by
    obtain ⟨i', hstarted, houtcome⟩ := hs.result _ (List.mem_of_getElem? hcall) rfl
    obtain rfl := Option.some_inj.mp hstarted
    rw [houtcome, hdone]
    rfl
  -- once the only call that waits is over, nothing is left to wait for
  have hover {peer : Str} {i : ℕ} {r : Bool} {result : Except Raised ℕ}
      (hcall : s.calls[k]? = some ⟨peer, some i, none⟩) (hdone : s.handshakeDone = some r)
      (htrue : (⟨peer, some i, some result⟩ : Call).Truthful s.outcomes)
      (nodeConnections : Str → Option ℕ) :
      OneAtATime { s with
        nodeConnections := nodeConnections
        handshakeDone := none
        calls := s.calls.set k ⟨peer, some i, some result⟩ } := by
    have hnone (call : Call) (hmem : call ∈ s.calls.set k ⟨peer, some i, some result⟩) :
        call.result ≠ none := by
      intro hwaiting
      obtain ⟨l, hl⟩ := List.mem_iff_getElem?.mp hmem
      by_cases hlk : k = l
      · rw [← hlk, List.getElem?_set_self (List.getElem?_eq_some_iff.mp hcall).1] at hl
        rw [← Option.some_inj.mp hl] at hwaiting
        cases hwaiting
      · rw [List.getElem?_set_ne hlk] at hl
        exact hlk (hs.unique k l _ call hcall hl rfl hwaiting)
    refine ⟨fun l l' c d hl hl' hc hd => absurd hc (hnone c (List.mem_of_getElem? hl)),
      fun j m name hm hrole hreported => ?_,
      fun call hmem hwaiting => absurd hwaiting (hnone call hmem), fun _ => rfl,
      fun call hmem => ?_⟩
    · obtain ⟨call, hmem, hstarted, hwaiting⟩ := hs.awaited j m name hm hrole hreported
      obtain rfl := hs.eq_of_waiting (List.mem_of_getElem? hcall) hmem rfl hwaiting
      obtain rfl := Option.some_inj.mp hstarted
      have hreport := hown hcall hdone
      rw [outcomes_of_getElem? (s := s) hm, hreported] at hreport
      cases hreport
    · rcases List.mem_or_eq_of_mem_set hmem with hold | rfl
      · exact hs.truthful call hold
      · exact htrue
  rw [NodeConnector.waitForHandshakeResult]
  split
  · next peer i hcall hdone =>
    rw [insert_eq]
    refine hover hcall hdone ⟨fun i' j hstarted hresult => ?_, fun i' _ hresult => ?_⟩ _
    · obtain rfl := Option.some_inj.mp hstarted
      cases hresult
      rw [hown hcall hdone]
      exact ⟨rfl, List.mem_singleton_self true⟩
    · cases hresult
  · next peer i hcall hdone =>
    refine hover hcall hdone ⟨fun i' j _ hresult => ?_, fun i' hstarted _ => ?_⟩ _
    · cases hresult
    · obtain rfl := Option.some_inj.mp hstarted
      rw [hown hcall hdone]
      exact List.mem_singleton_self false
  · exact hs

/-- A connection that another node makes. -/
theorem append (hs : OneAtATime s) (ownChallenge : UInt32) (accepting : Bool) :
    OneAtATime { s with
      connections := s.connections ++
        [⟨.acceptor, NodeConnection.startHandshake node ownChallenge .acceptor⟩]
      accepting := accepting } := by
  have houtcomes : outcomes { s with
      connections := s.connections ++
        [⟨.acceptor, NodeConnection.startHandshake node ownChallenge .acceptor⟩]
      accepting := accepting } = s.outcomes :=
    outcomes_append (handshakeSuccess_startHandshake node ownChallenge .acceptor) rfl
  refine ⟨hs.unique, fun i m name hm hrole hnone => ?_, fun call hmem hwaiting => ?_, hs.idle,
    hs.truthful.mono rfl fun i => ?_⟩
  · dsimp only at hm
    rw [List.getElem?_append] at hm
    split at hm
    · exact hs.awaited i m name hm hrole hnone
    · rw [List.getElem?_singleton] at hm
      split at hm
      · rw [← Option.some_inj.mp hm] at hrole
        cases hrole
      · cases hm
  · rw [houtcomes]
    exact hs.result call hmem hwaiting
  · rw [houtcomes]
    exact List.Subset.refl _

theorem completeIo (hwf : Wf node s) (hs : OneAtATime s) {e : NodeConnection.Event}
    (h : s.completeIo node i e = some s') : OneAtATime s' := by
  obtain ⟨m, c, hm, hconnections, hcalls, hreport⟩ := completeIo_frame hwf h
  have houtcomes := outcomes_set hm hconnections
  have hold := outcomes_of_getElem? hm
  -- what is there before is there after
  have hself : s'.connections[i]? = some { m with connection := c } := by
    rw [hconnections]
    exact List.getElem?_set_self (List.getElem?_eq_some_iff.mp hm).1
  have hother {j : ℕ} (hj : j ≠ i) : s'.connections[j]? = s.connections[j]? := by
    rw [hconnections]
    exact List.getElem?_set_ne (Ne.symm hj)
  have hsub (j : ℕ) : s.outcomes j ⊆ s'.outcomes j := by
    rw [houtcomes]
    by_cases hj : j = i
    · subst hj
      rw [Function.update_self, hold]
      rcases hreport with ⟨hsame, -⟩ | ⟨hnone, -⟩
      · rw [hsame]
        exact List.Subset.refl _
      · rw [hnone]
        exact List.nil_subset _
    · rw [Function.update_of_ne hj]
      exact List.Subset.refl _
  have hawaited {j : ℕ} {n : Made} {name : Str} (hn : s'.connections[j]? = some n)
      (hrole : n.role = .originator name) (hnone : n.connection.handshakeSuccess = []) :
      ∃ call ∈ s'.calls, call.started = some j ∧ call.result = none := by
    rw [hcalls]
    by_cases hj : j = i
    · subst hj
      obtain rfl := Option.some_inj.mp (hself.symm.trans hn)
      refine hs.awaited j m name hm hrole ?_
      have hsub := hsub j
      rw [houtcomes, Function.update_self, hold] at hsub
      exact List.subset_nil.mp (hnone ▸ hsub)
    · exact hs.awaited j n name ((hother hj).symm.trans hn) hrole hnone
  refine ⟨by rw [hcalls]; exact hs.unique, fun j n name hn hrole hnone => hawaited hn hrole hnone,
    fun call hmem hwaiting => ?_, fun hidle => ?_, hs.truthful.mono hcalls hsub⟩
  · rw [hcalls] at hmem
    obtain ⟨j, hstarted, houtcome⟩ := hs.result call hmem hwaiting
    refine ⟨j, hstarted, ?_⟩
    rw [houtcomes]
    rcases hreport with ⟨hsame, hdone⟩ | ⟨hnone, r, hone, hrole⟩
    · rw [hsame, ← hold, Function.update_eq_self, hdone]
      exact houtcome
    · rcases hrole with ⟨hrole, hdone⟩ | ⟨⟨name, hrole⟩, hdone⟩
      · -- a call has not started a connection of another node
        obtain ⟨n, name, host, hn, hnrole, -⟩ := hwf.started call hmem j hstarted
        have hj : j ≠ i := by
          rintro rfl
          obtain rfl := Option.some_inj.mp (hm.symm.trans hn)
          rw [hrole] at hnrole
          cases hnrole
        rw [Function.update_of_ne hj, hdone]
        exact houtcome
      · -- the call that waits is the one for this connection
        obtain ⟨call', hmem', hstarted', hwaiting'⟩ := hs.awaited i m name hm hrole hnone
        obtain rfl := hs.eq_of_waiting hmem hmem' hwaiting hwaiting'
        obtain rfl := Option.some_inj.mp (hstarted.symm.trans hstarted')
        rw [Function.update_self, hone, hdone]
        rfl
  · rw [hcalls] at hidle
    rcases hreport with ⟨-, hdone⟩ | ⟨hnone, r, hone, ⟨-, hdone⟩ | ⟨⟨name, hrole⟩, -⟩⟩
    · rw [hdone]
      exact hs.idle hidle
    · rw [hdone]
      exact hs.idle hidle
    · obtain ⟨call, hmem, -, hwaiting⟩ := hs.awaited i m name hm hrole hnone
      exact absurd hwaiting (hidle call hmem)

/-- **Whose outcome is in the cell**, as long as calls start their connections alone. -/
theorem step (hwf : Wf node s) (hs : OneAtATime s) {e : NodeConnectorEvent}
    (halone : s.StartsAlone e) (h : s.step node e = some s') : OneAtATime s' := by
  cases e with
  | call peerNodeName ownChallenge requested =>
    obtain rfl := Option.some_inj.mp h
    rcases getConnectionTo_cases node peerNodeName ownChallenge requested s with
      ⟨result, heq⟩ | ⟨hnew, peerName, hrequest, heq⟩
    · rw [heq]
      exact hs.addCall peerNodeName result
    · rw [heq]
      exact (hs.startConnection (halone hnew ⟨peerName, hrequest⟩) peerNodeName peerName
        ownChallenge).waitForHandshakeResult _
  | wake k =>
    obtain rfl := Option.some_inj.mp h
    exact hs.waitForHandshakeResult k
  | io i e => exact hs.completeIo hwf h
  | accept ownChallenge =>
    rw [NodeConnector.step] at h
    split at h
    · obtain rfl := Option.some_inj.mp h
      exact hs.append ownChallenge false
    · cases h
  | acceptError =>
    rw [NodeConnector.step] at h
    split at h
    · obtain rfl := Option.some_inj.mp h
      exact ⟨hs.unique, hs.awaited, hs.result, hs.idle, hs.truthful⟩
    · cases h

end OneAtATime

/-! ### Two calls at a time -/

/-- The first write of a handshake can fail. -/
theorem step_writeError_startHandshake (node : NodeAccess) (ownChallenge : UInt32) (peer : Str) :
    ∃ c, (NodeConnection.startHandshake node ownChallenge (.originator peer)).step node
      (.writeError []) = some c ∧ c.handshakeSuccess = [false] ∧ c.raised = [] :=
  ⟨_, rfl, rfl, rfl⟩

theorem completeIo_startHandshake {peer : Str} {ownChallenge : UInt32}
    (hm : s.connections[i]? =
      some ⟨.originator peer, NodeConnection.startHandshake node ownChallenge (.originator peer)⟩) :
    ∃ s', s.completeIo node i (.writeError []) = some s' ∧ s'.calls = s.calls ∧
      s'.handshakeDone = some false ∧ s'.outcomes = Function.update s.outcomes i [false] := by
  obtain ⟨c, hstep, hreport, hraised⟩ := step_writeError_startHandshake node ownChallenge peer
  refine ⟨{ s with
    connections := s.connections.set i ⟨.originator peer, c⟩
    handshakeDone := some false }, ?_, rfl, rfl, ?_⟩
  · rw [completeIo, hm]
    dsimp only
    rw [hstep]
    dsimp only
    rw [hreport, hraised]
    rfl
  · rw [← hreport]
    exact outcomes_set hm rfl

/-- A call that takes the outcome in the cell is right if the outcome is its own. -/
theorem mem_outcomes_of_truthful {peer : Str} {r : Bool}
    (hcall : s.calls[k]? = some ⟨peer, some i, none⟩) (hdone : s.handshakeDone = some r)
    (h : (s.waitForHandshakeResult k).Truthful) : r ∈ s.outcomes i := by
  have hlt : k < s.calls.length := (List.getElem?_eq_some_iff.mp hcall).1
  cases r with
  | true =>
    rw [waitForHandshakeResult, hcall, hdone] at h
    dsimp only at h
    rw [insert_eq] at h
    exact ((h _ (List.mem_set hlt _)).returned i i rfl rfl).2
  | false =>
    rw [waitForHandshakeResult, hcall, hdone] at h
    exact (h _ (List.mem_set hlt _)).failed i rfl rfl

/-- **A call that does not start alone** can get the outcome of another one, or another one its. -/
theorem not_settled_of_not_startsAlone (hwf : Wf node s) (hs : OneAtATime s)
    {e : NodeConnectorEvent} (halone : ¬ s.StartsAlone e) (h : s.step node e = some s') :
    ¬ Settled node s' := by
  cases e with
  | call peerNodeName ownChallenge requested =>
    simp only [StartsAlone, not_forall, not_not] at halone
    obtain ⟨hnew, ⟨peerName, hrequest⟩, call, hmem, hwaiting⟩ := halone
    obtain ⟨k, hk⟩ := List.mem_iff_getElem?.mp hmem
    obtain ⟨i, hstarted, houtcome⟩ := hs.result call hmem hwaiting
    let started := s.startConnection node peerNodeName peerName ownChallenge
    have houtcomes : started.outcomes = s.outcomes :=
      outcomes_append (handshakeSuccess_startHandshake node ownChallenge _) rfl
    obtain rfl : started.waitForHandshakeResult s.calls.length = s' := by
      refine Option.some_inj.mp (Eq.trans ?_ h)
      rw [NodeConnector.step, getConnectionTo, hnew]
      dsimp only
      rw [hrequest]
    have hlast : started.calls[s.calls.length]? =
        some ⟨peerNodeName, some s.connections.length, none⟩ := List.getElem?_concat_length
    have hnothing : s.outcomes s.connections.length = [] := by
      rw [outcomes, List.getElem?_eq_none (Nat.le_refl _)]
    intro hsettled
    cases hdone : s.handshakeDone with
    | some r =>
      -- the outcome in the cell is the other one's, and the new call takes it
      have hmem := mem_outcomes_of_truthful hlast hdone (hsettled [] (by simp)).start
      rw [houtcomes, hnothing] at hmem
      cases hmem
    | none =>
      -- the new connection fails first, and the other call wakes up
      have hwait : started.waitForHandshakeResult s.calls.length = started := by
        have hdone' : started.handshakeDone = none := hdone
        rw [waitForHandshakeResult, hlast, hdone']
      rw [hwait] at hsettled
      obtain ⟨t, hio, hcalls, hdone', hreports⟩ : ∃ t,
          started.completeIo node s.connections.length (.writeError []) = some t ∧
            t.calls = started.calls ∧ t.handshakeDone = some false ∧
              t.outcomes = Function.update started.outcomes s.connections.length [false] :=
        completeIo_startHandshake List.getElem?_concat_length
      have hcall : t.calls[k]? = some ⟨call.peerNodeName, some i, none⟩ := by
        rw [hcalls, ← hstarted, ← hwaiting]
        exact (List.getElem?_append_left (List.getElem?_eq_some_iff.mp hk).1).trans hk
      have hrun : run (NodeConnector.step node) started
          [.io s.connections.length (.writeError []), .wake k] =
            some (t.waitForHandshakeResult k) := by
        rw [run_cons, NodeConnector.step, hio]
        rfl
      have hreported := mem_outcomes_of_truthful hcall hdone' (hsettled _ (by simp [IsCall]) _
        (List.prefix_refl _) _ hrun)
      have hother : i ≠ s.connections.length := by
        obtain ⟨m, name, host, hm, -⟩ := hwf.started call hmem i hstarted
        exact Nat.ne_of_lt (List.getElem?_eq_some_iff.mp hm).1
      rw [hreports, Function.update_of_ne hother, houtcomes, houtcome,
        hdone] at hreported
      cases hreported
  | wake k => exact absurd trivial halone
  | io i e => exact absurd trivial halone
  | accept ownChallenge => exact absurd trivial halone
  | acceptError => exact absurd trivial halone

/-- What a run keeps as long as the calls start their connections alone. -/
theorem settled_of_oneAtATime (hwf : Wf node s) (hs : OneAtATime s) : Settled node s := by
  intro rest hrest
  have halone : EveryStep (step node) StartsAlone s rest := by
    intro done e hprefix t _
    cases e with
    | call peerNodeName ownChallenge requested =>
      have hmem : NodeConnectorEvent.call peerNodeName ownChallenge requested ∈ rest :=
        hprefix.subset (by simp)
      exact absurd (hrest _ hmem) (not_not.mpr trivial)
    | wake k => trivial
    | io i e => trivial
    | accept ownChallenge => trivial
    | acceptError => trivial
  have hall := throughout_of_everyStep (P := fun s => Wf node s ∧ OneAtATime s)
    (fun s e t hs halone ht => ⟨hs.1.step ht, hs.2.step hs.1 halone ht⟩) ⟨hwf, hs⟩ halone
  exact hall.mono fun t ht => ht.2.truthful

/-- **The calls that get their own results.** In a run in which each call that starts a connection
does so while no other call waits, no call ever has the result of another one; and a call that does
not can always be followed by something that mixes them up, without another call. -/
theorem truthful_of_startsAlone (node : NodeAccess) (es : List NodeConnectorEvent) :
    (EveryStep (step node) StartsAlone start es → Throughout (step node) Truthful start es) ∧
      (EveryStep (step node) StartsAlone start es ↔
        Throughout (step node) (Settled node) start es) := by
  have hall (h : EveryStep (step node) StartsAlone start es) :
      Throughout (step node) (fun s => Wf node s ∧ OneAtATime s) start es :=
    throughout_of_everyStep (fun s e t hs halone ht => ⟨hs.1.step ht, hs.2.step hs.1 halone ht⟩)
      ⟨wf_start, oneAtATime_start⟩ h
  refine ⟨fun h => (hall h).mono fun t ht => ht.2.truthful, fun h => ?_, fun h => ?_⟩
  · exact (hall h).mono fun t ht => settled_of_oneAtATime ht.1 ht.2
  · refine everyStep_of_throughout (J := fun s => Wf node s ∧ OneAtATime s)
      (fun s e hs hsettled => ?_) (fun s e t hs halone ht _ => ?_) ⟨wf_start, oneAtATime_start⟩ h
    · by_contra halone
      obtain ⟨t, ht⟩ : ∃ t, step node s e = some t := by
        cases e with
        | call peerNodeName ownChallenge requested => exact ⟨_, rfl⟩
        | wake k => exact absurd trivial halone
        | io i e => exact absurd trivial halone
        | accept ownChallenge => exact absurd trivial halone
        | acceptError => exact absurd trivial halone
      exact not_settled_of_not_startsAlone hs.1 hs.2 halone ht (hsettled t ht)
    · exact ⟨hs.1.step ht, hs.2.step hs.1 halone ht⟩

/-- Two calls for two nodes. The handshake of the second one fails, and the first one says so. -/
theorem not_truthful_two_calls : ¬ Throughout (step nodeA) Truthful start
    [.call (bytesOf "b@h") 1 (.ok ()), .call (bytesOf "c@h") 2 (.ok ()),
      .io 1 (.writeError []), .wake 0] := by
  intro h
  obtain ⟨s, call, hrun, hcall, hstarted, hresult, hnothing⟩ : ∃ (s : NodeConnector) (call : Call),
      run (step nodeA) start [.call (bytesOf "b@h") 1 (.ok ()), .call (bytesOf "c@h") 2 (.ok ()),
        .io 1 (.writeError []), .wake 0] = some s ∧ s.calls[0]? = some call ∧
          call.started = some 0 ∧
            call.result = some (.error (failedToConnect call.peerNodeName)) ∧ s.outcomes 0 = [] :=
    ⟨_, _, rfl, rfl, rfl, rfl, rfl⟩
  have hfailed := (h _ (List.prefix_refl _) s hrun call (List.mem_of_getElem? hcall)).failed 0
    hstarted hresult
  rw [hnothing] at hfailed
  cases hfailed

end NodeConnector

end TinchPp
