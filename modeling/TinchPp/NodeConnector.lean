import Mathlib.Logic.Function.Basic
import TinchPp.HandshakeOutcome

/-!
# Connections by the names of their nodes

`node_connector.cpp`, and the recovery point of `actual_node::run_async_io`. A node finds its
connections in a map, by the names of the nodes at the other end. `get_connection_to` makes a new
one if there is none, and waits for the outcome of its handshake: a cell `handshake_done`, guarded
by the mutex of the map, into which the callback of the connection puts the outcome, and a condition
variable. There is one cell for all the calls. A connection that another node has made goes into the
map when its handshake has succeeded.

An event of the model is what happens between taking the mutex and letting go of it, or one
completed operation of a connection with all its callbacks. A call that waits may be woken up at any
time, by a notification or by nothing at all. What the port mapper says and whether there is a node
at that port comes with the call.

## Main results

* `NodeConnector.Wf.step` — what is true of the connections, the calls and the map in every run
-/

namespace TinchPp

open EventSystem

/-! ### Names of nodes -/

/-- `[\w.-]` -/
def isNameChar (c : UInt8) : Bool :=
  48 ≤ c ∧ c ≤ 57 ∨ 65 ≤ c ∧ c ≤ 90 ∨ 97 ≤ c ∧ c ≤ 122 ∨ c = 95 ∨ c = 46 ∨ c = 45

def invalidNodeName (node : Str) : Raised :=
  .tinchPpException (bytesOf "The given node = " ++ node ++
    bytesOf " is invalid. Check the Erlang docs for a valid format.")

/-- `utils::split_node_name`: the name and the host, with an `@` between them. -/
def splitNodeName (node : Str) : Except Raised (Str × Str) :=
  match node.span isNameChar with
  | (name, 64 :: host) =>
    if name ≠ [] ∧ host ≠ [] ∧ host.all isNameChar then .ok (name, host)
    else .error (invalidNodeName node)
  | _ => .error (invalidNodeName node)

/-! ### The connector -/

/-- A connection, and who has started it. -/
structure Made where
  role : NodeConnection.Role
  connection : NodeConnection

/-- A call of `get_connection_to`: the connection that it has started, if it has, and once it is
over, the connection that it has returned or the exception that it has raised. -/
structure Call where
  peerNodeName : Str
  started : Option ℕ
  result : Option (Except Raised ℕ)

/-- `node_connector`. The connections are known by their place in `connections`, and stay there. -/
structure NodeConnector where
  connections : List Made
  nodeConnections : Str → Option ℕ
  handshakeDone : Option Bool
  accepting : Bool
  calls : List Call

/-- What happens to the connections of a node. -/
inductive NodeConnectorEvent
  | call (peerNodeName : Str) (ownChallenge : UInt32) (requested : Except Raised Unit)
  | wake (call : ℕ)
  | io (connection : ℕ) (e : NodeConnection.Event)
  | accept (ownChallenge : UInt32)
  | acceptError

namespace NodeConnector

def start : NodeConnector where
  connections := []
  nodeConnections _ := none
  handshakeDone := none
  accepting := true
  calls := []

/-- `std::map::insert` leaves an entry that exists. -/
def insert (name : Str) (i : ℕ) (s : NodeConnector) : NodeConnector :=
  match s.nodeConnections name with
  | some _ => s
  | none => { s with nodeConnections := Function.update s.nodeConnections name (some i) }

def dropConnectionTo (nodeName : Str) (s : NodeConnector) : NodeConnector :=
  { s with nodeConnections := Function.update s.nodeConnections nodeName none }

def triggerAccept (s : NodeConnector) : NodeConnector := { s with accepting := true }

/-! The callbacks of the connections. -/

def handshakeSuccess (handshakeResult : Bool) (s : NodeConnector) : NodeConnector :=
  { s with handshakeDone := some handshakeResult }

/-- An exception because the name of the peer is not known would leave before the next connection is
accepted. -/
def handshakeSuccessAsB (potentiallyConnected : ℕ) (succeeded : Bool) (s : NodeConnector) :
    NodeConnector :=
  if succeeded then
    match s.connections[potentiallyConnected]?.bind fun m => m.connection.peerName with
    | some peerNodeName => (s.insert peerNodeName potentiallyConnected).triggerAccept
    | none => s
  else s.triggerAccept

/-- The callback depends on the role. -/
def reported (i : ℕ) : NodeConnection.Role → Bool → NodeConnector → NodeConnector
  | .originator _, result, s => s.handshakeSuccess result
  | .acceptor, result, s => s.handshakeSuccessAsB i result

/-- The recovery point of `run_async_io`. -/
def caught : Raised → NodeConnector → NodeConnector
  | .connectionIoError _ nodeName, s => s.dropConnectionTo nodeName
  | .tinchPpException _, s => s

def failedToConnect (peerNodeName : Str) : Raised :=
  .tinchPpException (bytesOf "Failed to connect to the node = " ++ peerNodeName)

/-- `wait_for_handshake_result`, with the mutex, and the rest of `make_new_connection` once there is
a result. It does not say whose result it is. -/
def waitForHandshakeResult (k : ℕ) (s : NodeConnector) : NodeConnector :=
  match s.calls[k]?, s.handshakeDone with
  | some ⟨peerNodeName, some newConnection, none⟩, some true =>
    { s.insert peerNodeName newConnection with
      handshakeDone := none
      calls := s.calls.set k ⟨peerNodeName, some newConnection, some (.ok newConnection)⟩ }
  | some ⟨peerNodeName, some newConnection, none⟩, some false =>
    { s with
      handshakeDone := none
      calls := s.calls.set k
        ⟨peerNodeName, some newConnection, some (.error (failedToConnect peerNodeName))⟩ }
  | _, _ => s

/-- `request_node_connection`: the name of the peer without its host. -/
def requestNodeConnection (peerNode : Str) (requested : Except Raised Unit) : Except Raised Str :=
  match splitNodeName peerNode with
  | .error e => .error e
  | .ok (peerName, _) =>
    match requested with
    | .error e => .error e
    | .ok () => .ok peerName

variable (node : NodeAccess)

def addCall (call : Call) (s : NodeConnector) : NodeConnector :=
  { s with calls := s.calls ++ [call] }

/-- `make_new_connection`, up to where it waits. -/
def startConnection (peerNodeName peerName : Str) (ownChallenge : UInt32) (s : NodeConnector) :
    NodeConnector :=
  let role := .originator peerName
  { s with
    connections := s.connections ++ [⟨role, NodeConnection.startHandshake node ownChallenge role⟩]
    calls := s.calls ++ [⟨peerNodeName, some s.connections.length, none⟩] }

def getConnectionTo (peerNodeName : Str) (ownChallenge : UInt32) (requested : Except Raised Unit)
    (s : NodeConnector) : NodeConnector :=
  match s.nodeConnections peerNodeName with
  | some existing => s.addCall ⟨peerNodeName, none, some (.ok existing)⟩
  | none =>
    match requestNodeConnection peerNodeName requested with
    | .error e => s.addCall ⟨peerNodeName, none, some (.error e)⟩
    | .ok peerName =>
      (s.startConnection node peerNodeName peerName ownChallenge).waitForHandshakeResult
        s.calls.length

/-- An operation of a connection completes. First its callbacks are called, and then what has been
raised is caught. -/
def completeIo (i : ℕ) (e : NodeConnection.Event) (s : NodeConnector) : Option NodeConnector :=
  match s.connections[i]? with
  | none => none
  | some m =>
    match m.connection.step node e with
    | none => none
    | some c =>
      let s := { s with connections := s.connections.set i { m with connection := c } }
      let s := (c.handshakeSuccess.drop m.connection.handshakeSuccess.length).foldl
        (fun s result => s.reported i m.role result) s
      some ((c.raised.drop m.connection.raised.length).foldl (fun s e => s.caught e) s)

/-- `handle_accept`, without an error. -/
def handleAccept (ownChallenge : UInt32) (s : NodeConnector) : NodeConnector :=
  { s with
    connections := s.connections ++
      [⟨.acceptor, NodeConnection.startHandshake node ownChallenge .acceptor⟩]
    accepting := false }

def step (s : NodeConnector) : NodeConnectorEvent → Option NodeConnector
  | .call peerNodeName ownChallenge requested =>
    some (s.getConnectionTo node peerNodeName ownChallenge requested)
  | .wake k => some (s.waitForHandshakeResult k)
  | .io i e => s.completeIo node i e
  | .accept ownChallenge => if s.accepting then some (s.handleAccept node ownChallenge) else none
  | .acceptError => if s.accepting then some s.triggerAccept else none

end NodeConnector

/-! ### What a connector can rely on -/

namespace NodeConnection

variable {node : NodeAccess} {ownChallenge : UInt32} {role : Role} {c c' : NodeConnection}
  {e : Event} {T : MsgSeq}

theorem peerName_of_nextMessage {k : LexerKind} {msg : MsgSeq}
    (h : c.nextMessage k = some (msg, c')) : c'.peerName = c.peerName := by
  rw [nextMessage] at h
  split at h
  · obtain ⟨-, rfl⟩ := Prod.mk.inj (Option.some_inj.mp h)
    cases k <;> rfl
  · cases h

theorem peerName_of_challengeRead {held : Bool} {k : LexerKind}
    (h : c.challengeRead node held k = some c') :
    c'.peerName = c.peerName := by
  obtain ⟨msg, c₁, hnext, hc'⟩ := challengeRead_eq_some h
  rw [← peerName_of_nextMessage hnext]
  obtain rfl | ⟨challenge, rfl⟩ := hc' <;> rfl

/-- The name of the peer is only learned from the name message. -/
theorem peerName_of_invokeRead {callback : ReadCallback} {k : LexerKind}
    (hcallback : callback ≠ .nameRead) (h : c.invokeRead node callback k = some c') :
    c'.peerName = c.peerName := by
  cases callback with
  | nameRead => exact absurd rfl hcallback
  | statusRead =>
    obtain ⟨msg, c₁, hnext, hc'⟩ := statusRead_eq_some h
    rw [← peerName_of_nextMessage hnext]
    obtain rfl | ⟨reason, rfl⟩ | rfl | hread := hc'
    · rfl
    · rfl
    · rfl
    · have hsame := peerName_of_challengeRead hread
      exact hsame
  | challengeRead => exact peerName_of_challengeRead h
  | replyReceived =>
    obtain ⟨msg, c₁, hnext, hc'⟩ := replyReceived_eq_some h
    rw [← peerName_of_nextMessage hnext]
    obtain rfl | ⟨challenge, rfl⟩ | ⟨reason, rfl⟩ := hc' <;> rfl
  | challengeAckRead =>
    obtain ⟨msg, c₁, hnext, hc'⟩ := challengeAckRead_eq_some h
    rw [← peerName_of_nextMessage hnext]
    obtain ⟨e, rfl⟩ | rfl := hc' <;> rfl
  | msgReceived =>
    obtain ⟨msg, c₁, c₂, hnext, rfl, hc₂⟩ := msgReceived_eq_triggerCheckedRead h
    rw [← peerName_of_nextMessage hnext]
    obtain rfl | ⟨calls, rfl⟩ := hc₂ <;> rfl

theorem peerName_handleIoError (node : NodeAccess) (error : Str) (c : NodeConnection) :
    (c.handleIoError node error).peerName = c.peerName := by
  rw [handleIoError]
  split
  · split <;> rfl
  · rfl

theorem peerName_of_step (hread : ∀ k, c.pendingRead ≠ some (.nameRead, k))
    (h : c.step node e = some c') : c'.peerName = c.peerName := by
  cases e with
  | read bytes =>
    obtain ⟨-, callback, k, l, hpending, -, hread'⟩ := NodeConnection.step_read h
    have hlexer (d : NodeConnection) : (d.setLexer k l).peerName = d.peerName := by
      cases k <;> rfl
    rcases hread' with ⟨-, rfl⟩ | ⟨-, hread'⟩
    · exact hlexer c
    · have hne : callback ≠ .nameRead := by
        rintro rfl
        exact hread k hpending
      exact (peerName_of_invokeRead hne hread').trans (hlexer _)
  | readError error =>
    obtain ⟨-, rfl⟩ := step_readError h
    exact peerName_handleIoError node error _
  | written =>
    obtain ⟨-, msg, callback, queue, -, rfl⟩ := step_written h
    cases callback <;> rfl
  | writeError error =>
    obtain ⟨-, rfl⟩ := step_writeError h
    exact peerName_handleIoError node error _
  | request op =>
    rw [step, request] at h
    split at h <;> obtain rfl := Option.some_inj.mp h <;> rfl

/-- An originator does not read a name. -/
theorem Course.pendingRead_of_originator {peer : Str}
    (hc : Course node ownChallenge (.originator peer) T c) (k : LexerKind) :
    c.pendingRead ≠ some (.nameRead, k) := by
  cases hc with
  | underway hc =>
    obtain ⟨taken, l, hstage, -⟩ := hc
    cases hstage with
    | awaits hawaits hw =>
      rw [hw.pendingRead]
      cases hawaits <;> simp
    | sends _ hw => simp [hw.pendingRead]
  | failed hc => simp [hc.waits.1]
  | raised hc => simp [hc.waits.1]
  | connected hc => rcases hc.pendingRead with h | h <;> simp [h]

/-- What has been reported stays reported. -/
theorem Course.handshakeSuccess_isPrefix (hc : Course node ownChallenge role T c)
    (h : c.step node e = some c') : c.handshakeSuccess <+: c'.handshakeSuccess := by
  cases hc with
  | underway hc =>
    obtain ⟨taken, l, -, -, hquiet⟩ := hc
    rw [hquiet.handshakeSuccess]
    exact List.nil_prefix
  | failed hc =>
    obtain ⟨-, rfl⟩ := hc.step h
    exact List.prefix_rfl
  | raised hc =>
    obtain ⟨-, rfl⟩ := hc.step h
    exact List.prefix_rfl
  | connected hc =>
    rw [(hc.step h).2]

/-- Success is reported by a connection that is connected. -/
theorem Course.connected_of_mem (hc : Course node ownChallenge role T c)
    (hmem : true ∈ c.handshakeSuccess) : c.Connected := by
  cases hc with
  | underway hc =>
    obtain ⟨taken, l, -, -, hquiet⟩ := hc
    simp [hquiet.handshakeSuccess] at hmem
  | failed _ hreport => simp [hreport] at hmem
  | raised _ hquiet => simp [hquiet.handshakeSuccess] at hmem
  | connected hc => exact hc

/-- In a step there is a report or there is none. -/
theorem Course.reports_cases (hc : Course node ownChallenge role T c)
    (h : c.step node e = some c') : c'.handshakeSuccess = c.handshakeSuccess ∨
      c.handshakeSuccess = [] ∧ ∃ result, c'.handshakeSuccess = [result] := by
  obtain ⟨new, hnew⟩ := hc.handshakeSuccess_isPrefix h
  have hlen := (hc.step h).length_handshakeSuccess
  rw [← hnew, List.length_append] at hlen
  cases new with
  | nil => exact .inl (by rw [← hnew, List.append_nil])
  | cons result new =>
    have hnone : c.handshakeSuccess = [] := List.length_eq_zero_iff.mp (by
      rw [List.length_cons] at hlen
      omega)
    have hone : new = [] := List.length_eq_zero_iff.mp (by
      rw [List.length_cons] at hlen
      omega)
    exact .inr ⟨hnone, result, by rw [← hnew, hnone, hone, List.nil_append]⟩

end NodeConnection

/-- What the connection stored under a key is: one that this node has made for that name, or one
from the peer that has given it. -/
def Made.BelongsTo (m : Made) (key : Str) : Prop :=
  match m.role with
  | .originator name => ∃ host, splitNodeName key = .ok (name, host)
  | .acceptor => m.connection.Connected ∧ m.connection.peerName = some key

namespace NodeConnector

variable {node : NodeAccess} {s s' : NodeConnector} {i : ℕ} {m : Made} {key : Str}

/-- What is true in every run. -/
structure Wf (node : NodeAccess) (s : NodeConnector) : Prop where
  course : ∀ (i : ℕ) (m : Made), s.connections[i]? = some m →
    ∃ ownChallenge T, NodeConnection.Course node ownChallenge m.role T m.connection
  peerName : ∀ (i : ℕ) (m : Made) (name : Str), s.connections[i]? = some m →
    m.role = .originator name → m.connection.peerName = some name
  started : ∀ call ∈ s.calls, ∀ i, call.started = some i → ∃ (m : Made) (name host : Str),
    s.connections[i]? = some m ∧ m.role = .originator name ∧
      splitNodeName call.peerNodeName = .ok (name, host)
  stored : ∀ key i, s.nodeConnections key = some i → ∃ m : Made, s.connections[i]? = some m ∧
    m.BelongsTo key

theorem wf_start : Wf node start where
  course i m hm := by simp [start] at hm
  peerName i m name hm := by simp [start] at hm
  started call hmem := by simp [start] at hmem
  stored key i hstored := by simp [start] at hstored

namespace Wf

theorem insert (hs : Wf node s) (hm : s.connections[i]? = some m) (hkey : m.BelongsTo key) :
    Wf node (s.insert key i) := by
  rw [NodeConnector.insert]
  split
  · exact hs
  · refine ⟨hs.course, hs.peerName, hs.started, fun key' j hstored => ?_⟩
    by_cases hk : key' = key
    · subst hk
      dsimp only at hstored
      rw [Function.update_self] at hstored
      obtain rfl := Option.some_inj.mp hstored
      exact ⟨m, hm, hkey⟩
    · dsimp only at hstored
      rw [Function.update_of_ne hk] at hstored
      exact hs.stored key' j hstored

theorem dropConnectionTo (hs : Wf node s) (nodeName : Str) :
    Wf node (s.dropConnectionTo nodeName) := by
  refine ⟨hs.course, hs.peerName, hs.started, fun key j hstored => ?_⟩
  by_cases hk : key = nodeName
  · subst hk
    simp [NodeConnector.dropConnectionTo] at hstored
  · rw [NodeConnector.dropConnectionTo] at hstored
    dsimp only at hstored
    rw [Function.update_of_ne hk] at hstored
    exact hs.stored key j hstored

theorem caught (hs : Wf node s) (es : List Raised) :
    Wf node (es.foldl (fun s e => s.caught e) s) := by
  induction es generalizing s with
  | nil => exact hs
  | cons e es ih =>
    rw [List.foldl_cons]
    cases e with
    | connectionIoError error nodeName => exact ih (hs.dropConnectionTo nodeName)
    | tinchPpException reason => exact ih hs

/-- A new connection. -/
theorem append (hs : Wf node s) {role : NodeConnection.Role} (ownChallenge : UInt32)
    (calls : List Call) (hcalls : ∀ call ∈ calls, call ∈ s.calls ∨
      call.started = some s.connections.length ∧ ∃ name host, role = .originator name ∧
        splitNodeName call.peerNodeName = .ok (name, host)) (accepting : Bool) :
    Wf node { s with
      connections := s.connections ++
        [⟨role, NodeConnection.startHandshake node ownChallenge role⟩]
      calls := calls
      accepting := accepting } := by
  have hold {j : ℕ} {m : Made} (hm : s.connections[j]? = some m) (new : Made) :
      (s.connections ++ [new])[j]? = some m := by
    rw [List.getElem?_append_left (List.getElem?_eq_some_iff.mp hm).1]
    exact hm
  have hcases {j : ℕ} {m new : Made} (hm : (s.connections ++ [new])[j]? = some m) :
      s.connections[j]? = some m ∨ m = new := by
    rw [List.getElem?_append] at hm
    split at hm
    · exact .inl hm
    · rw [List.getElem?_singleton] at hm
      split at hm
      · exact .inr (Option.some_inj.mp hm).symm
      · cases hm
  refine ⟨fun j m hm => ?_, fun j m name hm hrole => ?_, fun call hmem j hstarted => ?_,
    fun key j hstored => ?_⟩
  · rcases hcases hm with hm | rfl
    · exact hs.course j m hm
    · exact ⟨ownChallenge, [], NodeConnection.course_startHandshake node ownChallenge role⟩
  · rcases hcases hm with hm | rfl
    · exact hs.peerName j m name hm hrole
    · obtain rfl : role = .originator name := hrole
      rfl
  · rcases hcalls call hmem with hmem | ⟨hnew, name, host, rfl, hsplit⟩
    · obtain ⟨m, name, host, hm, hrole, hsplit⟩ := hs.started call hmem j hstarted
      exact ⟨m, name, host, hold hm _, hrole, hsplit⟩
    · obtain rfl := Option.some_inj.mp (hnew.symm.trans hstarted)
      exact ⟨_, name, host, List.getElem?_concat_length, rfl, hsplit⟩
  · obtain ⟨m, hm, hkey⟩ := hs.stored key j hstored
    exact ⟨m, hold hm _, hkey⟩

/-- A connection takes a step. -/
theorem set (hs : Wf node s) (hm : s.connections[i]? = some m) {e : NodeConnection.Event}
    {c : NodeConnection} (h : m.connection.step node e = some c) :
    Wf node { s with connections := s.connections.set i { m with connection := c } } := by
  obtain ⟨ownChallenge, T, hcourse⟩ := hs.course i m hm
  have hlt : i < s.connections.length := (List.getElem?_eq_some_iff.mp hm).1
  have hself : (s.connections.set i { m with connection := c })[i]? =
      some { m with connection := c } := List.getElem?_set_self hlt
  have hother {j : ℕ} (hj : j ≠ i) :
      (s.connections.set i { m with connection := c })[j]? = s.connections[j]? :=
    List.getElem?_set_ne (Ne.symm hj)
  have hname {name : Str} (hrole : m.role = .originator name) : c.peerName = some name := by
    rw [hrole] at hcourse
    rw [NodeConnection.peerName_of_step hcourse.pendingRead_of_originator h,
      hs.peerName i m name hm hrole]
  have hkey {key : Str} (hkey : m.BelongsTo key) :
      Made.BelongsTo { m with connection := c } key := by
    obtain ⟨role, d⟩ := m
    cases role with
    | originator name => exact hkey
    | acceptor =>
      obtain ⟨hconnected, hpeer⟩ := hkey
      refine ⟨(hconnected.step h).1, ?_⟩
      rw [← hpeer]
      refine NodeConnection.peerName_of_step (fun k hpending => ?_) h
      rcases hconnected.pendingRead with hread | hread <;> rw [hread] at hpending <;>
        cases hpending
  refine ⟨fun j n hn => ?_, fun j n name hn hrole => ?_, fun call hmem j hstarted => ?_,
    fun key j hstored => ?_⟩
  · by_cases hj : j = i
    · subst hj
      obtain rfl := Option.some_inj.mp (hself.symm.trans hn)
      exact ⟨ownChallenge, _, hcourse.step h⟩
    · exact hs.course j n ((hother hj).symm.trans hn)
  · by_cases hj : j = i
    · subst hj
      obtain rfl := Option.some_inj.mp (hself.symm.trans hn)
      exact hname hrole
    · exact hs.peerName j n name ((hother hj).symm.trans hn) hrole
  · obtain ⟨n, name, host, hn, hrole, hsplit⟩ := hs.started call hmem j hstarted
    by_cases hj : j = i
    · subst hj
      obtain rfl := Option.some_inj.mp (hm.symm.trans hn)
      exact ⟨_, name, host, hself, hrole, hsplit⟩
    · exact ⟨n, name, host, (hother hj).trans hn, hrole, hsplit⟩
  · obtain ⟨n, hn, hbelongs⟩ := hs.stored key j hstored
    by_cases hj : j = i
    · subst hj
      obtain rfl := Option.some_inj.mp (hm.symm.trans hn)
      exact ⟨_, hself, hkey hbelongs⟩
    · exact ⟨n, (hother hj).trans hn, hbelongs⟩

theorem waitForHandshakeResult (hs : Wf node s) (k : ℕ) :
    Wf node (s.waitForHandshakeResult k) := by
  rw [NodeConnector.waitForHandshakeResult]
  split
  · next peer j hcall hdone =>
    have hmem := List.mem_of_getElem? hcall
    obtain ⟨m, name, host, hm, hrole, hsplit⟩ := hs.started _ hmem j rfl
    have hkey : m.BelongsTo peer := by
      rw [Made.BelongsTo, hrole]
      exact ⟨host, hsplit⟩
    have hinsert := hs.insert hm hkey
    have hsame : (s.insert peer j).connections = s.connections := by
      rw [NodeConnector.insert]
      split <;> rfl
    refine ⟨hinsert.course, hinsert.peerName, fun call hcall' j' hstarted => ?_, hinsert.stored⟩
    dsimp only
    rw [hsame]
    rcases List.mem_or_eq_of_mem_set hcall' with hold | rfl
    · exact hs.started call hold j' hstarted
    · obtain rfl := Option.some_inj.mp hstarted
      exact ⟨m, name, host, hm, hrole, hsplit⟩
  · next peer j hcall hdone =>
    have hmem := List.mem_of_getElem? hcall
    refine ⟨hs.course, hs.peerName, fun call hcall' j' hstarted => ?_, hs.stored⟩
    rcases List.mem_or_eq_of_mem_set hcall' with hold | rfl
    · exact hs.started call hold j' hstarted
    · exact hs.started _ hmem j' hstarted
  · exact hs

theorem addCall (hs : Wf node s) (peerNodeName : Str) (result : Option (Except Raised ℕ)) :
    Wf node (s.addCall ⟨peerNodeName, none, result⟩) := by
  refine ⟨hs.course, hs.peerName, fun call hmem j hstarted => ?_, hs.stored⟩
  rcases List.mem_append.mp hmem with hmem | hmem
  · exact hs.started call hmem j hstarted
  · rw [List.mem_singleton.mp hmem] at hstarted
    cases hstarted

theorem startConnection (hs : Wf node s) {peerNodeName peerName host : Str}
    (hsplit : splitNodeName peerNodeName = .ok (peerName, host)) (ownChallenge : UInt32) :
    Wf node (s.startConnection node peerNodeName peerName ownChallenge) := by
  refine hs.append ownChallenge _ (fun call hmem => ?_) s.accepting
  rcases List.mem_append.mp hmem with hmem | hmem
  · exact .inl hmem
  · rw [List.mem_singleton.mp hmem]
    exact .inr ⟨rfl, peerName, host, rfl, hsplit⟩

end Wf

/-- A request that succeeds has split the name of the peer. -/
theorem splitNodeName_of_request {peerNode peerName : Str} {requested : Except Raised Unit}
    (h : requestNodeConnection peerNode requested = .ok peerName) :
    ∃ host, splitNodeName peerNode = .ok (peerName, host) := by
  rw [requestNodeConnection] at h
  split at h
  · cases h
  · next name host hsplit =>
    split at h
    · cases h
    · cases h
      exact ⟨host, hsplit⟩

/-- What a call of `get_connection_to` does: it is over at once, or it starts a connection. -/
theorem getConnectionTo_cases (node : NodeAccess) (peerNodeName : Str) (ownChallenge : UInt32)
    (requested : Except Raised Unit) (s : NodeConnector) :
    (∃ result, s.getConnectionTo node peerNodeName ownChallenge requested =
      s.addCall ⟨peerNodeName, none, some result⟩) ∨
    s.nodeConnections peerNodeName = none ∧
      ∃ peerName, requestNodeConnection peerNodeName requested = .ok peerName ∧
        s.getConnectionTo node peerNodeName ownChallenge requested =
          (s.startConnection node peerNodeName peerName ownChallenge).waitForHandshakeResult
            s.calls.length := by
  rw [getConnectionTo]
  split
  · exact .inl ⟨_, rfl⟩
  · next hnone =>
    split
    · exact .inl ⟨_, rfl⟩
    · next peerName hrequest => exact .inr ⟨hnone, peerName, hrequest, rfl⟩

/-- What a completed operation does: the connection takes its step, its reports are handled, and
then what it has raised. -/
theorem completeIo_eq_some {e : NodeConnection.Event} (h : s.completeIo node i e = some s') :
    ∃ m c, s.connections[i]? = some m ∧ m.connection.step node e = some c ∧
      s' = (c.raised.drop m.connection.raised.length).foldl (fun s e => s.caught e)
        ((c.handshakeSuccess.drop m.connection.handshakeSuccess.length).foldl
          (fun s result => s.reported i m.role result)
          { s with connections := s.connections.set i { m with connection := c } }) := by
  rw [completeIo] at h
  split at h
  · cases h
  · next m hm =>
    split at h
    · cases h
    · next c hc => exact ⟨m, c, hm, hc, (Option.some_inj.mp h).symm⟩

/-- A report, by a connection that has just made it. -/
theorem Wf.reported (hs : Wf node s) (hm : s.connections[i]? = some m) {result : Bool}
    (hmem : result ∈ m.connection.handshakeSuccess) : Wf node (s.reported i m.role result) := by
  obtain ⟨ownChallenge, T, hcourse⟩ := hs.course i m hm
  obtain ⟨role, c⟩ := m
  cases role with
  | originator peer => exact ⟨hs.course, hs.peerName, hs.started, hs.stored⟩
  | acceptor =>
    rw [NodeConnector.reported, handshakeSuccessAsB]
    split
    · next hresult =>
      subst hresult
      split
      · next peer hpeer =>
        rw [hm] at hpeer
        have hinsert := hs.insert hm ⟨hcourse.connected_of_mem hmem, hpeer⟩
        exact ⟨hinsert.course, hinsert.peerName, hinsert.started, hinsert.stored⟩
      · exact hs
    · exact ⟨hs.course, hs.peerName, hs.started, hs.stored⟩

theorem Wf.completeIo (hs : Wf node s) {e : NodeConnection.Event}
    (h : s.completeIo node i e = some s') : Wf node s' := by
  obtain ⟨m, c, hm, hc, rfl⟩ := completeIo_eq_some h
  obtain ⟨ownChallenge, T, hcourse⟩ := hs.course i m hm
  have hset := hs.set hm hc
  refine Wf.caught ?_ _
  rcases hcourse.reports_cases hc with hsame | ⟨hnone, result, hone⟩
  · rw [hsame, List.drop_length]
    exact hset
  · rw [hnone, hone]
    have hself : (s.connections.set i { m with connection := c })[i]? =
        some { m with connection := c } :=
      List.getElem?_set_self (List.getElem?_eq_some_iff.mp hm).1
    exact hset.reported hself (show result ∈ c.handshakeSuccess by rw [hone]; simp)

/-- **What is true in every run** of a connector. -/
theorem Wf.step (hs : Wf node s) {e : NodeConnectorEvent} (h : s.step node e = some s') :
    Wf node s' := by
  cases e with
  | call peerNodeName ownChallenge requested =>
    obtain rfl := Option.some_inj.mp h
    rcases getConnectionTo_cases node peerNodeName ownChallenge requested s with
      ⟨result, heq⟩ | ⟨-, peerName, hrequest, heq⟩
    · rw [heq]
      exact hs.addCall peerNodeName _
    · rw [heq]
      obtain ⟨host, hsplit⟩ := splitNodeName_of_request hrequest
      exact (hs.startConnection hsplit ownChallenge).waitForHandshakeResult _
  | wake k =>
    obtain rfl := Option.some_inj.mp h
    exact hs.waitForHandshakeResult k
  | io i e => exact hs.completeIo h
  | accept ownChallenge =>
    rw [NodeConnector.step] at h
    split at h
    · obtain rfl := Option.some_inj.mp h
      exact hs.append ownChallenge _ (fun call hmem => .inl hmem) false
    · cases h
  | acceptError =>
    rw [NodeConnector.step] at h
    split at h
    · obtain rfl := Option.some_inj.mp h
      exact ⟨hs.course, hs.peerName, hs.started, hs.stored⟩
    · cases h

theorem wf_of_run {es : List NodeConnectorEvent} (h : run (step node) start es = some s) :
    Wf node s :=
  run_induction (fun _ _ _ hs ht => hs.step ht) wf_start h

end NodeConnector

end TinchPp
