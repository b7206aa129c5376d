import TinchPp.BrokenConnections
import TinchPp.CompleteClosing

/-!
# Links to a node that is gone

A link is said to break when there is an error in network communication. The recovery point of
`run_async_io` drops the connection that has failed, and with a remark about linked mailboxes leaves
it at that: neither the linker nor a mailbox hears of the error.

`NetworkedNode` is a node with its mailboxes, their links and its connections, each of which goes
through its own steps. What a call on a mailbox gets to hear about connections is up to the
environment, so that the states reached here are all those of the node, and more.

## Main results

* `NetworkedNode.breaksLinks_iff` — an I/O error breaks the links to a node exactly if there are none
-/

namespace TinchPp

open EventSystem

/-- `actual_node`, with its connections. -/
structure NetworkedNode where
  node : ActualNode
  connector : NodeConnector

inductive NetworkedNodeEvent
  | node (e : NodeEvent)
  | connector (e : NodeConnectorEvent)

namespace NetworkedNode

def start (access : NodeAccess) : NetworkedNode := ⟨.create access.name, .start⟩

/-- What is raised by a handler of the I/O thread is caught by `run_async_io`, and that is a matter
of the connector alone (`NodeConnector.caught`). -/
def step (access : NodeAccess) (s : NetworkedNode) : NetworkedNodeEvent → Option NetworkedNode
  | .node e => (s.node.step e).map fun n => { s with node := n }
  | .connector e => (s.connector.step access e).map fun c => { s with connector := c }

/-- The event is an I/O error on a connection to the peer. -/
def LosesConnectionTo (peer : Str) (s : NetworkedNode) : NetworkedNodeEvent → Prop
  | .connector (.io i e) => e.IsIoError ∧ ∃ m, s.connector.connections[i]? = some m ∧
    m.BelongsTo peer
  | _ => False

/-- No link of the node has an end on the peer. -/
def NoLinkTo (peer : Str) (n : ActualNode) : Prop :=
  ∀ i ∈ n.mailboxLinker.establishedLinks, i.1.nodeName ≠ peer ∧ i.2.nodeName ≠ peer

/-- The links to the peer are broken: each open mailbox has been given one broken link for each pid
of the peer that it was linked to, and the links are gone. -/
structure BreaksLinks (peer : Str) (n n' : ActualNode) : Prop where
  told : ∀ h o, n.owned h = some o → ∃ given : List (Str × EPid),
    n'.brokenLinksOf h = n.brokenLinksOf h ++ given ∧
      ∀ q, q.nodeName = peer → n.mailboxLinker.Linked o.ownPid q → (given.map Prod.snd).count q = 1
  unlinked : NoLinkTo peer n'

variable {access : NodeAccess} {s s' : NetworkedNode} {peer : Str}

/-- **An I/O error leaves the mailboxes and their links as they are.** -/
theorem node_of_losesConnectionTo {e : NetworkedNodeEvent} (he : s.LosesConnectionTo peer e)
    (h : s.step access e = some s') : s'.node = s.node := by
  cases e with
  | node e => exact he.elim
  | connector e =>
    obtain ⟨c, -, rfl⟩ := Option.map_eq_some_iff.mp h
    rfl

/-- Where nothing is done, links are broken if there are none. -/
theorem breaksLinks_self_iff {n : ActualNode} : BreaksLinks peer n n ↔ NoLinkTo peer n := by
  refine ⟨BreaksLinks.unlinked, fun hnone => ⟨fun h o _ => ⟨[], ?_, fun q hq hlinked => ?_⟩, hnone⟩⟩
  · rw [List.append_nil]
  · rcases hlinked with hlinked | hlinked
    · exact absurd hq (hnone _ hlinked).2
    · exact absurd hq (hnone _ hlinked).1

/-- **An I/O error on the connection to a peer breaks the links to it exactly if there are none**, in
every state of the node, whether it can be reached or not. -/
theorem breaksLinks_iff {e : NetworkedNodeEvent} (he : s.LosesConnectionTo peer e)
    (h : s.step access e = some s') : BreaksLinks peer s.node s'.node ↔ NoLinkTo peer s.node := by
  rw [node_of_losesConnectionTo he h]
  exact breaksLinks_self_iff

/-- The events of a run on the connections alone. -/
theorem run_connector {es : List NodeConnectorEvent} : ∀ {s : NetworkedNode} {c : NodeConnector},
    run (NodeConnector.step access) s.connector es = some c →
      run (step access) s (es.map .connector) = some ⟨s.node, c⟩ := by
  induction es with
  | nil =>
    intro s c h
    obtain rfl : s.connector = c := by simpa using h
    rfl
  | cons e es ih =>
    intro s c h
    obtain ⟨c', hc', hc⟩ := Option.bind_eq_some_iff.mp h
    rw [List.map_cons, run_cons, step, hc', Option.map_some, Option.bind_some]
    exact ih hc

/-- The events of a run on the mailboxes alone. -/
theorem run_node {es : List NodeEvent} : ∀ {s : NetworkedNode} {n : ActualNode},
    run ActualNode.step s.node es = some n →
      run (step access) s (es.map .node) = some ⟨n, s.connector⟩ := by
  induction es with
  | nil =>
    intro s n h
    obtain rfl : s.node = n := by simpa using h
    rfl
  | cons e es ih =>
    intro s n h
    obtain ⟨n', hn', hn⟩ := Option.bind_eq_some_iff.mp h
    rw [List.map_cons, run_cons, step, hn', Option.map_some, Option.bind_some]
    exact ih hn

/-- What a node is left with that `b@h` has connected to, when the connection fails. -/
theorem exists_losesConnectionTo_b : ∃ c c', run (NodeConnector.step nodeA) .start
      NodeConnector.connectedFromB = some c ∧
    (∀ n, LosesConnectionTo (bytesOf "b@h") ⟨n, c⟩ (.connector (.io 0 (.readError [])))) ∧
    ∀ n, step nodeA ⟨n, c⟩ (.connector (.io 0 (.readError []))) = some ⟨n, c'⟩ := by
  obtain ⟨c, c', hrun, hstored, hstep⟩ : ∃ c c', run (NodeConnector.step nodeA) .start
        NodeConnector.connectedFromB = some c ∧ c.nodeConnections (bytesOf "b@h") = some 0 ∧
      c.step nodeA (.io 0 (.readError [])) = some c' := ⟨_, _, rfl, rfl, rfl⟩
  refine ⟨c, c', hrun, fun n => ⟨⟨[], .inl rfl⟩, ?_⟩, fun n => ?_⟩
  · exact (NodeConnector.wf_of_run hrun).stored _ _ hstored
  · rw [step, hstep, Option.map_some]

/-- A node with two mailboxes, which are linked to each other, and one of them to a process of
`c@h`. There is nothing to break when the connection to `b@h` fails. -/
theorem breaksLinks_other_links : ∃ s s', run (step nodeA) (start nodeA)
      (NodeConnector.connectedFromB.map .connector ++ List.map .node [.createMailbox,
        .createMailbox, .link 0 ⟨bytesOf "a@h", 2, 0, 0⟩ ActualNode.allReachable,
        .link 1 ⟨bytesOf "c@h", 1, 0, 0⟩ ActualNode.allReachable]) = some s ∧
    s.node.mailboxLinker.establishedLinks.length = 2 ∧
    s.step nodeA (.connector (.io 0 (.readError []))) = some s' ∧
    BreaksLinks (bytesOf "b@h") s.node s'.node := by
  obtain ⟨c, c', hrun, hloses, hstep⟩ := exists_losesConnectionTo_b
  obtain ⟨n, hn, hlinks⟩ : ∃ n, run ActualNode.step (.create nodeA.name)
        [.createMailbox, .createMailbox,
          .link 0 ⟨bytesOf "a@h", 2, 0, 0⟩ ActualNode.allReachable,
          .link 1 ⟨bytesOf "c@h", 1, 0, 0⟩ ActualNode.allReachable] = some n ∧
      n.mailboxLinker.establishedLinks =
        [(⟨bytesOf "a@h", 1, 0, 0⟩, ⟨bytesOf "a@h", 2, 0, 0⟩),
          (⟨bytesOf "a@h", 2, 0, 0⟩, ⟨bytesOf "c@h", 1, 0, 0⟩)] := ⟨_, rfl, rfl⟩
  refine ⟨⟨n, c⟩, ⟨n, c'⟩, ?_, congrArg List.length hlinks, hstep n,
    (breaksLinks_iff (hloses n) (hstep n)).mpr ?_⟩
  · rw [run_append, run_connector hrun, Option.bind_some]
    exact run_node hn
  · intro i hi
    rw [hlinks, List.mem_cons, List.mem_singleton] at hi
    rcases hi with rfl | rfl <;> decide

/-- A mailbox is linked to a process of `b@h`, which has connected, and the connection fails: the
link stays, and the mailbox is not told. -/
theorem not_breaksLinks_linked : ∃ s s', run (step nodeA) (start nodeA)
      (NodeConnector.connectedFromB.map .connector ++ List.map .node [.createMailbox,
        .link 0 ⟨bytesOf "b@h", 1, 0, 0⟩ ActualNode.allReachable]) = some s ∧
    s.LosesConnectionTo (bytesOf "b@h") (.connector (.io 0 (.readError []))) ∧
    s.step nodeA (.connector (.io 0 (.readError []))) = some s' ∧
    s'.node.brokenLinksOf 0 = [] ∧ ¬ BreaksLinks (bytesOf "b@h") s.node s'.node := by
  obtain ⟨c, c', hrun, hloses, hstep⟩ := exists_losesConnectionTo_b
  obtain ⟨n, hn, hquiet, hlink⟩ : ∃ n, run ActualNode.step (.create nodeA.name)
        [.createMailbox, .link 0 ⟨bytesOf "b@h", 1, 0, 0⟩ ActualNode.allReachable] = some n ∧
      n.brokenLinksOf 0 = [] ∧
      (⟨bytesOf "a@h", 1, 0, 0⟩, ⟨bytesOf "b@h", 1, 0, 0⟩) ∈ n.mailboxLinker.establishedLinks :=
    ⟨_, rfl, rfl, List.mem_singleton_self _⟩
  refine ⟨⟨n, c⟩, ⟨n, c'⟩, ?_, hloses n, hstep n, hquiet, fun h => ?_⟩
  · rw [run_append, run_connector hrun, Option.bind_some]
    exact run_node hn
  · exact (h.unlinked _ hlink).2 rfl

end NetworkedNode

end TinchPp
