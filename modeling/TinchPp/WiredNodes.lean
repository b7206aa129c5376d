import TinchPp.ConnectedEnds
import TinchPp.FreshConnections
import TinchPp.Lib.Simulation
import TinchPp.NodeMessages

/-!
# Two nodes, down to the bytes

Two nodes, each with its mailboxes and with one end of the connection between them. Clients make
their calls, and what a node asks for in the course of a call becomes a frame in the queue of its
connection. The network takes frames out of the queue and hands over bytes, as many at a time as it
likes. What a read has made complete, a frame at most, is dispatched, and acts on the node of the
reader.

So a message may be in a queue, on its way, in a lexer in part, or in a lexer as a whole, and there
is a stream of bytes in each direction that has them all in their order (`Carries`). If everything
that is asked for fits the fields of a frame, nothing of that can be seen: the two nodes do what they
would do if messages were messages (`simulates`), where a message is in flight until its frame is
handled. A platform on which characters are signed dispatches none of them, and that is the same on
both levels.

A connection is taken when its handshake is over and nothing has been asked for yet (`Start`).

## Main results

* `WiredNodes.Carries.call`, `WiredNodes.Carries.io` — what happens to the streams
* `WiredNodes.simulates` — a step in bytes is a step in messages, or none
* `WiredNodes.Start.exists_run_messages` — so are runs
* `WiredNodes.Start.handledInOrder` — what is asked for is handled in its order, and once
* `WiredNodes.Start.arrives` — what is sent to a mailbox is in it or on its way
-/

namespace TinchPp

open EventSystem NodeConnection ActualNode

/-! ### The system -/

/-- Two nodes, and the two ends of the connection between them. Each node has on record all that it
has ever asked for. -/
structure WiredNodes where
  nodes : TwoNodes
  endpoint : Bool → Endpoint

/-- A client makes a call, or the network does something at one end. -/
inductive WiredEvent
  | call (e : MessageEvent)
  | io (i : Bool) (e : IoEvent)
deriving DecidableEq, Repr

/-- A call is seen, and what the network does is not. -/
def WiredEvent.seen : WiredEvent → Option MessageEvent
  | .call e => some e
  | .io _ _ => none

namespace WiredNodes

/-- After a call. What the node has asked for in the course of it is passed to the connection. -/
def afterCall (i : Bool) (nodes : TwoNodes) (w : WiredNodes) : WiredNodes where
  nodes := nodes
  endpoint := Function.update w.endpoint i
    (((nodes.node i).requested.drop (w.nodes.node i).requested.length).foldl
      (fun p m => p.request m.2) (w.endpoint i))

/-- After an operation at one end. What the connection has handled in the course of it is handled by
the node. -/
def afterIo (signedChar : Bool) (i : Bool) (p : Endpoint) (w : WiredNodes) : Option WiredNodes :=
  ((p.connection.handled.drop (w.endpoint i).connection.handled.length).foldlM
      (onMsgReceived signedChar) (w.nodes.node i)).map fun n =>
    { nodes := w.nodes.setNode i n, endpoint := Function.update w.endpoint i p }

def step (signedChar : Bool) (access : Bool → NodeAccess) (w : WiredNodes) :
    WiredEvent → Option WiredNodes
  | .call e =>
    match e.caller with
    | some i => (w.nodes.messageStep signedChar e).map fun nodes => w.afterCall i nodes
    | none => none
  | .io i e =>
    ((w.endpoint i).step (access i) (w.endpoint (!i)).sent e.toEndpointEvent).bind fun p =>
      w.afterIo signedChar i p

/-- The messages that a node has asked for. -/
def asked (w : WiredNodes) (i : Bool) : List ControlMsg :=
  (w.nodes.node i).requested.map Prod.snd

def frames (w : WiredNodes) (i : Bool) : List MsgSeq := (w.asked i).map ControlMsg.frame

def handled (w : WiredNodes) (i : Bool) : List MsgSeq := (w.endpoint i).connection.handled

/-- All that has been asked for fits its fields. -/
def Fits (w : WiredNodes) : Prop := ∀ i, ∀ m ∈ w.asked i, m.InWireRange ∧ m.FitsFrame

/-- The nodes as they would be if messages were messages: what has been handled is not in flight any
more. -/
def messages (w : WiredNodes) : TwoNodes :=
  w.nodes.withRequested fun i => (w.nodes.node i).requested.drop (w.handled (!i)).length

/-! ### The invariant -/

/-- The stream in each direction, after what has been sent before: the frames of a node, as far as
they have got. -/
structure Carries (before : Bool → MsgSeq) (w : WiredNodes) : Prop where
  inUse : ∀ i, (w.endpoint i).InUse
  sent : ∀ i, (w.endpoint i).sent ++ (w.endpoint i).unsent = before i ++ (w.frames i).flatten
  received : ∀ i, (w.endpoint i).received <+: (w.endpoint (!i)).sent
  reads : ∀ i, ∃ got, (w.endpoint i).received = before (!i) ++ got ∧ (w.endpoint i).Reads got

variable {signedChar : Bool} {access : Bool → NodeAccess} {before : Bool → MsgSeq}
  {w w' : WiredNodes} {i : Bool}

theorem Fits.isFrame (hw : w.Fits) (i : Bool) : ∀ f ∈ w.frames i, connectedFraming.IsFrame f := by
  intro f hf
  obtain ⟨m, hm, rfl⟩ := List.mem_map.mp hf
  exact ControlMsg.isFrame_frame (hw i m hm).2

theorem Fits.fieldsFit (hw : w.Fits) (i : Bool) : FieldsFit (w.frames i).flatten :=
  ControlMsg.fieldsFit_frames fun m hm => (hw i m hm).2

/-- What is still in flight is part of it. -/
theorem Fits.inFlightFits (hw : w.Fits) : w.messages.InFlightFits :=
  fun i m hm => (hw i m.2 (List.mem_map_of_mem (List.mem_of_mem_drop hm))).1

/-- What an end has got, and what it has not got yet, are the frames of the other node. -/
theorem append_eq_flatten {p q : Endpoint} {got rest : MsgSeq} {fs : List MsgSeq} {b : MsgSeq}
    (hsent : q.sent ++ q.unsent = b ++ fs.flatten) (hreceived : p.received ++ rest = q.sent)
    (hgot : p.received = b ++ got) : got ++ (rest ++ q.unsent) = fs.flatten := by
  rw [← hreceived, hgot, List.append_assoc, List.append_assoc] at hsent
  exact List.append_cancel_left hsent

/-- **What an end has got** are the first frames of the other node. -/
theorem exists_frames {p q : Endpoint} {got : MsgSeq} {fs : List MsgSeq} {b : MsgSeq}
    (hframes : ∀ f ∈ fs, connectedFraming.IsFrame f)
    (hsent : q.sent ++ q.unsent = b ++ fs.flatten) (hpeer : p.received <+: q.sent)
    (hgot : p.received = b ++ got) (hreads : p.Reads got) : ∃ gs,
      fs = p.connection.handled ++ p.connection.connectedMsgs.msgs ++ gs ∧
        p.connection.connectedMsgs.incomplete ++ (p.incoming q.sent ++ q.unsent) = gs.flatten := by
  obtain ⟨rest, hrest⟩ := hpeer
  have hincoming : p.incoming q.sent = rest := by
    rw [Endpoint.incoming, ← hrest, List.drop_left]
  obtain ⟨gs, hfs, hgs⟩ := Framing.exists_split_of_append hframes
    (append_eq_flatten hsent hrest hgot)
  rw [Endpoint.Reads] at hreads
  rw [hreads] at hfs hgs
  exact ⟨gs, hfs, by rw [hincoming]; exact hgs⟩

theorem forall_node {P : Bool → Prop} (i : Bool) (h : P i) (h' : P (!i)) (j : Bool) : P j := by
  cases i <;> cases j <;> assumption

theorem asked_setNode {n : ActualNode} (hn : n.requested = (w.nodes.node i).requested)
    (hnodes : w'.nodes = w.nodes.setNode i n) (j : Bool) : w'.asked j = w.asked j := by
  have hboth : (w'.nodes.node j).requested = (w.nodes.node j).requested := by
    rw [hnodes]
    refine forall_node (P := fun j => ((w.nodes.setNode i n).node j).requested =
      (w.nodes.node j).requested) i ?_ ?_ j
    · rw [TwoNodes.setNode_node_self, hn]
    · rw [TwoNodes.setNode_node_not]
  rw [asked, asked, hboth]

/-- What happens to the nodes while the network works: nothing, or one message is handled. -/
inductive Handles (signedChar : Bool) (i : Bool) (w w' : WiredNodes) : Prop
  | nothing (hhandled : w'.handled i = w.handled i) (hnodes : w'.nodes = w.nodes)
  | message {m : ControlMsg} {rest : List ControlMsg}
      (hnext : (w.asked (!i)).drop (w.handled i).length = m :: rest)
      (hhandled : w'.handled i = w.handled i ++ [m.frame])
      (hnodes : w'.nodes = w.nodes.setNode i ((w.nodes.node i).onFrame signedChar m))

/-- An end has gone on. It has handled these frames, the next one at most, and nothing has been lost. -/
structure GoesOn (before : Bool → MsgSeq) (w : WiredNodes) (i : Bool) (p : Endpoint)
    (new : List MsgSeq) : Prop where
  inUse : p.InUse
  unsent : p.sent ++ p.unsent = (w.endpoint i).sent ++ (w.endpoint i).unsent
  sent : (w.endpoint i).sent <+: p.sent
  received : p.received <+: (w.endpoint (!i)).sent
  reads : ∃ got, p.received = before (!i) ++ got ∧ p.Reads got
  handled : p.connection.handled = w.handled i ++ new
  length_le : (w.endpoint i).received.length + new.length ≤ p.received.length
  next : new = [] ∨ ∃ m rest, (w.asked (!i)).drop (w.handled i).length = m :: rest ∧ new = [m.frame]

/-- A message is no tick, and so it is not answered. -/
theorem filter_isTick_eq_nil {new : List MsgSeq} {ms : List ControlMsg} {k : ℕ}
    (h : new = [] ∨ ∃ m rest, ms.drop k = m :: rest ∧ new = [m.frame]) :
    new.filter isTick = [] := by
  rcases h with rfl | ⟨m, rest, -, rfl⟩
  · rfl
  · have hm : isTick m.frame = false := decide_eq_false m.frame_ne_tick
    rw [List.filter_cons_of_neg (by simp [hm]), List.filter_nil]

/-- **What the network does** at one end. -/
theorem Carries.goesOn (hw : w.Carries before) (hfits : w.Fits) {e : IoEvent} {p : Endpoint}
    (hp : (w.endpoint i).step (access i) (w.endpoint (!i)).sent e.toEndpointEvent = some p) :
    ∃ new, GoesOn before w i p new := by
  obtain ⟨hinUse, hsent, hpeer, bytes, new, hreceived, hhandled, hone, hlen, hunsent, hreads⟩ :=
    (hw.inUse i).work (hw.received i) hp
  obtain ⟨got, hgot, hreadsGot⟩ := hw.reads i
  have hgot' : p.received = before (!i) ++ (got ++ bytes) := by
    rw [hreceived, hgot, List.append_assoc]
  have hread : p.Reads (got ++ bytes) := by
    refine hreads got hreadsGot ?_
    obtain ⟨rest, hrest⟩ := hpeer
    have hall := append_eq_flatten (hw.sent (!i)) hrest hgot'
    have hfit := hfits.fieldsFit (!i)
    rw [← hall] at hfit
    exact hfit.of_append
  obtain ⟨gs, hfs, -⟩ := exists_frames (hfits.isFrame (!i)) (hw.sent (!i)) hpeer hgot' hread
  have hnext : new = [] ∨
      ∃ m rest, (w.asked (!i)).drop (w.handled i).length = m :: rest ∧ new = [m.frame] := by
    rcases new with _ | ⟨f, _ | ⟨f', new⟩⟩
    · exact .inl rfl
    · have hdrop : (w.frames (!i)).drop (w.handled i).length =
          f :: (p.connection.connectedMsgs.msgs ++ gs) := by
        rw [hfs, hhandled, List.append_assoc, List.append_assoc, WiredNodes.handled, List.drop_left]
        rfl
      rw [frames, ← List.map_drop] at hdrop
      obtain ⟨m, rest, hasked, rfl, -⟩ := List.map_eq_cons_iff.mp hdrop
      exact .inr ⟨m, rest, hasked, rfl⟩
    · simp at hone
  rw [filter_isTick_eq_nil hnext, List.flatten_nil, List.append_nil] at hunsent
  refine ⟨new, hinUse, hunsent, hsent, hpeer, ⟨_, hgot', hread⟩, hhandled, ?_, hnext⟩
  rw [hreceived, List.length_append]
  omega

/-- What the node makes of the frames that its end has handled. -/
theorem GoesOn.afterIo_eq {p : Endpoint} {new : List MsgSeq} (hp : GoesOn before w i p new)
    (signedChar : Bool) : w.afterIo signedChar i p =
      (new.foldlM (onMsgReceived signedChar) (w.nodes.node i)).map fun n =>
        { nodes := w.nodes.setNode i n, endpoint := Function.update w.endpoint i p } := by
  rw [afterIo, hp.handled, WiredNodes.handled, List.drop_left]

/-- An end has gone on, and nothing has been asked for. -/
theorem Carries.update (hw : w.Carries before) {nodes : TwoNodes} {p : Endpoint}
    {new : List MsgSeq} (hp : GoesOn before w i p new)
    (hasked : ∀ j, asked ⟨nodes, Function.update w.endpoint i p⟩ j = w.asked j) :
    Carries before ⟨nodes, Function.update w.endpoint i p⟩ := by
  have hself : Function.update w.endpoint i p i = p := Function.update_self ..
  have hother : Function.update w.endpoint i p (!i) = w.endpoint (!i) :=
    Function.update_of_ne (Bool.not_ne_self i) ..
  refine ⟨forall_node i ?_ ?_, forall_node i ?_ ?_, forall_node i ?_ ?_, forall_node i ?_ ?_⟩ <;>
    simp only [frames, hasked, Bool.not_not, hself, hother]
  · exact hp.inUse
  · exact hw.inUse (!i)
  · exact hp.unsent.trans (hw.sent i)
  · exact hw.sent (!i)
  · exact hp.received
  · have hreceived := hw.received (!i)
    rw [Bool.not_not] at hreceived
    exact hreceived.trans hp.sent
  · exact hp.reads
  · have hreads' := hw.reads (!i)
    rw [Bool.not_not] at hreads'
    exact hreads'

/-- **The network works**, and a node handles a message, or nothing happens to the nodes. -/
theorem Carries.io (hw : w.Carries before) (hfits : w.Fits) {e : IoEvent}
    (h : w.step signedChar access (.io i e) = some w') : w'.Carries before ∧
      Handles signedChar i w w' ∧ w'.handled (!i) = w.handled (!i) ∧ ∀ j, w'.asked j = w.asked j := by
  obtain ⟨p, hp, hafter⟩ := Option.bind_eq_some_iff.mp h
  obtain ⟨new, hgoes⟩ := hw.goesOn hfits hp
  rw [hgoes.afterIo_eq] at hafter
  obtain ⟨n, hn, rfl⟩ := Option.map_eq_some_iff.mp hafter
  have hasked (j : Bool) :
      asked ⟨w.nodes.setNode i n, Function.update w.endpoint i p⟩ j = w.asked j :=
    asked_setNode (requested_foldlM_onMsgReceived hn) rfl j
  have hother : handled ⟨w.nodes.setNode i n, Function.update w.endpoint i p⟩ (!i) =
      w.handled (!i) :=
    congrArg (fun q : Endpoint => q.connection.handled) (Function.update_of_ne (Bool.not_ne_self i) ..)
  have hself : handled ⟨w.nodes.setNode i n, Function.update w.endpoint i p⟩ i =
      w.handled i ++ new :=
    (congrArg (fun q : Endpoint => q.connection.handled) (Function.update_self ..)).trans
      hgoes.handled
  refine ⟨hw.update hgoes hasked, ?_, hother, hasked⟩
  rcases hgoes.next with rfl | ⟨m, rest, hnext, rfl⟩
  · obtain rfl : w.nodes.node i = n := Option.some_inj.mp hn
    have hsame : w.nodes.setNode i (w.nodes.node i) = w.nodes := by
      rw [TwoNodes.setNode, Function.update_eq_self]
    exact .nothing (by rw [hself, List.append_nil]) hsame
  · have hmem : m ∈ w.asked (!i) := List.drop_subset _ _ (by rw [hnext]; exact List.mem_cons_self)
    rw [List.foldlM_cons, onMsgReceived_frame signedChar (hfits (!i) m hmem).1] at hn
    obtain rfl := Option.some_inj.mp hn
    exact .message hnext hself rfl

/-- Requests go to the back of the queue, one after the other. -/
theorem inUse_foldl_request (new : List (Str × ControlMsg)) {p : Endpoint} (hp : p.InUse) :
    (new.foldl (fun p m => p.request m.2) p).InUse ∧
      (new.foldl (fun p m => p.request m.2) p).connection.handled = p.connection.handled ∧
      (new.foldl (fun p m => p.request m.2) p).connection.connectedMsgs =
        p.connection.connectedMsgs ∧
      (new.foldl (fun p m => p.request m.2) p).unsent =
        p.unsent ++ ((new.map Prod.snd).map ControlMsg.frame).flatten ∧
      (new.foldl (fun p m => p.request m.2) p).sent = p.sent ∧
      (new.foldl (fun p m => p.request m.2) p).received = p.received := by
  induction new generalizing p with
  | nil => exact ⟨hp, rfl, rfl, (List.append_nil _).symm, rfl, rfl⟩
  | cons m new ih =>
    obtain ⟨hp', hhandled, hmsgs, hunsent⟩ := hp.request m.2
    obtain ⟨hp'', hhandled', hmsgs', hunsent', hsent', hreceived'⟩ := ih hp'
    refine ⟨hp'', hhandled'.trans hhandled, hmsgs'.trans hmsgs, ?_, hsent', hreceived'⟩
    rw [List.foldl_cons, hunsent', hunsent, List.append_assoc]
    rfl

/-- No more has been handled than has been asked for. -/
theorem Carries.handled_le (hw : w.Carries before) (hfits : w.Fits) (i : Bool) :
    (w.handled i).length ≤ (w.nodes.node (!i)).requested.length := by
  obtain ⟨got, hgot, hreads⟩ := hw.reads i
  obtain ⟨gs, hfs, -⟩ := exists_frames (hfits.isFrame (!i)) (hw.sent (!i)) (hw.received i) hgot
    hreads
  have hlen := congrArg List.length hfs
  rw [frames, asked, List.length_map, List.length_map, List.length_append, List.length_append] at hlen
  rw [handled]
  omega

/-- **A client makes a call**, and the messages that its node asks for are in flight. -/
theorem Carries.call (hw : w.Carries before) (hfits : w.Fits) {e : MessageEvent}
    (h : w.step signedChar access (.call e) = some w') : w'.Carries before ∧
      w.messages.messageStep signedChar e = some w'.messages ∧ e.caller ≠ none := by
  rw [step] at h
  split at h
  · next i he =>
    obtain ⟨nodes, hnodes, rfl⟩ := Option.map_eq_some_iff.mp h
    obtain ⟨new, hnew, hother, hall⟩ := TwoNodes.messageStep_call he hnodes
    have hdrop : (nodes.node i).requested.drop (w.nodes.node i).requested.length = new := by
      rw [hnew, List.drop_left]
    obtain ⟨hp, hhandled, hmsgs, hunsent, hsent, hreceived⟩ :=
      inUse_foldl_request new (hw.inUse i)
    have hself : (w.afterCall i nodes).endpoint i =
        new.foldl (fun p m => p.request m.2) (w.endpoint i) := by
      rw [afterCall, hdrop]
      exact Function.update_self ..
    have hrest : (w.afterCall i nodes).endpoint (!i) = w.endpoint (!i) :=
      Function.update_of_ne (Bool.not_ne_self i) ..
    have hasked : (w.afterCall i nodes).asked i = w.asked i ++ new.map Prod.snd := by
      rw [asked, asked, ← List.map_append, ← hnew]
      rfl
    have hasked' : (w.afterCall i nodes).asked (!i) = w.asked (!i) :=
      congrArg (fun n : ActualNode => n.requested.map Prod.snd) hother
    refine ⟨?_, ?_, by simp [he]⟩
    · refine ⟨forall_node i ?_ ?_, forall_node i ?_ ?_, forall_node i ?_ ?_, forall_node i ?_ ?_⟩ <;>
        simp only [frames, hasked, hasked', Bool.not_not, hself, hrest]
      · exact hp
      · exact hw.inUse (!i)
      · rw [hsent, hunsent, ← List.append_assoc, hw.sent i, List.append_assoc, List.map_append,
          List.flatten_append]
        rfl
      · exact hw.sent (!i)
      · rw [hreceived]
        exact hw.received i
      · have hreceived' := hw.received (!i)
        rw [Bool.not_not] at hreceived'
        rw [hsent]
        exact hreceived'
      · obtain ⟨got, hgot, hreads⟩ := hw.reads i
        refine ⟨got, hreceived.trans hgot, ?_⟩
        rw [Endpoint.Reads, hhandled, hmsgs]
        exact hreads
      · have hreads' := hw.reads (!i)
        rw [Bool.not_not] at hreads'
        exact hreads'
    · have hsame : ∀ j, (w.afterCall i nodes).handled j = w.handled j := by
        refine forall_node i ?_ ?_
        · rw [handled, hself]
          exact hhandled
        · rw [handled, hrest]
          rfl
      rw [messages, hall, messages]
      congr 2
      funext j
      rw [hsame]
      by_cases hj : j = i
      · subst hj
        have hle := hw.handled_le hfits (!j)
        rw [Bool.not_not] at hle
        rw [Function.update_self, ← List.drop_append_of_le_length hle, ← hnew]
        rfl
      · obtain rfl : j = !i := Bool.eq_not.mpr hj
        rw [Function.update_of_ne hj]
        exact congrArg (fun n : ActualNode => n.requested.drop _) hother.symm
  · cases h

/-- What is handled is a message that is delivered. -/
theorem Handles.messageStep (h : Handles signedChar i w w')
    (hother : w'.handled (!i) = w.handled (!i)) : w'.messages = w.messages ∨
      w.messages.messageStep signedChar (.links (.deliver (!i))) = some w'.messages := by
  cases h with
  | nothing hhandled hnodes =>
    have hsame : ∀ j, w'.handled j = w.handled j := forall_node i hhandled hother
    refine .inl ?_
    simp only [messages, hnodes, hsame]
  | @message m rest hnext hhandled hnodes =>
    refine .inr ?_
    rw [asked, ← List.map_drop] at hnext
    obtain ⟨⟨to_, m'⟩, rest', hrequested, rfl, -⟩ := List.map_eq_cons_iff.mp hnext
    have hfront : (w.messages.node (!i)).requested = (to_, m') :: rest' := by
      rw [← hrequested, messages, TwoNodes.node_withRequested, requested_withRequested,
        Bool.not_not]
    rw [TwoNodes.messageStep, TwoNodes.step, hfront, Bool.not_not]
    have hnode : ∀ j, ((w.messages.setNode (!i) { w.messages.node (!i) with
        requested := rest' }).setNode i ((w.messages.node i).onFrame signedChar m')).node j =
          w'.messages.node j := by
      refine forall_node i ?_ ?_
      · rw [TwoNodes.setNode_node_self, messages, TwoNodes.node_withRequested,
          onFrame_withRequested, messages, TwoNodes.node_withRequested, hnodes,
          TwoNodes.setNode_node_self, requested_onFrame, hother]
      · rw [TwoNodes.setNode_node_not, TwoNodes.setNode_node_self, messages, messages,
          TwoNodes.node_withRequested, TwoNodes.node_withRequested, hnodes,
          TwoNodes.setNode_node_not, Bool.not_not, hhandled, List.length_append,
          List.length_singleton, ← List.drop_drop, hrequested]
        rfl
    have hclosed : w'.messages.closed = w.messages.closed := by
      rw [messages, messages, hnodes]
      rfl
    refine congrArg some ?_
    rw [TwoNodes.mk.injEq]
    exact ⟨funext hnode, hclosed.symm⟩

/-! ### Runs -/

/-- The history of what a node has asked for only gets longer. -/
theorem asked_isPrefix_of_step {e : WiredEvent} (h : w.step signedChar access e = some w')
    (j : Bool) : w.asked j <+: w'.asked j := by
  cases e with
  | call e =>
    rw [step] at h
    split at h
    · next i he =>
      obtain ⟨nodes, hnodes, rfl⟩ := Option.map_eq_some_iff.mp h
      obtain ⟨new, hnew, hother, -⟩ := TwoNodes.messageStep_call he hnodes
      refine forall_node (P := fun j => w.asked j <+: (w.afterCall i nodes).asked j) i ?_ ?_ j
      · exact ⟨new.map Prod.snd, by rw [asked, ← List.map_append, ← hnew]; rfl⟩
      · exact ⟨[], by
          rw [List.append_nil]
          exact congrArg (fun n : ActualNode => n.requested.map Prod.snd) hother.symm⟩
    · cases h
  | io i e =>
    obtain ⟨p, -, hafter⟩ := Option.bind_eq_some_iff.mp h
    obtain ⟨n, hn, rfl⟩ := Option.map_eq_some_iff.mp hafter
    have hsame : asked ⟨w.nodes.setNode i n, Function.update w.endpoint i p⟩ j = w.asked j :=
      asked_setNode (requested_foldlM_onMsgReceived hn) rfl j
    rw [hsame]

theorem Fits.of_step {e : WiredEvent} (h : w.step signedChar access e = some w')
    (hw' : w'.Fits) : w.Fits :=
  fun i m hm => hw' i m ((asked_isPrefix_of_step h i).subset hm)

/-- **The bytes stand for the messages.** -/
theorem simulates (signedChar : Bool) (access : Bool → NodeAccess) (before : Bool → MsgSeq) :
    Simulates (step signedChar access) (TwoNodes.messageStep signedChar) WiredEvent.seen
      MessageEvent.seen (fun w s => w.Carries before ∧ s = w.messages) Fits
      (fun s _ => s.InFlightFits) where
  ends_before _ _ _ h hfits := Fits.of_step h hfits
  matched w e w' s hw hfits h := by
    obtain ⟨hcarries, rfl⟩ := hw
    have hfits' : w.Fits := Fits.of_step h hfits
    have hone (e : MessageEvent) : EveryStep (TwoNodes.messageStep signedChar)
        (fun s _ => s.InFlightFits) w.messages [e] :=
      everyStep_cons.mpr ⟨hfits'.inFlightFits, fun _ _ => everyStep_nil⟩
    cases e with
    | call e =>
      obtain ⟨hcarries', hstep, hcaller⟩ := hcarries.call hfits' h
      obtain ⟨i, hi⟩ := Option.ne_none_iff_exists'.mp hcaller
      refine ⟨[e], _, ?_, hone e, ⟨hcarries', rfl⟩, ?_⟩
      · rw [run_cons, hstep]
        rfl
      · simp [MessageEvent.seen, WiredEvent.seen, hi]
    | io i e =>
      obtain ⟨hcarries', hhandles, hother, -⟩ := hcarries.io hfits' h
      rcases hhandles.messageStep hother with hsame | hdeliver
      · exact ⟨[], _, rfl, everyStep_nil, ⟨hcarries', hsame.symm⟩, rfl⟩
      · refine ⟨[.links (.deliver (!i))], _, ?_, hone _, ⟨hcarries', rfl⟩, rfl⟩
        rw [run_cons, hdeliver]
        rfl

/-- Two nodes that have just connected: nothing has been asked for yet, what they have sent each other
until then has arrived, and both of them wait for more. -/
structure Start (w : WiredNodes) : Prop where
  fresh : w.nodes.Fresh
  connected : ∀ i, (w.endpoint i).connection.Connected
  beforeTraffic : ∀ i, (w.endpoint i).connection.BeforeTraffic
  idle : ∀ i, (w.endpoint i).connection.writeQueue = [] ∧ (w.endpoint i).handedOver = false
  reading : ∀ i, (w.endpoint i).connection.pendingRead = some (.msgReceived, .connected)
  arrived : ∀ i, (w.endpoint i).received = (w.endpoint (!i)).sent

/-- The ends of a connection after a handshake. -/
def ofPair (nodes : TwoNodes) (t : ConnectionPair) : WiredNodes where
  nodes := nodes
  endpoint i := if i then t.acceptor else t.originator

/-- A handshake without requests leaves a connection behind that is at its start. -/
theorem start_of_fresh {q : CookiePair} {t : ConnectionPair} {nodes : TwoNodes}
    (hnodes : nodes.Fresh) (ht : CookiePair.Fresh q t) (hquiet : t.Quiet)
    (horiginator : t.originator.connection.state = .connected)
    (hacceptor : t.acceptor.connection.state = .connected) : (ofPair nodes t).Start := by
  have hends : ∀ i, ((ofPair nodes t).endpoint i).JustConnected := by
    rintro (_ | _)
    · exact ht.originatorEnd.resolve_left fun hp => hp.handshaking.state_ne horiginator
    · exact ht.acceptorEnd.resolve_left fun hp => hp.handshaking.state_ne hacceptor
  refine ⟨hnodes, fun i => (hends i).connected.1, fun i => (hends i).connected.2,
    fun i => ⟨(hends i).writeQueue, (hends i).handedOver⟩, fun i => (hends i).pendingRead, ?_⟩
  rintro (_ | _)
  · exact hquiet.toOriginator
  · exact hquiet.toAcceptor

theorem Start.carries (hw : w.Start) : w.Carries fun i => (w.endpoint i).sent where
  inUse i := by
    refine ⟨hw.connected i, hw.reading i, ?_, fun hdone => ?_⟩
    · rw [AsyncTcpIp.WritesFront, writes, (hw.idle i).1]
      simp
    · cases hdone.symm.trans (hw.idle i).2
  sent i := by
    have hasked : w.frames i = [] := by rw [frames, asked, hw.fresh.quiet i]; rfl
    rw [Endpoint.unsent, (hw.idle i).1, hasked, List.drop_nil]
    rfl
  received i := by rw [hw.arrived i]
  reads i := by
    refine ⟨[], by rw [hw.arrived i, List.append_nil], ?_⟩
    obtain ⟨hmsgs, hhandled⟩ := hw.beforeTraffic i
    rw [Endpoint.Reads, hmsgs, hhandled, Framing.split_nil]
    rfl

theorem Start.messages_eq (hw : w.Start) : w.messages = w.nodes := by
  have hnode : (fun i => (w.nodes.node i).withRequested
      ((w.nodes.node i).requested.drop (w.handled (!i)).length)) = w.nodes.node := by
    funext i
    rw [hw.fresh.quiet i, List.drop_nil, ← hw.fresh.quiet i]
    rfl
  rw [messages, TwoNodes.withRequested, hnode]

variable {es : List WiredEvent}

/-- The streams in every run, and the run in messages. -/
theorem Start.carries_of_run (hw : w.Start) (h : run (step signedChar access) w es = some w')
    (hfits : w'.Fits) : (w'.Carries fun i => (w.endpoint i).sent) ∧ ∃ ms,
      run (TwoNodes.messageStep signedChar) w.nodes ms = some w'.messages ∧
        EveryStep (TwoNodes.messageStep signedChar) (fun s _ => s.InFlightFits) w.nodes ms ∧
          ms.filterMap MessageEvent.seen = es.filterMap WiredEvent.seen := by
  obtain ⟨ms, s, hms, hinFlight, ⟨hcarries, rfl⟩, hseen⟩ :=
    (simulates signedChar access _).exists_run ⟨hw.carries, rfl⟩ h hfits
  rw [hw.messages_eq] at hms hinFlight
  exact ⟨hcarries, ms, hms, hinFlight, hseen⟩

/-! ### After a handshake -/

/-- **Traffic starts clean after a handshake** between nodes with the same cookie, and it never starts
between others: once all has arrived and as long as there have been no requests, both ends are
connected, with nothing to write, nothing in their lexers and nothing handled yet. -/
theorem start_iff_cookie_eq (q : CookiePair) (hinj : Set.InjOn q.a.md5 q.digested) (peerName : Str)
    {es : List PairEvent} {t : ConnectionPair}
    (h : run q.step (q.start peerName) es = some t) (hes : ∀ e ∈ es, e.isRequest = false)
    (hquiet : t.Quiet) (nodes : TwoNodes) (hnodes : nodes.Fresh) :
    (ofPair nodes t).Start ↔ q.a.cookie = q.b.cookie := by
  have ht := CookiePair.fresh_of_run hinj hes h
  rcases ht.toWf.of_quiet hquiet with ⟨hcookie, hstate, hstate', -⟩ | ⟨hcookie, hstate, -⟩
  · exact ⟨fun _ => hcookie, fun _ => start_of_fresh hnodes ht hquiet hstate hstate'⟩
  · exact ⟨fun hstart => absurd (hstart.connected false).state hstate,
      fun heq => absurd heq hcookie⟩

theorem start_iff_cookie_eq_whole : ∃ t,
    run CookiePair.sameCookie.step (CookiePair.sameCookie.start (bytesOf "b"))
      CookiePair.wholeHandshake = some t ∧
    ((ofPair (TwoNodes.oneEach TwoNodes.nodeNames) t).Start ↔
      CookiePair.sameCookie.a.cookie = CookiePair.sameCookie.b.cookie) := by
  obtain ⟨t, hrun, hquiet⟩ : ∃ t, run CookiePair.sameCookie.step
      (CookiePair.sameCookie.start (bytesOf "b")) CookiePair.wholeHandshake = some t ∧ t.Quiet :=
    ⟨_, rfl, rfl, rfl, rfl, rfl⟩
  exact ⟨t, hrun, start_iff_cookie_eq _ CookiePair.injOn_sameCookie _ hrun (by decide) hquiet _
    TwoNodes.fresh_oneEach⟩

/-! ### Two messages, read together -/

/-- A message to the mailbox of the other node, by its pid and by its name. The frames come with one
read, and the second one waits. -/
def readTogether : List WiredEvent :=
  [.call (.send false 0 [131, 97, 7] ⟨bytesOf "b@h", 1, 0, 0⟩),
    .call (.sendNamed false 0 [131, 97, 8] (bytesOf "m")), .io false .transmit, .io false .written,
    .io false .transmit, .io true (.read 128)]

def byPid : ControlMsg := .send [131, 97, 7] ⟨bytesOf "b@h", 1, 0, 0⟩

def byName : ControlMsg := .regSend [131, 97, 8] (bytesOf "m") ⟨bytesOf "a@h", 1, 0, 0⟩

/-- The nodes of `sameCookie`. -/
def cookieAccess (i : Bool) : NodeAccess :=
  if i then CookiePair.sameCookie.b else CookiePair.sameCookie.a

theorem exists_readTogether : ∃ w w' : WiredNodes, w.Start ∧
    w.nodes = TwoNodes.oneEach TwoNodes.nodeNames ∧
      run (step false cookieAccess) w readTogether = some w' ∧ w'.Fits ∧
        w'.asked false = [byPid, byName] ∧ w'.handled true = [byPid.frame] ∧
          w'.nodes.closed true = [] ∧ (w'.endpoint true).incoming (w'.endpoint false).sent = [] ∧
            (w'.endpoint false).unsent = [] := by
  obtain ⟨t, w', hrun, hquiet, hstate, hstate', hw', hasked, hasked', hhandled, hclosed,
      hincoming, hunsent⟩ :
      ∃ t w', run CookiePair.sameCookie.step (CookiePair.sameCookie.start (bytesOf "b"))
          CookiePair.wholeHandshake = some t ∧ t.Quiet ∧
        t.originator.connection.state = .connected ∧ t.acceptor.connection.state = .connected ∧
        run (step false cookieAccess) (ofPair (TwoNodes.oneEach TwoNodes.nodeNames) t)
          readTogether = some w' ∧ w'.asked false = [byPid, byName] ∧ w'.asked true = [] ∧
        w'.handled true = [byPid.frame] ∧ w'.nodes.closed true = [] ∧
        (w'.endpoint true).incoming (w'.endpoint false).sent = [] ∧
        (w'.endpoint false).unsent = [] :=
    ⟨_, _, rfl, ⟨rfl, rfl, rfl, rfl⟩, rfl, rfl, rfl, rfl, rfl, rfl, rfl, rfl, rfl⟩
  have ht := CookiePair.fresh_of_run CookiePair.injOn_sameCookie (by decide) hrun
  refine ⟨_, w', start_of_fresh TwoNodes.fresh_oneEach ht hquiet hstate hstate', rfl, hw', ?_,
    hasked, hhandled, hclosed, hincoming, hunsent⟩
  rintro (_ | _) m hm
  · rw [hasked] at hm
    rcases List.mem_pair.mp hm with rfl | rfl
    · exact ⟨⟨by decide, by decide⟩, by rw [ControlMsg.FitsFrame]; decide⟩
    · exact ⟨⟨⟨by decide, by decide⟩, by decide⟩, by rw [ControlMsg.FitsFrame]; decide⟩
  · rw [hasked'] at hm
    cases hm

/-! ### What can be seen -/

/-- **Bytes do not show.** Whatever clients and the network do to two nodes that have just connected,
the nodes come to where some deliveries of whole messages, between the same calls in the same order,
would have led them: a message is in flight from the call that asks for it until its frame is
handled. That is so as long as all that is asked for fits its fields. -/
theorem Start.exists_run_messages (hw : w.Start)
    (h : run (step signedChar access) w es = some w') (hfits : w'.Fits) : ∃ ms,
      run (TwoNodes.messageStep signedChar) w.nodes ms = some w'.messages ∧
        ms.filterMap MessageEvent.seen = es.filterMap WiredEvent.seen := by
  obtain ⟨-, ms, hms, -, hseen⟩ := hw.carries_of_run h hfits
  exact ⟨ms, hms, hseen⟩

theorem Start.exists_run_messages_readTogether : ∃ w w' : WiredNodes, w.Start ∧
    run (step false cookieAccess) w readTogether = some w' ∧ ∃ ms,
      run (TwoNodes.messageStep false) w.nodes ms = some w'.messages ∧
        ms.filterMap MessageEvent.seen = readTogether.filterMap WiredEvent.seen := by
  obtain ⟨w, w', hw, -, hrun, hfits, -⟩ := exists_readTogether
  exact ⟨w, w', hw, hrun, hw.exists_run_messages hrun hfits⟩

/-- **In order, and once.** At any time, what a node has asked for are first the messages whose frames
the other node has handled, then those whose frames wait in its lexer, and then those whose bytes,
apart from a part of the first that is in the lexer already, are in the network or still to be
handed over to it, one frame after the other. -/
theorem Start.handledInOrder (hw : w.Start) (h : run (step signedChar access) w es = some w')
    (hfits : w'.Fits) (i : Bool) : ∃ done waiting later,
      w'.asked (!i) = done ++ waiting ++ later ∧ w'.handled i = done.map ControlMsg.frame ∧
        (w'.endpoint i).connection.connectedMsgs.msgs = waiting.map ControlMsg.frame ∧
          (w'.endpoint i).connection.connectedMsgs.incomplete ++
              ((w'.endpoint i).incoming (w'.endpoint (!i)).sent ++ (w'.endpoint (!i)).unsent) =
            (later.map ControlMsg.frame).flatten := by
  obtain ⟨hcarries, -⟩ := hw.carries_of_run h hfits
  obtain ⟨got, hgot, hreads⟩ := hcarries.reads i
  obtain ⟨gs, hfs, hgs⟩ := exists_frames (hfits.isFrame (!i)) (hcarries.sent (!i))
    (hcarries.received i) hgot hreads
  obtain ⟨front, later, hasked, hfront, rfl⟩ := List.map_eq_append_iff.mp hfs
  obtain ⟨done, waiting, rfl, hdone, hwaiting⟩ := List.map_eq_append_iff.mp hfront
  exact ⟨done, waiting, later, hasked, hdone.symm, hwaiting.symm, hgs⟩

theorem Start.handledInOrder_readTogether : ∃ w w' : WiredNodes, w.Start ∧
    run (step false cookieAccess) w readTogether = some w' ∧
      w'.asked false = [byPid, byName] ∧ w'.handled true = [byPid.frame] ∧
        ∃ done waiting later, w'.asked false = done ++ waiting ++ later ∧
          w'.handled true = done.map ControlMsg.frame ∧
            (w'.endpoint true).connection.connectedMsgs.msgs = waiting.map ControlMsg.frame := by
  obtain ⟨w, w', hw, -, hrun, hfits, hasked, hhandled, -⟩ := exists_readTogether
  obtain ⟨done, waiting, later, h₁, h₂, h₃, -⟩ := hw.handledInOrder hrun hfits true
  exact ⟨w, w', hw, hrun, hasked, hhandled, done, waiting, later, h₁, h₂, h₃⟩

/-- A delivery is nothing that is sent to a mailbox. -/
theorem filterMap_payloadTo (n : ActualNode) (i : Bool) (h : Handle) (ms : List MessageEvent) :
    (ms.filterMap MessageEvent.seen).filterMap (MessageEvent.payloadTo n i h) =
      ms.filterMap (MessageEvent.payloadTo n i h) := by
  rw [List.filterMap_filterMap]
  refine List.filterMap_congr fun e _ => ?_
  cases e with
  | links e => cases e <;> rfl
  | send | sendNamed => rfl

/-- **What is sent to a mailbox is in it or on its way.** A mailbox that has not been closed has got,
after what it had in the beginning, the messages that clients of the other node have sent to its pid
and to its names, in their order and each of them once, up to those in flight. Where characters are
signed it gets nothing at all. The mailbox has its names for itself: with another one of the same
name that is closed, the name is gone. -/
theorem Start.arrives (hw : w.Start) {h : Handle}
    (hmailbox : h < (w.nodes.node i).objects.length) (hnames : (w.nodes.node i).OwnsNames h)
    (hrun : run (step signedChar access) w es = some w') (hfits : w'.Fits)
    (hopen : h ∉ w'.nodes.closed i) :
    (signedChar = true →
      (w'.nodes.node i).receivedMsgsOf h = (w.nodes.node i).receivedMsgsOf h) ∧
    (signedChar = false →
      ((w'.nodes.node i).receivedMsgsOf h).reverse ++
          w'.messages.inFlightTo (w.nodes.node i) i h =
        ((w.nodes.node i).receivedMsgsOf h).reverse ++ (es.filterMap WiredEvent.seen).filterMap
          (MessageEvent.payloadTo (w.nodes.node i) i h)) := by
  obtain ⟨-, ms, hms, hinFlight, hseen⟩ := hw.carries_of_run hrun hfits
  have harrives := TwoNodes.arrives_of_run hw.fresh hmailbox hnames hms hinFlight hopen
  refine ⟨harrives.unheard, fun hchar => ?_⟩
  rw [← hseen, filterMap_payloadTo]
  exact harrives.heard hchar

/-- The message to the pid has arrived, and the one to the name is in flight. -/
theorem Start.arrives_readTogether : ∃ w w' : WiredNodes, w.Start ∧
    run (step false cookieAccess) w readTogether = some w' ∧
      ((w'.nodes.node true).receivedMsgsOf 0).reverse ++
          w'.messages.inFlightTo (w.nodes.node true) true 0 =
        [[131, 97, 7], [131, 97, 8]] := by
  obtain ⟨w, w', hw, hnodes, hrun, hfits, -, -, hclosed, -⟩ := exists_readTogether
  have hnames : (w.nodes.node true).OwnsNames 0 := by
    rw [hnodes]
    rintro (_ | h') o ho _
    · rfl
    · cases ho
  have harrives := hw.arrives (h := 0) (by rw [hnodes]; decide) hnames hrun hfits
    (by rw [hclosed]; exact List.not_mem_nil)
  refine ⟨w, w', hw, hrun, (harrives.2 rfl).trans ?_⟩
  rw [hnodes]
  rfl

end WiredNodes

end TinchPp
