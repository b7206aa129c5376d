import TinchPp.WiredNodes

/-!
# Frames that wait

A read handles one frame at most, even if it has made several complete. The others wait in the lexer
for the next read, and a read ends only when something comes in. So a frame that waits needs a byte
of another one to get on, and with the last bytes that are on their way it may be too late: what
waits then waits until the other node is asked for something more.

How many reads there can be is a matter of the bytes that are still to come, and each of the messages
that are not handled yet takes one. If there are as many bytes as messages, then the network can
deliver the bytes one at a time, and all is handled in the end; if there are fewer, then nothing that
the network does helps. The former is the case whenever no frame waits, since each frame that is still
to become complete lacks a byte.

## Main results

* `WiredNodes.Carries.enoughToCome_of_msgs_eq_nil` — where no frame waits, there is enough to come
* `WiredNodes.EnoughToCome.of_run` — once there is not enough, there will not be
* `WiredNodes.Carries.exists_io` — where there is enough, the network can go on
* `WiredNodes.Start.exists_allHandled_iff` — exactly then everything can still be handled
-/

namespace TinchPp

open EventSystem NodeConnection ActualNode

/-! ### An end that can go on -/

/-- The frame of a message is handled, whatever its dispatch raises. -/
theorem NodeConnection.exists_msgReceived (m : ControlMsg) (rest : List MsgSeq)
    {c : NodeConnection} (hmsgs : c.connectedMsgs.msgs = m.frame :: rest) :
    ∃ c', c.msgReceived .connected = some c' := by
  have hnext : c.nextMessage .connected =
      some (m.frame, { c with connectedMsgs := ⟨c.connectedMsgs.incomplete, rest⟩ }) := by
    simp [nextMessage, lexer, MsgLexer.nextMessage, hmsgs, setLexer]
  have htick : ¬ isTick m.frame = true := by simp [isTick, m.frame_ne_tick]
  simp only [msgReceived, hnext]
  rw [if_neg htick, ControlMsg.dispatch_frame_true]
  exact ⟨_, rfl⟩

namespace Endpoint

variable {node : NodeAccess} {peerSent got : MsgSeq} {p p' : Endpoint}

/-- What is in the queue can be handed over. -/
theorem InUse.exists_transmit (node : NodeAccess) (peerSent : MsgSeq) (hp : p.InUse)
    (hnew : p.handedOver = false) (hqueue : p.connection.writeQueue ≠ []) :
    ∃ p', p.step node peerSent .transmit = some p' ∧
      p'.connection = p.connection ∧ p'.handedOver = true ∧ p'.received = p.received := by
  obtain ⟨⟨msg, callback⟩, queue, hfront⟩ := List.exists_cons_of_ne_nil hqueue
  refine ⟨{ p with handedOver := true, sent := p.sent ++ msg }, ?_, rfl, rfl, rfl⟩
  rw [step, writing_of_writesFront hp.writes hqueue, hnew, hfront]

/-- What has been handed over is written. -/
theorem InUse.exists_written (node : NodeAccess) (peerSent : MsgSeq) (hp : p.InUse)
    (hdone : p.handedOver = true) :
    ∃ p', p.step node peerSent .written = some p' ∧ p'.handedOver = false ∧
      p.connection.writeQueue.length = p'.connection.writeQueue.length + 1 ∧
        p'.received = p.received := by
  have hqueue := hp.front hdone
  obtain ⟨⟨msg, callback⟩, queue, hfront⟩ := List.exists_cons_of_ne_nil hqueue
  have hc : p.connection.step node .written = some ({ p.connection with
      writeQueue := queue, writing := !queue.isEmpty }.invokeWritten callback) := by
    rw [NodeConnection.step, checkedWrite, writing_of_writesFront hp.writes hqueue, hfront]
  obtain ⟨msg', hqueue'⟩ := hp.connected.writeQueue_of_written hc
  refine ⟨{ p with connection := _, handedOver := false }, ?_, rfl,
    congrArg List.length hqueue', rfl⟩
  rw [step, if_pos hdone, hc]
  rfl

/-- What comes in can be read, if it is a part of the frames of messages. -/
theorem InUse.exists_read (hp : p.InUse) (hreads : p.Reads got) {bytes : MsgSeq}
    (hlen : 0 < bytes.length ∧ bytes.length ≤ readBufferSize) (hfit : FieldsFit (got ++ bytes))
    (hframes : ∀ f ∈ (connectedFraming.split (got ++ bytes)).1, ∃ m : ControlMsg, f = m.frame) :
    ∃ c, p.connection.step node (.read bytes) = some c := by
  rw [Reads] at hreads
  have htail : (connectedFraming.split got).2 = p.connection.connectedMsgs.incomplete := by
    rw [hreads]
  have hfit' : FieldsFit (p.connection.connectedMsgs.incomplete ++ bytes) := by
    rw [← htail]
    exact Framing.AtBoundaries.tail_append hfit
  rw [Framing.split_append, htail, hreads, List.append_assoc] at hframes
  rw [NodeConnection.step, if_pos hlen, checkedRead, hp.reading]
  dsimp only
  rw [lexer, MsgLexer.add_eq fun _ => hfit', framing]
  dsimp only
  split
  · next hcomplete =>
    obtain ⟨f, rest, hmsgs⟩ := List.exists_cons_of_ne_nil
      (fun hnil => by simp [MsgLexer.hasCompleteMsg, hnil] at hcomplete :
        p.connection.connectedMsgs.msgs ++
          (connectedFraming.split (p.connection.connectedMsgs.incomplete ++ bytes)).1 ≠ [])
    obtain ⟨m, rfl⟩ := hframes f (List.mem_append_right _ (by rw [hmsgs]; exact List.mem_cons_self))
    rw [invokeRead]
    refine exists_msgReceived m rest ?_
    rw [← hmsgs]
    rfl
  · exact ⟨_, rfl⟩

end Endpoint

namespace WiredNodes

variable {signedChar : Bool} {access : Bool → NodeAccess} {before : Bool → MsgSeq}
  {w w' : WiredNodes} {i : Bool} {p : Endpoint}

/-! ### What is to come -/

/-- How many bytes a node has not read yet. -/
def toCome (w : WiredNodes) (i : Bool) : ℕ :=
  ((w.endpoint i).incoming (w.endpoint (!i)).sent).length + (w.endpoint (!i)).unsent.length

/-- Each node has handled all that the other one has asked for. -/
def AllHandled (w : WiredNodes) : Prop := ∀ i, w.handled i = w.frames (!i)

/-- There are as many bytes to come as there are messages to be handled. -/
def EnoughToCome (w : WiredNodes) : Prop :=
  ∀ i, (w.asked (!i)).length ≤ (w.handled i).length + w.toCome i

/-- What is to come, and what has been read, are what the other node has sent and asked for. -/
theorem Carries.toCome_add (hw : w.Carries before) (i : Bool) :
    w.toCome i + (w.endpoint i).received.length =
      (before (!i)).length + (w.frames (!i)).flatten.length := by
  have hlen := congrArg List.length (hw.sent (!i))
  have hle := (hw.received i).length_le
  rw [List.length_append, List.length_append] at hlen
  rw [toCome, Endpoint.incoming, List.length_drop]
  omega

/-- **Where no frame waits, there is enough to come**: each of the messages lacks a byte. -/
theorem Carries.enoughToCome_of_msgs_eq_nil (hw : w.Carries before) (hfits : w.Fits)
    (hmsgs : (w.endpoint i).connection.connectedMsgs.msgs = []) :
    (w.asked (!i)).length ≤ (w.handled i).length + w.toCome i := by
  obtain ⟨got, hgot, hreads⟩ := hw.reads i
  obtain ⟨gs, hfs, hgs⟩ := exists_frames (hfits.isFrame (!i)) (hw.sent (!i)) (hw.received i) hgot
    hreads
  have htail : (w.endpoint i).connection.connectedMsgs.incomplete =
      (connectedFraming.split got).2 := by rw [hreads]
  have hgsFrames : ∀ f ∈ gs, connectedFraming.IsFrame f := fun f hf =>
    hfits.isFrame (!i) f (by rw [hfs]; exact List.mem_append_right _ hf)
  rw [htail] at hgs
  have hle := Framing.length_le_of_append hgsFrames (Framing.isSplit_split got).incomplete hgs
  have hlen := congrArg List.length hfs
  rw [hmsgs, List.append_nil, frames, List.length_map, List.length_append] at hlen
  rw [List.length_append] at hle
  rw [handled, toCome]
  omega

/-! ### What the network can do at all -/

/-- Every message that is handled takes a byte. -/
theorem Carries.length_of_io (hw : w.Carries before) (hfits : w.Fits) {e : IoEvent}
    (h : w.step signedChar access (.io i e) = some w') : (w'.handled (!i)) = w.handled (!i) ∧
      w'.toCome (!i) = w.toCome (!i) ∧
        (w'.handled i).length + w'.toCome i ≤ (w.handled i).length + w.toCome i := by
  obtain ⟨hw', -, hother, hasked⟩ := hw.io hfits h
  obtain ⟨p, hp, hafter⟩ := Option.bind_eq_some_iff.mp h
  obtain ⟨new, hgoes⟩ := hw.goesOn hfits hp
  rw [hgoes.afterIo_eq] at hafter
  obtain ⟨n, -, rfl⟩ := Option.map_eq_some_iff.mp hafter
  have hself : Function.update w.endpoint i p i = p := Function.update_self ..
  have hrest : Function.update w.endpoint i p (!i) = w.endpoint (!i) :=
    Function.update_of_ne (Bool.not_ne_self i) ..
  have hthere := hw'.toCome_add (!i)
  have hhere := hw'.toCome_add i
  simp only [frames, hasked, hself, hrest] at hthere hhere
  have hthere' := hw.toCome_add (!i)
  have hhere' := hw.toCome_add i
  rw [frames] at hthere' hhere'
  have hlen := congrArg List.length hgoes.handled
  have hle := hgoes.length_le
  rw [List.length_append] at hlen
  refine ⟨hother, by omega, ?_⟩
  show (Function.update w.endpoint i p i).connection.handled.length + _ ≤ _
  rw [hself]
  omega

/-- **Once there is not enough to come, there will not be**, until something more is asked for. -/
theorem EnoughToCome.of_run {ios : List (Bool × IoEvent)} (hw : w.Carries before)
    (hfits : w.Fits)
    (h : run (step signedChar access) w (ios.map fun x => .io x.1 x.2) = some w')
    (henough : w'.EnoughToCome) : w.EnoughToCome := by
  induction ios generalizing w with
  | nil =>
    obtain rfl : w = w' := Option.some_inj.mp h
    exact henough
  | cons x ios ih =>
    obtain ⟨i, e⟩ := x
    obtain ⟨w₁, hstep, hrun⟩ := Option.bind_eq_some_iff.mp h
    replace hstep : w.step signedChar access (.io i e) = some w₁ := hstep
    obtain ⟨hw₁, -, -, hasked⟩ := hw.io hfits hstep
    obtain ⟨hother, hthere, hhere⟩ := hw.length_of_io hfits hstep
    have hfits₁ : w₁.Fits := fun j m hm => hfits j m (hasked j ▸ hm)
    have henough₁ := ih hw₁ hfits₁ hrun
    refine forall_node i ?_ ?_
    · have hnow := henough₁ i
      rw [hasked] at hnow
      omega
    · have hnow := henough₁ (!i)
      rw [hasked, hother, hthere] at hnow
      exact hnow

theorem AllHandled.enoughToCome (hw : w.AllHandled) : w.EnoughToCome := by
  intro i
  have hlen := congrArg List.length (hw i)
  rw [frames, List.length_map] at hlen
  omega

/-! ### What the network can do if there is enough to come -/

/-- How many operations there are at an end until its queue is empty. -/
def toWrite (w : WiredNodes) (i : Bool) : ℕ :=
  2 * (w.endpoint i).connection.writeQueue.length - if (w.endpoint i).handedOver then 1 else 0

/-- How many operations there are if each read gets a byte. -/
def work (w : WiredNodes) : ℕ :=
  w.toWrite false + w.toWrite true + (w.toCome false + w.toCome true)

theorem work_eq (w : WiredNodes) (i : Bool) :
    w.work = w.toWrite i + w.toWrite (!i) + (w.toCome i + w.toCome (!i)) := by
  rw [work]
  cases i with
  | false => rfl
  | true => rw [Bool.not_true, Nat.add_comm (w.toWrite false), Nat.add_comm (w.toCome false)]

/-- An operation at an end does to the node what it has to do. -/
theorem Carries.exists_step (signedChar : Bool) (hw : w.Carries before) (hfits : w.Fits) {e : IoEvent}
    (hp : (w.endpoint i).step (access i) (w.endpoint (!i)).sent e.toEndpointEvent = some p) :
    ∃ w', w.step signedChar access (.io i e) = some w' ∧ w'.endpoint i = p ∧
      w'.endpoint (!i) = w.endpoint (!i) := by
  obtain ⟨new, hgoes⟩ := hw.goesOn hfits hp
  have hnode : ∃ n, new.foldlM (onMsgReceived signedChar) (w.nodes.node i) = some n := by
    rcases hgoes.next with rfl | ⟨m, rest, hnext, rfl⟩
    · exact ⟨_, rfl⟩
    · have hmem : m ∈ w.asked (!i) := List.drop_subset _ _ (by rw [hnext]; exact List.mem_cons_self)
      rw [List.foldlM_cons, onMsgReceived_frame signedChar (hfits (!i) m hmem).1]
      exact ⟨_, rfl⟩
  obtain ⟨n, hn⟩ := hnode
  refine ⟨⟨w.nodes.setNode i n, Function.update w.endpoint i p⟩, ?_, Function.update_self ..,
    Function.update_of_ne (Bool.not_ne_self i) ..⟩
  rw [step, hp]
  show w.afterIo signedChar i p = _
  rw [hgoes.afterIo_eq, hn]
  rfl

/-- A step that takes some work off an end and reads nothing. -/
theorem Carries.work_lt_of_written (hw : w.Carries before) (hfits : w.Fits)
    (henough : w.EnoughToCome) {e : IoEvent} (h : w.step signedChar access (.io i e) = some w')
    (hreceived : (w'.endpoint i).received = (w.endpoint i).received)
    (hless : w'.toWrite i < w.toWrite i) (hother : w'.endpoint (!i) = w.endpoint (!i)) :
    w'.EnoughToCome ∧ w'.work < w.work := by
  obtain ⟨hw', hhandles, hsame, hasked⟩ := hw.io hfits h
  obtain ⟨-, hthere, -⟩ := hw.length_of_io hfits h
  have hhere : w'.toCome i = w.toCome i := by
    have hadd := hw'.toCome_add i
    have hadd' := hw.toCome_add i
    rw [frames, hasked, hreceived] at hadd
    rw [frames] at hadd'
    omega
  have hlen : (w.handled i).length ≤ (w'.handled i).length := by
    cases hhandles with
    | nothing hhandled => rw [hhandled]
    | message _ hhandled =>
      rw [hhandled, List.length_append]
      exact Nat.le_add_right _ _
  refine ⟨forall_node i ?_ ?_, ?_⟩
  · have hbefore := henough i
    rw [hasked, hhere]
    omega
  · have hbefore := henough (!i)
    rw [hasked, hsame, hthere]
    exact hbefore
  · have hrest : w'.toWrite (!i) = w.toWrite (!i) := by rw [toWrite, hother, toWrite]
    rw [work_eq w' i, work_eq w i, hhere, hthere, hrest]
    omega

/-- What an end reads is a part of the frames of the other node. -/
theorem Carries.exists_read (access : Bool → NodeAccess) (hw : w.Carries before)
    (hfits : w.Fits) {bytes : MsgSeq}
    (hlen : 0 < bytes.length ∧ bytes.length ≤ readBufferSize)
    (hbytes : bytes <+: (w.endpoint i).incoming (w.endpoint (!i)).sent) :
    ∃ c, (w.endpoint i).connection.step (access i) (.read bytes) = some c := by
  obtain ⟨got, hgot, hreads⟩ := hw.reads i
  obtain ⟨rest, hrest⟩ := hw.received i
  obtain ⟨more, hmore⟩ := hbytes
  have hincoming : (w.endpoint i).incoming (w.endpoint (!i)).sent = rest := by
    rw [Endpoint.incoming, ← hrest, List.drop_left]
  have hall := append_eq_flatten (hw.sent (!i)) hrest hgot
  rw [← hincoming, ← hmore, List.append_assoc, ← List.append_assoc] at hall
  have hfit : FieldsFit (got ++ bytes) := by
    have hfit := hfits.fieldsFit (!i)
    rw [← hall] at hfit
    exact hfit.of_append
  refine (hw.inUse i).exists_read hreads hlen hfit fun f hf => ?_
  obtain ⟨gs, hfs, -⟩ := Framing.exists_split_of_append (hfits.isFrame (!i)) hall
  have hmem : f ∈ w.frames (!i) := by
    rw [hfs]
    exact List.mem_append_left gs hf
  obtain ⟨m, -, rfl⟩ := List.mem_map.mp hmem
  exact ⟨m, rfl⟩

/-- **A byte is read.** It completes a frame or does not; if none is handled, then none waits. -/
theorem Carries.exists_io_of_incoming (signedChar : Bool) (access : Bool → NodeAccess)
    (hw : w.Carries before) (hfits : w.Fits)
    (henough : w.EnoughToCome) (hincoming : (w.endpoint i).incoming (w.endpoint (!i)).sent ≠ []) :
    ∃ w', w.step signedChar access (.io i (.read 1)) = some w' ∧ w'.EnoughToCome ∧
      w'.work < w.work := by
  set bytes := ((w.endpoint i).incoming (w.endpoint (!i)).sent).take 1 with hbytes
  have hlen : bytes.length = 1 := by
    have hpos := List.length_pos_of_ne_nil hincoming
    rw [hbytes, List.length_take]
    omega
  obtain ⟨c, hc⟩ := hw.exists_read access hfits
    (by rw [← hbytes, hlen]; decide) (List.take_prefix 1 _)
  have hp : (w.endpoint i).step (access i) (w.endpoint (!i)).sent (IoEvent.read 1).toEndpointEvent =
      some { w.endpoint i with connection := c, received := (w.endpoint i).received ++ bytes } := by
    rw [IoEvent.toEndpointEvent, Endpoint.step, ← hbytes, hc]
    rfl
  obtain ⟨new, hgoes⟩ := hw.goesOn hfits hp
  obtain ⟨w', hstep, hself, hother⟩ := hw.exists_step signedChar hfits hp
  obtain ⟨hw', -, hsame, hasked⟩ := hw.io hfits hstep
  obtain ⟨-, hthere, -⟩ := hw.length_of_io hfits hstep
  have hhandled : w'.handled i = w.handled i ++ new := by
    rw [handled, hself]
    exact hgoes.handled
  have hhere : w'.toCome i + 1 = w.toCome i := by
    have hadd := hw'.toCome_add i
    have hadd' := hw.toCome_add i
    rw [frames, hasked, hself, List.length_append, hlen] at hadd
    rw [frames] at hadd'
    omega
  obtain ⟨new', hnew', hqueue⟩ := (hw.inUse i).connected.writeQueue_of_read hc
  obtain rfl : new = new' := List.append_cancel_left (hgoes.handled.symm.trans hnew')
  rw [filter_isTick_eq_nil hgoes.next, List.map_nil, List.append_nil] at hqueue
  refine ⟨w', hstep, forall_node i ?_ ?_, ?_⟩
  · rcases hgoes.next with rfl | ⟨m, rest, -, rfl⟩
    · -- nothing has been handled, and so the lexer has nothing
      obtain ⟨-, l, -, -, -, hmsgs, hhead⟩ := (hw.inUse i).connected.step_read hc
      have hnil : l.msgs.head?.toList = [] := List.append_cancel_left (hhead.symm.trans hnew')
      have hempty : l.msgs = [] := by
        cases hl : l.msgs with
        | nil => rfl
        | cons f fs => simp [hl] at hnil
      refine hw'.enoughToCome_of_msgs_eq_nil (fun j m hm => hfits j m (hasked j ▸ hm)) ?_
      rw [hself]
      show c.connectedMsgs.msgs = []
      rw [hmsgs, hempty]
      rfl
    · have hbefore := henough i
      rw [hasked, hhandled, List.length_append, List.length_singleton]
      omega
  · have hbefore := henough (!i)
    rw [hasked, hsame, hthere]
    exact hbefore
  · have hwrite : w'.toWrite i = w.toWrite i := by
      rw [toWrite, hself, toWrite]
      show 2 * c.writeQueue.length - _ = _
      rw [hqueue]
    have hrest : w'.toWrite (!i) = w.toWrite (!i) := by rw [toWrite, hother, toWrite]
    rw [work_eq w' i, work_eq w i, hthere, hwrite, hrest]
    omega

/-- **Where there is enough to come, the network can go on**, and there still is. -/
theorem Carries.exists_io (signedChar : Bool) (access : Bool → NodeAccess)
    (hw : w.Carries before) (hfits : w.Fits) (henough : w.EnoughToCome)
    (hnot : ¬ w.AllHandled) : ∃ i e w', w.step signedChar access (.io i e) = some w' ∧
      w'.EnoughToCome ∧ w'.work < w.work := by
  by_cases hdone : ∃ i, (w.endpoint i).handedOver = true
  · -- a write completes
    obtain ⟨i, hdone⟩ := hdone
    obtain ⟨p, hp, hnew, hqueue, hreceived⟩ :=
      (hw.inUse i).exists_written (access i) (w.endpoint (!i)).sent hdone
    obtain ⟨w', hstep, hself, hother⟩ := hw.exists_step signedChar hfits
      (e := .written) hp
    refine ⟨i, .written, w', hstep, hw.work_lt_of_written hfits henough hstep ?_ ?_ hother⟩
    · rw [hself, hreceived]
    · rw [toWrite, hself, hnew, toWrite, hdone, hqueue]
      simp only [Bool.false_eq_true, if_false, if_true]
      omega
  have hnew (i : Bool) : (w.endpoint i).handedOver = false := by
    cases hi : (w.endpoint i).handedOver with
    | false => rfl
    | true => exact absurd ⟨i, hi⟩ hdone
  by_cases hqueue : ∃ i, (w.endpoint i).connection.writeQueue ≠ []
  · -- a message is handed over
    obtain ⟨i, hqueue⟩ := hqueue
    obtain ⟨p, hp, hconnection, hover, hreceived⟩ :=
      (hw.inUse i).exists_transmit (access i) (w.endpoint (!i)).sent (hnew i) hqueue
    obtain ⟨w', hstep, hself, hother⟩ := hw.exists_step signedChar hfits
      (e := .transmit) hp
    refine ⟨i, .transmit, w', hstep, hw.work_lt_of_written hfits henough hstep ?_ ?_ hother⟩
    · rw [hself, hreceived]
    · have hpos := List.length_pos_of_ne_nil hqueue
      rw [toWrite, hself, hover, hconnection, toWrite, hnew]
      simp only [Bool.false_eq_true, if_false, if_true]
      omega
  have hempty (i : Bool) : (w.endpoint i).connection.writeQueue = [] := by
    by_contra hi
    exact hqueue ⟨i, hi⟩
  by_cases hincoming : ∃ i, (w.endpoint i).incoming (w.endpoint (!i)).sent ≠ []
  · obtain ⟨i, hincoming⟩ := hincoming
    obtain ⟨w', hstep, hw'⟩ := hw.exists_io_of_incoming signedChar access hfits henough hincoming
    exact ⟨i, .read 1, w', hstep, hw'⟩
  · -- nothing is to come
    refine absurd (fun i => ?_) hnot
    have hnone : (w.endpoint i).incoming (w.endpoint (!i)).sent = [] := by
      by_contra hi
      exact hincoming ⟨i, hi⟩
    have hcome : w.toCome i = 0 := by
      rw [toCome, hnone, Endpoint.unsent, hempty]
      simp
    obtain ⟨got, hgot, hreads⟩ := hw.reads i
    obtain ⟨gs, hfs, -⟩ := exists_frames (hfits.isFrame (!i)) (hw.sent (!i)) (hw.received i) hgot
      hreads
    have hle := henough i
    have hlen := congrArg List.length hfs
    rw [frames, List.length_map, List.append_assoc, List.length_append] at hlen
    rw [hcome, handled] at hle
    have hrest : (w.endpoint i).connection.connectedMsgs.msgs ++ gs = [] :=
      List.eq_nil_of_length_eq_zero (by omega)
    rw [handled, hfs, List.append_assoc, hrest, List.append_nil]

theorem Carries.exists_allHandled (signedChar : Bool) (access : Bool → NodeAccess)
    (hw : w.Carries before) (hfits : w.Fits)
    (henough : w.EnoughToCome) : ∃ (ios : List (Bool × IoEvent)) (w' : WiredNodes),
      run (step signedChar access) w (ios.map fun x => .io x.1 x.2) = some w' ∧
        w'.AllHandled := by
  induction hwork : w.work using Nat.strong_induction_on generalizing w with
  | _ k ih =>
    by_cases hall : w.AllHandled
    · exact ⟨[], w, rfl, hall⟩
    · obtain ⟨i, e, w₁, hstep, henough₁, hless⟩ := hw.exists_io signedChar access hfits henough hall
      obtain ⟨hw₁, -, -, hasked⟩ := hw.io hfits hstep
      obtain ⟨ios, w', hrun, hall'⟩ := ih w₁.work (hwork ▸ hless) hw₁
        (fun j m hm => hfits j m (hasked j ▸ hm)) henough₁ rfl
      refine ⟨(i, e) :: ios, w', ?_, hall'⟩
      rw [List.map_cons, run_cons, hstep]
      exact hrun

/-- **When all can still be handled.** At any time after two nodes have connected, the network alone,
with no more calls of clients, can get each of them to handle all that the other one has asked for,
exactly if in each direction there are at least as many bytes still to come as there are messages
which have not been handled. -/
theorem Start.exists_allHandled_iff (hw : w.Start) {es : List WiredEvent}
    (h : run (step signedChar access) w es = some w') (hfits : w'.Fits) :
    (∃ (ios : List (Bool × IoEvent)) (w'' : WiredNodes),
      run (step signedChar access) w' (ios.map fun x => .io x.1 x.2) = some w'' ∧
        w''.AllHandled) ↔ w'.EnoughToCome := by
  obtain ⟨hcarries, -⟩ := hw.carries_of_run h hfits
  constructor
  · rintro ⟨ios, w'', hrun, hall⟩
    exact EnoughToCome.of_run hcarries hfits hrun hall.enoughToCome
  · exact hcarries.exists_allHandled signedChar access hfits

/-- Of two messages that have been read together the second one is stuck. -/
theorem Start.exists_allHandled_iff_readTogether : ∃ w w' : WiredNodes, w.Start ∧
    run (step false cookieAccess) w readTogether = some w' ∧ w'.asked false = [byPid, byName] ∧
      ¬ ∃ (ios : List (Bool × IoEvent)) (w'' : WiredNodes),
        run (step false cookieAccess) w' (ios.map fun x => .io x.1 x.2) = some w'' ∧
          w''.AllHandled := by
  obtain ⟨w, w', hw, -, hrun, hfits, hasked, hhandled, -, hincoming, hunsent⟩ := exists_readTogether
  refine ⟨w, w', hw, hrun, hasked, fun hall => ?_⟩
  have henough := (hw.exists_allHandled_iff hrun hfits).mp hall true
  rw [toCome, Bool.not_true, hasked, hhandled, hincoming, hunsent] at henough
  exact absurd henough (by decide)

end WiredNodes

end TinchPp
