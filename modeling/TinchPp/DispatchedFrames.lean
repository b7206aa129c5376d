import TinchPp.ExitReasons
import TinchPp.NodeConnection

/-!
# Control messages on the wire

What a frame is to the node that gets it. The lexer has to cut it off behind its last byte, the
connection must not take it for a tick, and the dispatcher has to make the call that it stands for.

The dispatcher does so where characters are not signed. Both version bytes pass their check there,
and the handlers recognise their operations, so that the names, reasons and pids of the call are
those of the message wherever they fit their fields. A reason that is too long is cut to what the
length field of its atom says, and what is left of it stays behind the control tuple, where nobody
looks. Where characters are signed, the header is as far as any frame gets.

## Main results

* `ControlMsg.isFrame_frame`, `ControlMsg.frame_ne_tick` — a frame is one, and not a tick
* `ControlMsg.dispatch_frame` — what the dispatcher does with it, on either kind of character
* `ControlMsg.dispatch_frame_received` — a message about a link, whatever its reason
-/

namespace TinchPp

open Wire

namespace ControlMsg

/-! ### The frame -/

/-- What the length field of a frame counts. -/
def content (m : ControlMsg) : MsgSeq := addMessageHeader ++ m.body

/-- The frame has a length that `msg_lexer_connected` can compute. -/
def FitsFrame (m : ControlMsg) : Prop := m.content.length < 2 ^ 32 - 4

theorem frame_eq_content (m : ControlMsg) :
    m.frame = bigDwordG m.content.length ++ m.content := by
  cases m with
  | send payload toPid =>
    have hcontent : (send payload toPid).content =
        addCtrlMessageSend toPid ++ appendPayload payload := by
      simp [content, addCtrlMessageSend, makeETuple_serialize, body, parts]
    rw [hcontent]
    exact buildWithPayload_eq _ _
  | regSend payload toName fromPid =>
    have hcontent : (regSend payload toName fromPid).content =
        addCtrlMessageRegSend fromPid toName ++ appendPayload payload := by
      simp [content, addCtrlMessageRegSend, makeETuple_serialize, body, parts]
    rw [hcontent]
    exact buildWithPayload_eq _ _
  | link fromPid toPid | unlink fromPid toPid =>
    refine (build_eq _).trans ?_
    simp [content, addCtrlMessageLinkage, makeETuple_serialize, body, parts]
  | exit fromPid toPid reason | exit2 fromPid toPid reason =>
    refine (build_eq _).trans ?_
    simp [content, addCtrlMessageExit, makeETuple_serialize, body, parts]

theorem length_frame (m : ControlMsg) : m.frame.length = 4 + m.content.length := by
  rw [frame_eq_content, List.length_append, length_bigDwordG]

theorem two_le_length_content (m : ControlMsg) : 2 ≤ m.content.length := by
  rw [content, List.length_append]
  exact Nat.le_add_right 2 _

/-- A tick is a length field and nothing else. -/
theorem frame_ne_tick (m : ControlMsg) : m.frame ≠ NodeConnection.tick := by
  intro h
  have hlen := congrArg List.length h
  have hcontent := m.two_le_length_content
  rw [length_frame, NodeConnection.tick, List.length_replicate] at hlen
  omega

theorem lengthField_frame (m : ControlMsg) (h : m.FitsFrame) (s : MsgSeq) :
    ∃ n, lengthField (m.frame ++ s) = some n ∧ n.toNat = m.content.length := by
  have hlt : m.content.length < 4294967296 := by
    rw [FitsFrame] at h
    omega
  refine ⟨_, by rw [frame_eq_content]; rfl, toNat_dword_eq_iff.mpr ⟨hlt, rfl⟩⟩

/-- **The lexer cuts a frame off behind its last byte.** -/
theorem isFrame_frame {m : ControlMsg} (h : m.FitsFrame) : connectedFraming.IsFrame m.frame := by
  obtain ⟨n, hn, hlen⟩ := m.lengthField_frame h []
  rw [List.append_nil] at hn
  rw [Framing.IsFrame, connectedFraming_size, hn, Option.map_some, hlen, length_frame]

/-- Its length is computed without an overflow, whatever is behind it. -/
theorem fieldFits_frame_append {m : ControlMsg} (h : m.FitsFrame) (s : MsgSeq) :
    FieldFits (m.frame ++ s) := by
  intro n hn
  obtain ⟨n', hn', hlen⟩ := m.lengthField_frame h s
  obtain rfl : n' = n := Option.some_inj.mp (hn'.symm.trans hn)
  rw [hlen]
  exact h

/-- A stream of frames has no length that does not fit. -/
theorem fieldsFit_frames {ms : List ControlMsg} (h : ∀ m ∈ ms, m.FitsFrame) :
    FieldsFit (ms.map frame).flatten := by
  induction ms with
  | nil =>
    refine (Framing.atBoundaries_of_incomplete Framing.incomplete_nil).mpr ?_
    rintro n ⟨⟩
  | cons m ms ih =>
    obtain ⟨hm, hms⟩ := List.forall_mem_cons.mp h
    rw [List.map_cons, List.flatten_cons]
    exact (Framing.atBoundaries_frame_append (isFrame_frame hm)).mpr
      ⟨fieldFits_frame_append hm _, ih hms⟩

/-! ### The dispatcher -/

theorem dispatch_frame_false {m : ControlMsg} (hm : m.InWireRange) :
    dispatch false m.frame = ⟨[m.call], .ok ()⟩ := by
  rw [dispatch, parseHeader_frame_eq, checkTermVersion_magicVersion]
  refine (dispatchChain_body false hm).trans ?_
  cases m <;> rfl

/-- **What becomes of a frame** on either kind of character: the one call that it stands for, with
the payload, the pids, the name and the reason that it was built from, or the exception of the
version check. -/
theorem dispatch_frame (signedChar : Bool) {m : ControlMsg} (hm : m.InWireRange) :
    dispatch signedChar m.frame =
      if signedChar then .throw (erroneousTermVersion (narrow Constants.magicVersion))
      else ⟨[m.call], .ok ()⟩ := by
  cases signedChar with
  | true => exact dispatch_frame_true m
  | false => exact dispatch_frame_false hm

/-- A message to a registered name. -/
theorem dispatch_frame_regSend :
    dispatch false (regSend [1, 2] (bytesOf "shell") ⟨bytesOf "a@h", 1, 0, 0⟩).frame =
      ⟨[.deliverReceivedName [1, 2] (bytesOf "shell")], .ok ()⟩ :=
  dispatch_frame false (m := regSend [1, 2] (bytesOf "shell") ⟨bytesOf "a@h", 1, 0, 0⟩)
    ⟨⟨by decide, by decide⟩, by decide⟩

/-! ### Messages about links -/

/-- The two pids that a message about a link is about. -/
def ends : ControlMsg → Option (EPid × EPid)
  | link p q | unlink p q | exit p q _ | exit2 p q _ => some (p, q)
  | send _ _ | regSend _ _ _ => none

/-- As much of a reason as the length field of an atom can count. -/
def cutReason (reason : Str) : Str := reason.take (reason.length % 65536)

/-- What arrives of a message whose pids fit their fields. -/
def received : ControlMsg → ControlMsg
  | exit p q reason => exit p q (cutReason reason)
  | exit2 p q reason => exit2 p q (cutReason reason)
  | m => m

theorem length_cutReason (reason : Str) : (cutReason reason).length = reason.length % 65536 := by
  rw [cutReason, List.length_take]
  exact min_eq_left (Nat.mod_le _ _)

theorem length_cutReason_lt (reason : Str) : (cutReason reason).length < 65536 := by
  rw [length_cutReason]
  exact Nat.mod_lt _ (by decide)

/-- The length field of an atom has two bytes. -/
theorem bigWordG_mod (n : ℕ) : bigWordG (n % 65536) = bigWordG n := by
  have hhigh : UInt8.ofNat (n % 65536 / 256) = UInt8.ofNat (n / 256) := by
    rw [← UInt8.toNat_inj, UInt8.toNat_ofNat', UInt8.toNat_ofNat']
    omega
  have hlow : UInt8.ofNat (n % 65536) = UInt8.ofNat n := by
    rw [← UInt8.toNat_inj, UInt8.toNat_ofNat', UInt8.toNat_ofNat']
    omega
  rw [bigWordG, hhigh, hlow, bigWordG]

theorem atomExtG_eq_append (reason : Str) : atomExtG reason =
    atomExtG (cutReason reason) ++ reason.drop (reason.length % 65536) := by
  rw [atomExtG, atomExtG, length_cutReason, bigWordG_mod, cutReason, List.cons_append,
    List.append_assoc, List.take_append_drop]

theorem atomExt_reason (reason : Str) : atomExt (atomExtG reason) [] =
    (some (reason.drop (reason.length % 65536)), cutReason reason) := by
  rw [atomExtG_eq_append, atomExt_atomExtG (length_cutReason_lt reason), List.nil_append]

/-- The frame of an exit signal, behind its header, where characters are not signed. -/
theorem dispatch_exitFrame (kind : ExitKind) {number : Term} (hnumber : number.Denotes kind.operation)
    {m : ControlMsg} {p q : EPid} (hp : p.InWireRange) (hq : q.InWireRange) (reason : Str)
    (hbody : m.body = ExitKind.body number p q (atomExtG reason)) :
    dispatch false m.frame = ⟨[kind.call p q (cutReason reason)], .ok ()⟩ := by
  rw [dispatch, parseHeader_frame_eq, checkTermVersion_magicVersion]
  show dispatchChain false (operationsChain false) m.body = _
  rw [hbody, ExitKind.dispatchChain_body kind false hnumber hp hq, atomExt_reason]

/-- **What becomes of a message about a link**, if its pids fit, where characters are not signed. -/
theorem dispatch_frame_received {m : ControlMsg} {p q : EPid} (hm : m.ends = some (p, q))
    (hp : p.InWireRange) (hq : q.InWireRange) :
    dispatch false m.frame = ⟨[m.received.call], .ok ()⟩ := by
  cases m with
  | send | regSend => cases hm
  | link p' q' | unlink p' q' =>
    obtain ⟨rfl, rfl⟩ := Prod.mk.inj (Option.some_inj.mp hm)
    exact dispatch_frame_false ⟨hp, hq⟩
  | exit p' q' reason =>
    obtain ⟨rfl, rfl⟩ := Prod.mk.inj (Option.some_inj.mp hm)
    refine dispatch_exitFrame .exit (.inr ⟨3, by decide, rfl⟩) hp hq reason ?_
    simp [body, parts, ExitKind.body]
    rfl
  | exit2 p' q' reason =>
    obtain ⟨rfl, rfl⟩ := Prod.mk.inj (Option.some_inj.mp hm)
    refine dispatch_exitFrame .exit2 (.inr ⟨8, by decide, rfl⟩) hp hq reason ?_
    simp [body, parts, ExitKind.body]
    rfl

end ControlMsg

end TinchPp
