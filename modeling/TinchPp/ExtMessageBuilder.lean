import TinchPp.ErlangTypes

/-!
# Building control messages

`ext_message_builder.cpp`. A frame is a four byte length, the pass-through byte, the version byte,
the control tuple and, for the two send operations, another version byte and the payload.

`ControlMsg` stands for the subclasses of `control_msg`; each of them does no more than call the
builder of its operation.
-/

namespace TinchPp

open Wire

def addMessageHeader : MsgSeq := [narrow Constants.passThrough, narrow Constants.magicVersion]

/-- SEND: tuple of `{2, Cookie, ToPid}` -/
def addCtrlMessageSend (destinationPid : EPid) : MsgSeq :=
  let noCookie : Str := []
  addMessageHeader ++ (makeETuple ([Int_.ofValue Constants.ctrlMsgSend, Atom.ofValue noCookie,
    Pid.ofValue destinationPid] : List (Object Unit))).serialize

/-- REG_SEND: tuple of `{6, FromPid, Cookie, ToName}` -/
def addCtrlMessageRegSend (self : EPid) (destinationName : Str) : MsgSeq :=
  let noCookie : Str := []
  addMessageHeader ++ (makeETuple ([Int_.ofValue Constants.ctrlMsgRegSend, Pid.ofValue self,
    Atom.ofValue noCookie, Atom.ofValue destinationName] : List (Object Unit))).serialize

/-- EXIT and EXIT2: tuple of `{request, FromPid, ToPid, Reason}` -/
def addCtrlMessageExit (request : Int32) (fromPid toPid : EPid) (reason : Str) : MsgSeq :=
  addMessageHeader ++ (makeETuple ([Int_.ofValue request, Pid.ofValue fromPid, Pid.ofValue toPid,
    Atom.ofValue reason] : List (Object Unit))).serialize

/-- LINK and UNLINK: tuple of `{request, FromPid, ToPid}` -/
def addCtrlMessageLinkage (request : Int32) (fromPid toPid : EPid) : MsgSeq :=
  addMessageHeader ++ (makeETuple ([Int_.ofValue request, Pid.ofValue fromPid, Pid.ofValue toPid]
    : List (Object Unit))).serialize

def headerSize : ℕ := 4

def fillInMessageSize (msg : MsgSeq) : MsgSeq :=
  bigDwordG (msg.length - headerSize) ++ msg.drop headerSize

/-- Compound types don't include a version for each of their elements. -/
def appendPayload (payload : MsgSeq) : MsgSeq := narrow Constants.magicVersion :: payload

/-- `build`, without and with a payload. -/
def build (ctrlMsg : MsgSeq) : MsgSeq :=
  fillInMessageSize (List.replicate headerSize 0 ++ ctrlMsg)

def buildWithPayload (payload ctrlMsg : MsgSeq) : MsgSeq :=
  fillInMessageSize (List.replicate headerSize 0 ++ ctrlMsg ++ appendPayload payload)

theorem fillInMessageSize_eq (msg : MsgSeq) :
    fillInMessageSize (List.replicate headerSize 0 ++ msg) = bigDwordG msg.length ++ msg := by
  have hlen : (List.replicate headerSize 0 ++ msg).length - headerSize = msg.length := by
    rw [List.length_append, List.length_replicate, Nat.add_sub_cancel_left]
  rw [fillInMessageSize, hlen]
  rfl

theorem build_eq (ctrlMsg : MsgSeq) : build ctrlMsg = bigDwordG ctrlMsg.length ++ ctrlMsg :=
  fillInMessageSize_eq ctrlMsg

theorem buildWithPayload_eq (payload ctrlMsg : MsgSeq) : buildWithPayload payload ctrlMsg =
    bigDwordG (ctrlMsg ++ appendPayload payload).length ++ (ctrlMsg ++ appendPayload payload) := by
  rw [buildWithPayload, List.append_assoc, fillInMessageSize_eq]

/-- A control tuple starts with its operation. -/
theorem makeETuple_serialize (request : Int32) (contained : List (Object Unit)) :
    (makeETuple (Int_.ofValue request :: contained)).serialize =
      smallTupleHeadG (contained.length + 1) ++
        (Int_.serialize request :: contained.map Object.serialize).flatten := rfl

/-! ### The builders -/

def buildSendMsg (payload : MsgSeq) (destinationPid : EPid) : MsgSeq :=
  buildWithPayload payload (addCtrlMessageSend destinationPid)

def buildRegSendMsg (payload : MsgSeq) (self : EPid) (destinationName : Str) : MsgSeq :=
  buildWithPayload payload (addCtrlMessageRegSend self destinationName)

def buildExitMsg (fromPid toPid : EPid) (reason : Str) : MsgSeq :=
  build (addCtrlMessageExit Constants.ctrlMsgExit fromPid toPid reason)

def buildExit2Msg (fromPid toPid : EPid) (reason : Str) : MsgSeq :=
  build (addCtrlMessageExit Constants.ctrlMsgExit2 fromPid toPid reason)

def buildLinkMsg (fromPid toPid : EPid) : MsgSeq :=
  build (addCtrlMessageLinkage Constants.ctrlMsgLink fromPid toPid)

def buildUnlinkMsg (fromPid toPid : EPid) : MsgSeq :=
  build (addCtrlMessageLinkage Constants.ctrlMsgUnlink fromPid toPid)

/-! ### Control messages -/

/-- The control messages a node sends. -/
inductive ControlMsg
  | send (payload : MsgSeq) (toPid : EPid)
  | regSend (payload : MsgSeq) (toName : Str) (fromPid : EPid)
  | link (fromPid toPid : EPid)
  | unlink (fromPid toPid : EPid)
  | exit (fromPid toPid : EPid) (reason : Str)
  | exit2 (fromPid toPid : EPid) (reason : Str)
deriving DecidableEq, Repr

namespace ControlMsg

/-- The bytes the message goes over the wire as. -/
def frame : ControlMsg → MsgSeq
  | send payload toPid => buildSendMsg payload toPid
  | regSend payload toName fromPid => buildRegSendMsg payload fromPid toName
  | link fromPid toPid => buildLinkMsg fromPid toPid
  | unlink fromPid toPid => buildUnlinkMsg fromPid toPid
  | exit fromPid toPid reason => buildExitMsg fromPid toPid reason
  | exit2 fromPid toPid reason => buildExit2Msg fromPid toPid reason

/-- The names, reasons and pids fit their fields. -/
def InWireRange : ControlMsg → Prop
  | send _ toPid => toPid.InWireRange
  | regSend _ toName fromPid => fromPid.InWireRange ∧ toName.length < 65536
  | link fromPid toPid | unlink fromPid toPid => fromPid.InWireRange ∧ toPid.InWireRange
  | exit fromPid toPid reason | exit2 fromPid toPid reason =>
    fromPid.InWireRange ∧ toPid.InWireRange ∧ reason.length < 65536

/-- The operation number, the elements of the control tuple after it, and what follows the
tuple. -/
def parts : ControlMsg → Int32 × List MsgSeq × MsgSeq
  | send payload toPid =>
    (Constants.ctrlMsgSend, [atomExtG [], pidExtG toPid], appendPayload payload)
  | regSend payload toName fromPid =>
    (Constants.ctrlMsgRegSend, [pidExtG fromPid, atomExtG [], atomExtG toName],
      appendPayload payload)
  | link fromPid toPid => (Constants.ctrlMsgLink, [pidExtG fromPid, pidExtG toPid], [])
  | unlink fromPid toPid => (Constants.ctrlMsgUnlink, [pidExtG fromPid, pidExtG toPid], [])
  | exit fromPid toPid reason =>
    (Constants.ctrlMsgExit, [pidExtG fromPid, pidExtG toPid, atomExtG reason], [])
  | exit2 fromPid toPid reason =>
    (Constants.ctrlMsgExit2, [pidExtG fromPid, pidExtG toPid, atomExtG reason], [])

/-- What follows the two bytes of the message header. -/
def body (m : ControlMsg) : MsgSeq :=
  smallTupleHeadG (m.parts.2.1.length + 1) ++
    (Int_.serialize m.parts.1 :: m.parts.2.1).flatten ++ m.parts.2.2

/-- **The layout of a frame.** -/
theorem frame_eq (m : ControlMsg) :
    ∃ n, m.frame = bigDwordG n ++ (addMessageHeader ++ m.body) := by
  cases m with
  | send payload toPid =>
    refine ⟨_, (buildWithPayload_eq _ _).trans (congrArg _ ?_)⟩
    simp [addCtrlMessageSend, makeETuple_serialize, body, parts]
  | regSend payload toName fromPid =>
    refine ⟨_, (buildWithPayload_eq _ _).trans (congrArg _ ?_)⟩
    simp [addCtrlMessageRegSend, makeETuple_serialize, body, parts]
  | link fromPid toPid | unlink fromPid toPid =>
    refine ⟨_, (build_eq _).trans (congrArg _ ?_)⟩
    simp [addCtrlMessageLinkage, makeETuple_serialize, body, parts]
  | exit fromPid toPid reason | exit2 fromPid toPid reason =>
    refine ⟨_, (build_eq _).trans (congrArg _ ?_)⟩
    simp [addCtrlMessageExit, makeETuple_serialize, body, parts]

end ControlMsg

end TinchPp
