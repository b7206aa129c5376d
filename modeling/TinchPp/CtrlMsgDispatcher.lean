import TinchPp.ExtMessageBuilder

/-!
# Dispatching control messages

`ctrl_msg_dispatcher.cpp`. A frame received from a peer has its header checked and is then offered
to six handlers, one for each distributed operation, which form a chain of responsibility. A handler
recognises its operation by the shape of the control tuple, reads the rest of the frame and makes
one call on the connection's access.

`check_term_version` compares the version byte, a `char`, with the `int` 131. Whether a `char` is
signed is left to the compiler, so the functions on the way to this comparison take the signedness
as an argument. Where characters are signed, the byte 131 is promoted to -125, and no byte at all
passes the check: `dispatch_frame_true` is what becomes of a frame then. `dispatchChain_body` is what
becomes of it if it gets past the header.

## Main results

* `ControlMsg.dispatch_frame_true` — where characters are signed, every frame is rejected by the
  version check of its header
* `ControlMsg.not_survives` — so no control message survives the wire
* `ControlMsg.dispatchChain_body` — the handlers themselves recognise their operations, and fail
  only where they check the version of a payload
-/

namespace TinchPp

open Wire

/-! ### Outcomes -/

/-- The calls of `node_connection_access` that the handlers make. -/
inductive AccessCall
  | deliverReceivedPid (msg : MsgSeq) (toPid : EPid)
  | deliverReceivedName (msg : MsgSeq) (toName : Str)
  | requestLink (fromPid toPid : EPid)
  | requestUnlink (fromPid toPid : EPid)
  | requestExit (fromPid toPid : EPid) (reason : Str)
  | requestExit2 (fromPid toPid : EPid) (reason : Str)
deriving DecidableEq, Repr

/-- What can go wrong: an exception, or an iterator at the end that is dereferenced. -/
inductive DispatchError
  | tinchPpException (reason : Str)
  | undefinedBehaviour
deriving DecidableEq, Repr

/-- The calls made on the access, and how the operation has ended. -/
structure Outcome (α : Type) where
  calls : List AccessCall
  result : Except DispatchError α

def Outcome.throw {α : Type} (e : DispatchError) : Outcome α := ⟨[], .error e⟩

/-! ### The header -/

/-- `boost::lexical_cast<std::string>` of an `int`. -/
def decimal (n : Int32) : Str := bytesOf (toString n.toInt)

/-- Integer promotion of a `char`, which is signed or not. -/
def promoteOn (signedChar : Bool) (c : UInt8) : Int32 :=
  if signedChar then promote c else c.toUInt32.toInt32

/-- Used to generate diagnostic messages. -/
def toPrintableString (signedChar : Bool) (msg : MsgSeq) : Str :=
  (msg.map fun c => decimal (promoteOn signedChar c) ++ bytesOf " ").flatten

def erroneousTermVersion (termVersion : UInt8) : DispatchError :=
  .tinchPpException (bytesOf "Erroneous term version received. Got = " ++ [termVersion] ++
    bytesOf ", expected = " ++ decimal Constants.magicVersion)

/-- The version is a `char` and is compared as an `int`. -/
def checkTermVersion (signedChar : Bool) : MsgSeq → Except DispatchError MsgSeq
  | [] => .error .undefinedBehaviour
  | termVersion :: first =>
    if Constants.magicVersion ≠ promoteOn signedChar termVersion then
      .error (erroneousTermVersion termVersion)
    else .ok first

def parseHeader (signedChar : Bool) (first : MsgSeq) : Except DispatchError MsgSeq :=
  match seq (omit_ bigDword 0) (lit (narrow Constants.passThrough)) first () with
  | (none, _) => .error (.tinchPpException
      (bytesOf "Invalid header in ctrl-message: " ++ toPrintableString signedChar first))
  | (some first, _) => checkTermVersion signedChar first

/-- **No signed byte is promoted to 131.** -/
theorem magicVersion_ne_promote (c : UInt8) : Constants.magicVersion ≠ promote c := by
  intro h
  have hlt := toInt_promote_lt c
  rw [← h] at hlt
  exact absurd hlt (by decide)

/-- And one unsigned byte is. -/
theorem magicVersion_eq_promoteOn (c : UInt8) :
    Constants.magicVersion = promoteOn false c ↔ c = narrow Constants.magicVersion := by
  constructor
  · intro h
    have hword : Constants.magicVersion.toUInt32.toNat = c.toUInt32.toNat := by
      rw [h, promoteOn, if_neg Bool.false_ne_true, UInt32.toUInt32_toInt32]
    rw [UInt8.toNat_toUInt32] at hword
    exact UInt8.toNat_inj.mp hword.symm
  · rintro rfl
    rfl

theorem checkTermVersion_true_cons (c : UInt8) (first : MsgSeq) :
    checkTermVersion true (c :: first) = .error (erroneousTermVersion c) := by
  have hversion : Constants.magicVersion ≠ promoteOn true c := magicVersion_ne_promote c
  rw [checkTermVersion, if_pos hversion]

/-- What is written in front of a term is what is expected there, if it can be recognised at all. -/
theorem checkTermVersion_magicVersion (signedChar : Bool) (first : MsgSeq) :
    checkTermVersion signedChar (narrow Constants.magicVersion :: first) =
      if signedChar then .error (erroneousTermVersion (narrow Constants.magicVersion))
      else .ok first := by
  cases signedChar with
  | true => exact checkTermVersion_true_cons _ first
  | false =>
    have hversion : Constants.magicVersion = promoteOn false (narrow Constants.magicVersion) :=
      (magicVersion_eq_promoteOn _).mpr rfl
    rw [checkTermVersion, if_neg (not_not_intro hversion)]
    rfl

/-! ### The handlers -/

/-- The local variables of the handlers, and the bytes collected by an `any()`. -/
structure HandlerVars where
  fromPid : EPid
  toPid : EPid
  toName : Str
  reason : Str
  anyBytes : MsgSeq

namespace HandlerVars

def init : HandlerVars := ⟨.invalid, .invalid, [], [], []⟩

def fromPidPtr : Pointer HandlerVars EPid :=
  ⟨fromPid, fun p v => { v with fromPid := p }, fun _ _ => rfl⟩

def toPidPtr : Pointer HandlerVars EPid :=
  ⟨toPid, fun p v => { v with toPid := p }, fun _ _ => rfl⟩

def toNamePtr : Pointer HandlerVars Str :=
  ⟨toName, fun s v => { v with toName := s }, fun _ _ => rfl⟩

def reasonPtr : Pointer HandlerVars Str :=
  ⟨reason, fun s v => { v with reason := s }, fun _ _ => rfl⟩

def any : Any HandlerVars := ⟨anyBytes, fun s v => { v with anyBytes := s }, fun _ _ => rfl⟩

end HandlerVars

open HandlerVars

/-- A handler reads from the first byte after the header and says whether it has handled the
operation. Where it ends with an answer of `false`, the next one starts at that byte again. -/
abbrev OperationHandler := MsgSeq → Outcome Bool

/-- What the handlers have in common: match the control tuple, and act if it is theirs. -/
def handleIf (operation : Int32) (elements : List (Object HandlerVars))
    (act : HandlerVars → MsgSeq → Outcome Bool) : OperationHandler := fun f =>
  match (makeETuple (Int_.ofValue operation :: elements)).matchFn f init with
  | none => .throw .undefinedBehaviour
  | some (false, _, _) => ⟨[], .ok false⟩
  | some (true, f, v) => act v f

/-- Check the version of the payload, and deliver it. -/
def deliverPayload (signedChar : Bool) (call : MsgSeq → AccessCall) (f : MsgSeq) : Outcome Bool :=
  match checkTermVersion signedChar f with
  | .error e => .throw e
  | .ok payload => ⟨[call payload], .ok true⟩

def sendHandler (signedChar : Bool) : OperationHandler :=
  handleIf Constants.ctrlMsgSend [Atom.ofAny any, Pid.ofPointer toPidPtr] fun v f =>
    deliverPayload signedChar (fun payload => .deliverReceivedPid payload v.toPid) f

def regSendHandler (signedChar : Bool) : OperationHandler :=
  handleIf Constants.ctrlMsgRegSend
    [Pid.ofPointer fromPidPtr, Atom.ofAny any, Atom.ofPointer toNamePtr] fun v f =>
    deliverPayload signedChar (fun payload => .deliverReceivedName payload v.toName) f

def linkHandler : OperationHandler :=
  handleIf Constants.ctrlMsgLink [Pid.ofPointer fromPidPtr, Pid.ofPointer toPidPtr] fun v _ =>
    ⟨[.requestLink v.fromPid v.toPid], .ok true⟩

def unlinkHandler : OperationHandler :=
  handleIf Constants.ctrlMsgUnlink [Pid.ofPointer fromPidPtr, Pid.ofPointer toPidPtr] fun v _ =>
    ⟨[.requestUnlink v.fromPid v.toPid], .ok true⟩

def exitHandler : OperationHandler :=
  handleIf Constants.ctrlMsgExit
    [Pid.ofPointer fromPidPtr, Pid.ofPointer toPidPtr, Atom.ofPointer reasonPtr] fun v _ =>
    ⟨[.requestExit v.fromPid v.toPid v.reason], .ok true⟩

def exit2Handler : OperationHandler :=
  handleIf Constants.ctrlMsgExit2
    [Pid.ofPointer fromPidPtr, Pid.ofPointer toPidPtr, Atom.ofPointer reasonPtr] fun v _ =>
    ⟨[.requestExit2 v.fromPid v.toPid v.reason], .ok true⟩

/-! ### The chain -/

/-- `operation_dispatcher::dispatch`, along the chain. Whatever a handler has done to the iterator,
the next one starts where it did. -/
def dispatchChain (signedChar : Bool) : List OperationHandler → MsgSeq → Outcome Unit
  | [], first => .throw (.tinchPpException
      (bytesOf "Unsupported distributed operation. Action = operation ignored. Msg = " ++
        toPrintableString signedChar first))
  | handle :: next, first =>
    match handle first with
    | ⟨calls, .error e⟩ => ⟨calls, .error e⟩
    | ⟨calls, .ok true⟩ => ⟨calls, .ok ()⟩
    | ⟨calls, .ok false⟩ =>
      ⟨calls ++ (dispatchChain signedChar next first).calls,
        (dispatchChain signedChar next first).result⟩

/-- The handlers that deliver no payload do not look at a character. -/
def operationsChain (signedChar : Bool) : List OperationHandler :=
  [sendHandler signedChar, regSendHandler signedChar, linkHandler, unlinkHandler, exitHandler,
    exit2Handler]

/-- `ctrl_msg_dispatcher::dispatch` -/
def dispatch (signedChar : Bool) (msg : MsgSeq) : Outcome Unit :=
  match parseHeader signedChar msg with
  | .error e => .throw e
  | .ok first => dispatchChain signedChar (operationsChain signedChar) first

section

variable {signedChar : Bool} {handle : OperationHandler} {next : List OperationHandler}
  {first : MsgSeq}

theorem dispatchChain_of_true {calls : List AccessCall} (h : handle first = ⟨calls, .ok true⟩) :
    dispatchChain signedChar (handle :: next) first = ⟨calls, .ok ()⟩ := by
  simp only [dispatchChain, h]

theorem dispatchChain_of_error {e : DispatchError} (h : handle first = .throw e) :
    dispatchChain signedChar (handle :: next) first = .throw e := by
  simp only [dispatchChain, h, Outcome.throw]

/-- A handler that leaves the operation to the others. -/
theorem dispatchChain_of_false (h : handle first = ⟨[], .ok false⟩) :
    dispatchChain signedChar (handle :: next) first = dispatchChain signedChar next first := by
  simp only [dispatchChain, h, List.nil_append]

end

namespace ControlMsg

/-- The call that the receiving node is meant to make. -/
def call : ControlMsg → AccessCall
  | send payload toPid => .deliverReceivedPid payload toPid
  | regSend payload toName _ => .deliverReceivedName payload toName
  | link fromPid toPid => .requestLink fromPid toPid
  | unlink fromPid toPid => .requestUnlink fromPid toPid
  | exit fromPid toPid reason => .requestExit fromPid toPid reason
  | exit2 fromPid toPid reason => .requestExit2 fromPid toPid reason

/-- The frame, dispatched where characters are signed, raises nothing and makes this one call. -/
def Survives (m : ControlMsg) : Prop := dispatch true m.frame = ⟨[m.call], .ok ()⟩

/-! ### Past the version check -/

theorem length_parts_lt (m : ControlMsg) : m.parts.2.1.length + 1 < 256 := by
  cases m <;> simp [parts]

theorem handleIf_of_ne {operation : Int32} {m : ControlMsg} (hne : operation ≠ m.parts.1)
    (elements : List (Object HandlerVars)) (act : HandlerVars → MsgSeq → Outcome Bool) :
    handleIf operation elements act m.body = ⟨[], .ok false⟩ := by
  obtain ⟨rest, hrest⟩ := matchFn_tuple_of_ne hne elements m.length_parts_lt m.parts.2.2 init
  rw [handleIf, body, hrest]

/-- A handler leaves another operation to the rest of the chain, whatever the tuple goes on with. -/
theorem dispatchChain_of_ne {signedChar : Bool} {operation : Int32} {m : ControlMsg}
    (hne : operation ≠ m.parts.1) (elements : List (Object HandlerVars))
    (act : HandlerVars → MsgSeq → Outcome Bool) (next : List OperationHandler) :
    dispatchChain signedChar (handleIf operation elements act :: next) m.body =
      dispatchChain signedChar next m.body :=
  dispatchChain_of_false (handleIf_of_ne hne elements act)

/-- A handler acts on its own operation. -/
theorem handleIf_of_readsAll {m : ControlMsg} {elements : List (Object HandlerVars)}
    {v : HandlerVars} (h : ReadsAll elements m.parts.2.1 init v)
    (act : HandlerVars → MsgSeq → Outcome Bool) :
    handleIf m.parts.1 elements act m.body = act v m.parts.2.2 := by
  have hall : ReadsAll (Int_.ofValue m.parts.1 :: elements)
      (Int_.serialize m.parts.1 :: m.parts.2.1) init v := .cons (Int_.reads_ofValue _ init) h
  have htuple := hall.tuple m.length_parts_lt m.parts.2.2
  rw [List.length_cons] at htuple
  rw [handleIf, body, htuple]

/-- What becomes of a message that gets to the handlers: they make their call. Where characters are
signed, the two that carry a payload end in the version check of the payload instead. -/
def chainOutcome (signedChar : Bool) : ControlMsg → Outcome Unit
  | send payload toPid =>
    if signedChar then .throw (erroneousTermVersion (narrow Constants.magicVersion))
    else ⟨[(send payload toPid).call], .ok ()⟩
  | regSend payload toName fromPid =>
    if signedChar then .throw (erroneousTermVersion (narrow Constants.magicVersion))
    else ⟨[(regSend payload toName fromPid).call], .ok ()⟩
  | m => ⟨[m.call], .ok ()⟩

/-- The payload of a message is delivered, or it does not get past its version byte. -/
theorem dispatchChain_of_deliverPayload {signedChar : Bool} {handle : OperationHandler}
    {next : List OperationHandler} {first : MsgSeq} (call : MsgSeq → AccessCall) (payload : MsgSeq)
    (h : handle first = deliverPayload signedChar call (appendPayload payload)) :
    dispatchChain signedChar (handle :: next) first =
      if signedChar then .throw (erroneousTermVersion (narrow Constants.magicVersion))
      else ⟨[call payload], .ok ()⟩ := by
  rw [deliverPayload, appendPayload, checkTermVersion_magicVersion] at h
  cases signedChar with
  | true => exact dispatchChain_of_error h
  | false => exact dispatchChain_of_true h

/-- Two pids are read one after the other. -/
theorem readsAll_pids {fromPid toPid : EPid} (hfrom : fromPid.InWireRange)
    (hto : toPid.InWireRange) {objs : List (Object HandlerVars)} {encs : List MsgSeq}
    {v : HandlerVars} (h : ReadsAll objs encs { init with fromPid := fromPid, toPid := toPid } v) :
    ReadsAll (Pid.ofPointer fromPidPtr :: Pid.ofPointer toPidPtr :: objs)
      (pidExtG fromPid :: pidExtG toPid :: encs) init v :=
  .cons (Pid.reads_ofPointer hfrom rfl) (.cons (Pid.reads_ofPointer hto rfl) h)

/-! ### Each operation and its handler -/

theorem sendHandler_body (signedChar : Bool) (payload : MsgSeq) {toPid : EPid}
    (hto : toPid.InWireRange) : sendHandler signedChar (send payload toPid).body =
      deliverPayload signedChar (fun payload => .deliverReceivedPid payload toPid)
        (appendPayload payload) := by
  have hreads : ReadsAll [Atom.ofAny any, Pid.ofPointer toPidPtr]
      (send payload toPid).parts.2.1 init _ :=
    .cons (Atom.reads_ofAny (by decide) any init) (.cons (Pid.reads_ofPointer hto rfl) .nil)
  exact handleIf_of_readsAll hreads _

theorem regSendHandler_body (signedChar : Bool) (payload : MsgSeq) {toName : Str} {fromPid : EPid}
    (hfrom : fromPid.InWireRange) (hname : toName.length < 65536) :
    regSendHandler signedChar (regSend payload toName fromPid).body =
      deliverPayload signedChar (fun payload => .deliverReceivedName payload toName)
        (appendPayload payload) := by
  have hreads : ReadsAll [Pid.ofPointer fromPidPtr, Atom.ofAny any, Atom.ofPointer toNamePtr]
      (regSend payload toName fromPid).parts.2.1 init _ :=
    .cons (Pid.reads_ofPointer hfrom rfl) (.cons (Atom.reads_ofAny (by decide) any _)
      (.cons (Atom.reads_ofPointer hname rfl) .nil))
  exact handleIf_of_readsAll hreads _

theorem linkHandler_body {fromPid toPid : EPid} (hfrom : fromPid.InWireRange)
    (hto : toPid.InWireRange) :
    linkHandler (link fromPid toPid).body = ⟨[.requestLink fromPid toPid], .ok true⟩ := by
  have hreads : ReadsAll [Pid.ofPointer fromPidPtr, Pid.ofPointer toPidPtr]
      (link fromPid toPid).parts.2.1 init _ := readsAll_pids hfrom hto .nil
  exact handleIf_of_readsAll hreads _

theorem unlinkHandler_body {fromPid toPid : EPid} (hfrom : fromPid.InWireRange)
    (hto : toPid.InWireRange) :
    unlinkHandler (unlink fromPid toPid).body = ⟨[.requestUnlink fromPid toPid], .ok true⟩ := by
  have hreads : ReadsAll [Pid.ofPointer fromPidPtr, Pid.ofPointer toPidPtr]
      (unlink fromPid toPid).parts.2.1 init _ := readsAll_pids hfrom hto .nil
  exact handleIf_of_readsAll hreads _

theorem exitHandler_body {fromPid toPid : EPid} {reason : Str} (hfrom : fromPid.InWireRange)
    (hto : toPid.InWireRange) (hreason : reason.length < 65536) :
    exitHandler (exit fromPid toPid reason).body =
      ⟨[.requestExit fromPid toPid reason], .ok true⟩ := by
  have hreads : ReadsAll
      [Pid.ofPointer fromPidPtr, Pid.ofPointer toPidPtr, Atom.ofPointer reasonPtr]
      (exit fromPid toPid reason).parts.2.1 init _ :=
    readsAll_pids hfrom hto (.cons (Atom.reads_ofPointer hreason rfl) .nil)
  exact handleIf_of_readsAll hreads _

theorem exit2Handler_body {fromPid toPid : EPid} {reason : Str} (hfrom : fromPid.InWireRange)
    (hto : toPid.InWireRange) (hreason : reason.length < 65536) :
    exit2Handler (exit2 fromPid toPid reason).body =
      ⟨[.requestExit2 fromPid toPid reason], .ok true⟩ := by
  have hreads : ReadsAll
      [Pid.ofPointer fromPidPtr, Pid.ofPointer toPidPtr, Atom.ofPointer reasonPtr]
      (exit2 fromPid toPid reason).parts.2.1 init _ :=
    readsAll_pids hfrom hto (.cons (Atom.reads_ofPointer hreason rfl) .nil)
  exact handleIf_of_readsAll hreads _

/-- **The chain recognises every operation.** -/
theorem dispatchChain_body (signedChar : Bool) {m : ControlMsg} (hm : m.InWireRange) :
    dispatchChain signedChar (operationsChain signedChar) m.body = m.chainOutcome signedChar := by
  cases m with
  | send payload toPid =>
    exact dispatchChain_of_deliverPayload _ payload (sendHandler_body signedChar payload hm)
  | regSend payload toName fromPid =>
    rw [operationsChain, sendHandler,
      dispatchChain_of_ne (show _ ≠ Constants.ctrlMsgRegSend from by decide)]
    exact dispatchChain_of_deliverPayload (.deliverReceivedName · toName) payload
      (regSendHandler_body signedChar payload hm.1 hm.2)
  | link fromPid toPid =>
    have hne {n : Int32} (h : n ≠ Constants.ctrlMsgLink) : n ≠ (link fromPid toPid).parts.1 := h
    rw [operationsChain, sendHandler, dispatchChain_of_ne (hne (by decide)), regSendHandler,
      dispatchChain_of_ne (hne (by decide))]
    exact dispatchChain_of_true (linkHandler_body hm.1 hm.2)
  | unlink fromPid toPid =>
    have hne {n : Int32} (h : n ≠ Constants.ctrlMsgUnlink) : n ≠ (unlink fromPid toPid).parts.1 := h
    rw [operationsChain, sendHandler, dispatchChain_of_ne (hne (by decide)), regSendHandler,
      dispatchChain_of_ne (hne (by decide)), linkHandler, dispatchChain_of_ne (hne (by decide))]
    exact dispatchChain_of_true (unlinkHandler_body hm.1 hm.2)
  | exit fromPid toPid reason =>
    have hne {n : Int32} (h : n ≠ Constants.ctrlMsgExit) :
        n ≠ (exit fromPid toPid reason).parts.1 := h
    rw [operationsChain, sendHandler, dispatchChain_of_ne (hne (by decide)), regSendHandler,
      dispatchChain_of_ne (hne (by decide)), linkHandler, dispatchChain_of_ne (hne (by decide)),
      unlinkHandler, dispatchChain_of_ne (hne (by decide))]
    exact dispatchChain_of_true (exitHandler_body hm.1 hm.2.1 hm.2.2)
  | exit2 fromPid toPid reason =>
    have hne {n : Int32} (h : n ≠ Constants.ctrlMsgExit2) :
        n ≠ (exit2 fromPid toPid reason).parts.1 := h
    rw [operationsChain, sendHandler, dispatchChain_of_ne (hne (by decide)), regSendHandler,
      dispatchChain_of_ne (hne (by decide)), linkHandler, dispatchChain_of_ne (hne (by decide)),
      unlinkHandler, dispatchChain_of_ne (hne (by decide)), exitHandler,
      dispatchChain_of_ne (hne (by decide))]
    exact dispatchChain_of_true (exit2Handler_body hm.1 hm.2.1 hm.2.2)

/-! ### The header -/

/-- The header of a frame, up to its version check. -/
theorem parseHeader_frame_eq (signedChar : Bool) (m : ControlMsg) : parseHeader signedChar m.frame =
    checkTermVersion signedChar (narrow Constants.magicVersion :: m.body) := by
  obtain ⟨n, hframe⟩ := m.frame_eq
  have hsize (s : MsgSeq) : omit_ bigDword 0 (bigDwordG n ++ s) () = (some s, ()) := by
    have hread : bigDword (bigDwordG n ++ s) 0 = (some s, _) := rfl
    exact omit_of_some hread
  rw [hframe, parseHeader, addMessageHeader, seq_of_some (hsize _), List.cons_append,
    lit_cons_self]
  rfl

/-- **Every frame ends in the version check of its header**, before any handler has seen it, where
characters are signed. -/
theorem dispatch_frame_true (m : ControlMsg) :
    dispatch true m.frame = .throw (erroneousTermVersion (narrow Constants.magicVersion)) := by
  rw [dispatch, parseHeader_frame_eq, checkTermVersion_true_cons]

/-- **No control message survives the wire.** -/
theorem not_survives (m : ControlMsg) : ¬ m.Survives := by
  intro h
  rw [Survives, dispatch_frame_true] at h
  exact absurd (congrArg Outcome.calls h) (by simp [Outcome.throw])

/-- A link between the first pids of two nodes. -/
theorem link_not_survives :
    (link ⟨bytesOf "a@h", 1, 0, 0⟩ ⟨bytesOf "b@h", 1, 0, 0⟩).InWireRange ∧
      ¬ (link ⟨bytesOf "a@h", 1, 0, 0⟩ ⟨bytesOf "b@h", 1, 0, 0⟩).Survives := by
  refine ⟨⟨⟨by decide, by decide⟩, ⟨by decide, by decide⟩⟩, fun h => ?_⟩
  have hcalls := congrArg Outcome.calls h
  rw [dispatch_frame_true] at hcalls
  exact absurd hcalls (by decide)

end ControlMsg

end TinchPp
