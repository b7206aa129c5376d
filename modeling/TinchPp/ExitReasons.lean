import TinchPp.DispatchSafety

/-!
# The reasons of exit signals

A process that dies sends its peers a control tuple with the reason. Of a process that has been told
to stop the reason is an atom as a rule; one that has crashed sends a tuple, with what went wrong
and where. `exit_handler` and `exit2_handler` assign the reason to a string, as an atom, and so
leave all other reasons to the next handler in the chain, and there is none.

## Main results

* `ExitKind.delivered_iff` — an exit signal gets to the access exactly if its reason is sent as an
  atom
* `ExitKind.unsupported` — all others are rejected as an unsupported operation
-/

namespace TinchPp

open Wire HandlerVars

/-- The two operations by which a process says that it has ended. -/
inductive ExitKind
  | exit
  | exit2
deriving DecidableEq, Repr

/-- The bytes of a term in external form, as far as that says something about their tag: those that
are tagged as an atom are one. -/
structure IsEncoding (term : MsgSeq) : Prop where
  ne_nil : term ≠ []
  atom : term.head? = some TypeTag.atomExt → ∃ name : Str, name.length < 65536 ∧ term = atomExtG name

theorem isEncoding_atomExtG {name : Str} (h : name.length < 65536) : IsEncoding (atomExtG name) :=
  ⟨by simp [atomExtG], fun _ => ⟨name, h, rfl⟩⟩

/-- Every term that fits the wire is one. -/
theorem Term.isEncoding {t : Term} (h : t.InWireRange) : IsEncoding t.enc := by
  refine ⟨AnyObject.enc_ne_nil t, fun htag => ?_⟩
  cases t using Term.cases with
  | atom name => exact ⟨name, h, rfl⟩
  | list ts => cases ts <;> exact absurd htag (by simp [enc, listHeadG, nilExtG]; decide)
  | _ => exact absurd htag (by simp [enc, TermLeaf.enc, smallIntegerG, integerExtG, pidExtG,
      newReferenceExtG, stringExtG, binaryExtG, bitBinaryExtG, smallTupleHeadG]; try decide)

namespace ExitKind

def operation : ExitKind → Int32
  | exit => Constants.ctrlMsgExit
  | exit2 => Constants.ctrlMsgExit2

/-- The call of the access that the handler makes. -/
def call : ExitKind → EPid → EPid → Str → AccessCall
  | exit => .requestExit
  | exit2 => .requestExit2

/-- The control tuple: the operation, the two pids, and the encoding of the reason. -/
def body (number : Term) (fromPid toPid : EPid) (reason : MsgSeq) : MsgSeq :=
  smallTupleHeadG 4 ++ (number.enc ++ (pidExtG fromPid ++ (pidExtG toPid ++ reason)))

/-- The chain makes one call, the one for this operation and these pids. -/
def Delivered (kind : ExitKind) (signedChar : Bool) (number : Term) (fromPid toPid : EPid)
    (reason suffix : MsgSeq) : Prop :=
  ∃ text, dispatchChain signedChar (operationsChain signedChar)
    (body number fromPid toPid reason ++ suffix) = ⟨[kind.call fromPid toPid text], .ok ()⟩

/-! ### The handlers on such a tuple -/

section

variable {operation n : Int32} {number : Term} {fromPid toPid : EPid} {f : MsgSeq}
  {elements : List (Object HandlerVars)} {act : HandlerVars → MsgSeq → Outcome Bool}

/-- The number of the operation, in either encoding. -/
theorem matchFn_denotes (hnumber : number.Denotes n) (v : HandlerVars) :
    (Int_.ofValue operation).matchFn (number.enc ++ f) v =
      some (decide (operation = n), f, v) := by
  have hread : integer (number.enc ++ f) 0 = (some f, n) := by
    rcases hnumber with rfl | ⟨k, rfl, rfl⟩
    · exact integer_of_integerExt n f 0
    · rw [Term.enc, TermLeaf.enc, integer_of_smallInteger, UInt8.ofNat_toNat]
  exact matchValue_of_some hread operation v

/-- The other operations with a tuple of four are told apart by their number. -/
theorem handleIf_of_number_ne (hnumber : number.Denotes n) (hne : operation ≠ n)
    (hlen : elements.length = 3) :
    handleIf operation elements act (smallTupleHeadG 4 ++ (number.enc ++ f)) =
      ⟨[], .ok false⟩ := by
  have hmatch : (makeETuple (Int_.ofValue operation :: elements)).matchFn
      (smallTupleHeadG 4 ++ (number.enc ++ f)) .init = some (false, f, .init) := by
    simp only [makeETuple]
    rw [ETuple.matchFn_of_length (by decide) (by rw [List.length_cons, hlen]), ETuple.matchAll,
      matchFn_denotes hnumber, decide_eq_false hne]
  rw [handleIf, hmatch]

/-- The variables of the handler, once both pids have been read. -/
def withPids (fromPid toPid : EPid) : HandlerVars := { init with fromPid := fromPid, toPid := toPid }

/-- Up to the reason the tuple is matched. -/
theorem matchFn_exit (hfrom : fromPid.InWireRange) (hto : toPid.InWireRange)
    (hnumber : number.Denotes operation) :
    (makeETuple [Int_.ofValue operation, Pid.ofPointer fromPidPtr, Pid.ofPointer toPidPtr,
      Atom.ofPointer reasonPtr]).matchFn
        (smallTupleHeadG 4 ++ (number.enc ++ (pidExtG fromPid ++ (pidExtG toPid ++ f)))) init =
      ETuple.matchAll [Atom.ofPointer reasonPtr] f (withPids fromPid toPid) := by
  have hfromReads : (Pid.ofPointer fromPidPtr).Reads (pidExtG fromPid) init
      (fromPidPtr.set fromPid init) := Pid.reads_ofPointer hfrom rfl
  have htoReads : (Pid.ofPointer toPidPtr).Reads (pidExtG toPid) (fromPidPtr.set fromPid init)
      (withPids fromPid toPid) := Pid.reads_ofPointer hto rfl
  simp only [makeETuple]
  rw [ETuple.matchFn_of_length (n := 4) (by decide) rfl, ETuple.matchAll, matchFn_denotes hnumber,
    decide_eq_true rfl]
  dsimp only
  rw [ETuple.matchAll, hfromReads]
  dsimp only
  rw [ETuple.matchAll, htoReads]

/-- And then the reason decides. -/
theorem handleIf_exit (hfrom : fromPid.InWireRange) (hto : toPid.InWireRange)
    (hnumber : number.Denotes operation) :
    handleIf operation [Pid.ofPointer fromPidPtr, Pid.ofPointer toPidPtr, Atom.ofPointer reasonPtr]
        act (smallTupleHeadG 4 ++ (number.enc ++ (pidExtG fromPid ++ (pidExtG toPid ++ f)))) =
      match atomExt f [] with
      | (some rest, text) => act { withPids fromPid toPid with reason := text } rest
      | (none, _) => ⟨[], .ok false⟩ := by
  have hreason : reasonPtr.get (withPids fromPid toPid) = [] := rfl
  rw [handleIf, matchFn_exit hfrom hto hnumber]
  rcases hread : atomExt f [] with ⟨_ | rest, text⟩
  · simp only [ETuple.matchAll, Atom.ofPointer, assignMatched, hreason, binaryToTerm, hread]
  · simp only [ETuple.matchAll, Atom.ofPointer, assignMatched, hreason, binaryToTerm, hread]
    rfl

end

/-! ### The chain on such a tuple -/

/-- What the chain does with an operation that no handler recognises. -/
def unsupportedOperation (signedChar : Bool) (first : MsgSeq) : Outcome Unit :=
  dispatchChain signedChar [] first

/-- **The chain, on an exit signal**: the reason is read as an atom, or the operation is not
recognised. -/
theorem dispatchChain_body (kind : ExitKind) (signedChar : Bool) {number : Term}
    (hnumber : number.Denotes kind.operation) {fromPid toPid : EPid} (hfrom : fromPid.InWireRange)
    (hto : toPid.InWireRange) (reason : MsgSeq) :
    dispatchChain signedChar (operationsChain signedChar) (body number fromPid toPid reason) =
      match atomExt reason [] with
      | (some _, text) => ⟨[kind.call fromPid toPid text], .ok ()⟩
      | (none, _) => unsupportedOperation signedChar (body number fromPid toPid reason) := by
  have hsend : sendHandler signedChar (body number fromPid toPid reason) = ⟨[], .ok false⟩ :=
    handleIf_of_length_ne (by decide) (by decide) _
  have hlink : linkHandler (body number fromPid toPid reason) = ⟨[], .ok false⟩ :=
    handleIf_of_length_ne (by decide) (by decide) _
  have hunlink : unlinkHandler (body number fromPid toPid reason) = ⟨[], .ok false⟩ :=
    handleIf_of_length_ne (by decide) (by decide) _
  have hregSend : regSendHandler signedChar (body number fromPid toPid reason) =
      ⟨[], .ok false⟩ :=
    handleIf_of_number_ne hnumber (by cases kind <;> decide) rfl
  rw [operationsChain, dispatchChain_of_false hsend, dispatchChain_of_false hregSend,
    dispatchChain_of_false hlink, dispatchChain_of_false hunlink]
  cases kind with
  | exit =>
    have hexit : exitHandler (body number fromPid toPid reason) = _ :=
      handleIf_exit hfrom hto hnumber
    have hexit2 : exit2Handler (body number fromPid toPid reason) = ⟨[], .ok false⟩ :=
      handleIf_of_number_ne hnumber (by decide) rfl
    rcases hread : atomExt reason [] with ⟨_ | rest, text⟩
    · rw [hread] at hexit
      rw [dispatchChain_of_false hexit, dispatchChain_of_false hexit2]
      rfl
    · rw [hread] at hexit
      simp only [dispatchChain, hexit]
      rfl
  | exit2 =>
    have hexit : exitHandler (body number fromPid toPid reason) = ⟨[], .ok false⟩ :=
      handleIf_of_number_ne hnumber (by decide) rfl
    have hexit2 : exit2Handler (body number fromPid toPid reason) = _ :=
      handleIf_exit hfrom hto hnumber
    rw [dispatchChain_of_false hexit]
    rcases hread : atomExt reason [] with ⟨_ | rest, text⟩
    · rw [hread] at hexit2
      rw [dispatchChain_of_false hexit2]
      rfl
    · rw [hread] at hexit2
      simp only [dispatchChain, hexit2]
      rfl

/-- A term with another tag is no atom. -/
theorem atomExt_of_tag_ne {reason : MsgSeq} (hreason : IsEncoding reason)
    (htag : reason.head? ≠ some TypeTag.atomExt) (suffix : MsgSeq) :
    atomExt (reason ++ suffix) [] = (none, []) := by
  obtain ⟨c, contents, rfl⟩ := List.exists_cons_of_ne_nil hreason.ne_nil
  have hc : c ≠ TypeTag.atomExt := fun h => htag (by rw [h, List.head?_cons])
  exact seq_of_none (lit_cons_of_ne hc _ _)

/-- A reason that is not an atom makes the operation an unsupported one, and nobody is told. -/
theorem unsupported (kind : ExitKind) (signedChar : Bool) {number : Term}
    (hnumber : number.Denotes kind.operation) {fromPid toPid : EPid} (hfrom : fromPid.InWireRange)
    (hto : toPid.InWireRange) {reason : MsgSeq} (hreason : IsEncoding reason)
    (htag : reason.head? ≠ some TypeTag.atomExt) (suffix : MsgSeq) :
    dispatchChain signedChar (operationsChain signedChar)
        (body number fromPid toPid reason ++ suffix) =
      unsupportedOperation signedChar (body number fromPid toPid reason ++ suffix) := by
  have hbody : body number fromPid toPid reason ++ suffix =
      body number fromPid toPid (reason ++ suffix) := by
    simp only [body, List.append_assoc]
  rw [hbody, dispatchChain_body kind signedChar hnumber hfrom hto,
    atomExt_of_tag_ne hreason htag]

/-- **An exit signal gets to the access exactly if its reason is an atom**, whatever the characters
are like, and whatever follows. -/
theorem delivered_iff (kind : ExitKind) (signedChar : Bool) {number : Term}
    (hnumber : number.Denotes kind.operation) {fromPid toPid : EPid} (hfrom : fromPid.InWireRange)
    (hto : toPid.InWireRange) {reason : MsgSeq} (hreason : IsEncoding reason) (suffix : MsgSeq) :
    kind.Delivered signedChar number fromPid toPid reason suffix ↔
      reason.head? = some TypeTag.atomExt := by
  constructor
  · rintro ⟨text, hdelivered⟩
    by_contra htag
    rw [unsupported kind signedChar hnumber hfrom hto hreason htag] at hdelivered
    exact absurd (congrArg Outcome.calls hdelivered) (by simp [unsupportedOperation,
      dispatchChain, Outcome.throw])
  · intro htag
    obtain ⟨name, hname, rfl⟩ := hreason.atom htag
    refine ⟨name, ?_⟩
    have hbody : body number fromPid toPid (atomExtG name) ++ suffix =
        body number fromPid toPid (atomExtG name ++ suffix) := by
      simp only [body, List.append_assoc]
    rw [hbody, dispatchChain_body kind signedChar hnumber hfrom hto,
      atomExt_atomExtG hname, List.nil_append]

/-- The first pids of two nodes. -/
theorem delivered_normal : ExitKind.exit.Delivered false (.smallInteger 3)
    ⟨bytesOf "a@h", 1, 0, 0⟩ ⟨bytesOf "b@h", 1, 0, 0⟩ (atomExtG (bytesOf "normal")) [] :=
  (delivered_iff .exit false (.inr ⟨3, by decide, rfl⟩) ⟨by decide, by decide⟩
    ⟨by decide, by decide⟩ (isEncoding_atomExtG (by decide)) []).mpr rfl

/-- A process has crashed with the reason `{badarith, []}`. -/
theorem not_delivered_crash :
    ¬ ExitKind.exit.Delivered false (.smallInteger 3) ⟨bytesOf "a@h", 1, 0, 0⟩
      ⟨bytesOf "b@h", 1, 0, 0⟩ (Term.tuple [.atom (bytesOf "badarith"), .list []]).enc [] := by
  have hwire : (Term.tuple [.atom (bytesOf "badarith"), .list []]).InWireRange :=
    ⟨by decide, show (bytesOf "badarith").length < 65536 by decide, ⟨by decide, trivial⟩, trivial⟩
  rintro ⟨text, hdelivered⟩
  rw [unsupported .exit false (.inr ⟨3, by decide, rfl⟩) ⟨by decide, by decide⟩
    ⟨by decide, by decide⟩ (Term.isEncoding hwire) (by decide)] at hdelivered
  exact absurd (congrArg Outcome.calls hdelivered) (by simp [unsupportedOperation,
    dispatchChain, Outcome.throw])

end ExitKind

end TinchPp
