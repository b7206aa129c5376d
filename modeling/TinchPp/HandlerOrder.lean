import TinchPp.DispatchSafety

/-!
# The order of the handlers

A frame is offered to one handler after the other, until one of them recognises its operation. Each
handler wants another number at the front of the control tuple, in either of its two encodings, so
that no frame is recognised by two of them. Which handler comes first does not matter then: the
chain does what the one does that recognises the frame, or rejects the frame if none does.

Whatever it is that a handler raises, it raises before it makes its call.

## Main results

* `OperationKind.eq_of_recognises` — one handler at most recognises a frame
* `OperationKind.dispatchChain_of_recognises` — and then the others do not matter
* `one_operation` — so a frame triggers at most one operation, whatever the order of the handlers
-/

namespace TinchPp

open Wire

/-- The operations of the distribution that have a handler. -/
inductive OperationKind
  | send
  | regSend
  | link
  | unlink
  | exit
  | exit2
deriving DecidableEq, Repr

namespace OperationKind

open HandlerVars

/-- In the order of the chain. -/
def all : List OperationKind := [send, regSend, link, unlink, exit, exit2]

theorem mem_all (kind : OperationKind) : kind ∈ all := by
  cases kind <;> decide

def number : OperationKind → Int32
  | send => Constants.ctrlMsgSend
  | regSend => Constants.ctrlMsgRegSend
  | link => Constants.ctrlMsgLink
  | unlink => Constants.ctrlMsgUnlink
  | exit => Constants.ctrlMsgExit
  | exit2 => Constants.ctrlMsgExit2

/-- What a handler wants behind the number of its operation. -/
def elements : OperationKind → List (Object HandlerVars)
  | send => [Atom.ofAny any, Pid.ofPointer toPidPtr]
  | regSend => [Pid.ofPointer fromPidPtr, Atom.ofAny any, Atom.ofPointer toNamePtr]
  | link => [Pid.ofPointer fromPidPtr, Pid.ofPointer toPidPtr]
  | unlink => [Pid.ofPointer fromPidPtr, Pid.ofPointer toPidPtr]
  | exit => [Pid.ofPointer fromPidPtr, Pid.ofPointer toPidPtr, Atom.ofPointer reasonPtr]
  | exit2 => [Pid.ofPointer fromPidPtr, Pid.ofPointer toPidPtr, Atom.ofPointer reasonPtr]

def handler (signedChar : Bool) : OperationKind → OperationHandler
  | send => sendHandler signedChar
  | regSend => regSendHandler signedChar
  | link => linkHandler
  | unlink => unlinkHandler
  | exit => exitHandler
  | exit2 => exit2Handler

/-- What a handler does with an operation that it has recognised. -/
def act (signedChar : Bool) : OperationKind → HandlerVars → MsgSeq → Outcome Bool
  | send, v, f => deliverPayload signedChar (fun payload => .deliverReceivedPid payload v.toPid) f
  | regSend, v, f =>
    deliverPayload signedChar (fun payload => .deliverReceivedName payload v.toName) f
  | link, v, _ => ⟨[.requestLink v.fromPid v.toPid], .ok true⟩
  | unlink, v, _ => ⟨[.requestUnlink v.fromPid v.toPid], .ok true⟩
  | exit, v, _ => ⟨[.requestExit v.fromPid v.toPid v.reason], .ok true⟩
  | exit2, v, _ => ⟨[.requestExit2 v.fromPid v.toPid v.reason], .ok true⟩

theorem handler_eq (signedChar : Bool) (kind : OperationKind) :
    kind.handler signedChar = handleIf kind.number kind.elements (kind.act signedChar) := by
  cases kind <;> rfl

theorem map_handler_all (signedChar : Bool) :
    all.map (handler signedChar) = operationsChain signedChar := rfl

theorem number_injective : Function.Injective number := by
  intro kind kind' h
  cases kind <;> cases kind' <;> first | rfl | exact absurd h (by decide)

/-- The handler takes the frame for one of its operation: its pattern matches. -/
def Recognises (kind : OperationKind) (f : MsgSeq) : Prop :=
  ∃ rest v, (makeETuple (Int_.ofValue kind.number :: kind.elements)).matchFn f init =
    some (true, rest, v)

/-! ### One handler at most -/

/-- What is recognised is a tuple, and its first element is read as the number of the operation. -/
theorem Recognises.integer {kind : OperationKind} {f : MsgSeq} (h : kind.Recognises f) :
    ∃ f' rest n, smallTupleHeadExt f 0 = (some f', n) ∧ integer f' 0 = (some rest, kind.number) := by
  obtain ⟨rest, v, hmatch⟩ := h
  simp only [makeETuple, ETuple.matchFn] at hmatch
  rcases hhead : binaryToTerm smallTupleHeadExt f 0 with ⟨success, f', n⟩
  rw [hhead] at hmatch
  dsimp only at hmatch
  split at hmatch
  · next hsuccess =>
    obtain ⟨rfl, -⟩ : success = true ∧ _ := by simpa using hsuccess
    rcases hread : binaryToTerm TinchPp.integer f' 0 with ⟨success', rest', m⟩
    simp only [ETuple.matchAll, Int_.ofValue, matchValue, hread] at hmatch
    refine ⟨f', rest', n, binaryToTerm_eq_true.mp hhead, ?_⟩
    rcases hequal : success' && decide (kind.number = m) with _ | _
    · rw [hequal] at hmatch
      simp at hmatch
    · obtain ⟨rfl, rfl⟩ : success' = true ∧ kind.number = m := by simpa using hequal
      exact binaryToTerm_eq_true.mp hread
  · simp at hmatch

/-- **One handler at most recognises a frame.** -/
theorem eq_of_recognises {kind kind' : OperationKind} {f : MsgSeq} (h : kind.Recognises f)
    (h' : kind'.Recognises f) : kind = kind' := by
  obtain ⟨f₁, rest, n, hhead, hread⟩ := h.integer
  obtain ⟨f₂, rest', n', hhead', hread'⟩ := h'.integer
  obtain ⟨hf, -⟩ := Prod.mk.inj (hhead.symm.trans hhead')
  obtain rfl := Option.some_inj.mp hf
  exact number_injective (Prod.mk.inj (hread.symm.trans hread')).2

/-! ### What a handler does -/

/-- The handlers never fault in their patterns. -/
theorem matchFn_ne_none (kind : OperationKind) (f : MsgSeq) :
    (makeETuple (Int_.ofValue kind.number :: kind.elements)).matchFn f init ≠ none := by
  cases kind with
  | send => exact send_accepts.total f init
  | regSend => exact regSend_accepts.total f init
  | link => exact (linkage_accepts _).total f init
  | unlink => exact (linkage_accepts _).total f init
  | exit => exact (exit_accepts _).total f init
  | exit2 => exact (exit_accepts _).total f init

/-- A handler that has recognised a frame does not leave it to the others, and raises instead of its
call, if at all. -/
structure Concludes (o : Outcome Bool) : Prop where
  result_ne : o.result ≠ .ok false
  calls_of_error : ∀ e, o.result = .error e → o.calls = []

theorem concludes_deliverPayload (signedChar : Bool) (call : MsgSeq → AccessCall) (f : MsgSeq) :
    Concludes (deliverPayload signedChar call f) := by
  rw [deliverPayload]
  split
  · exact ⟨by rintro ⟨⟩, fun _ _ => rfl⟩
  · exact ⟨by rintro ⟨⟩, by rintro e ⟨⟩⟩

theorem concludes_call (call : AccessCall) : Concludes ⟨[call], .ok true⟩ :=
  ⟨by rintro ⟨⟩, by rintro e ⟨⟩⟩

theorem concludes_act (signedChar : Bool) (kind : OperationKind) (v : HandlerVars) (f : MsgSeq) :
    Concludes (kind.act signedChar v f) := by
  cases kind with
  | send => exact concludes_deliverPayload signedChar _ f
  | regSend => exact concludes_deliverPayload signedChar _ f
  | link => exact concludes_call _
  | unlink => exact concludes_call _
  | exit => exact concludes_call _
  | exit2 => exact concludes_call _

theorem Recognises.concludes {kind : OperationKind} {f : MsgSeq} (h : kind.Recognises f)
    (signedChar : Bool) : Concludes (kind.handler signedChar f) := by
  obtain ⟨rest, v, hmatch⟩ := h
  rw [handler_eq, handleIf, hmatch]
  exact concludes_act signedChar kind v rest

theorem handler_of_not_recognises (signedChar : Bool) {kind : OperationKind} {f : MsgSeq}
    (h : ¬ kind.Recognises f) : kind.handler signedChar f = ⟨[], .ok false⟩ := by
  rw [handler_eq, handleIf]
  rcases hmatch : (makeETuple (Int_.ofValue kind.number :: kind.elements)).matchFn f init with
    _ | ⟨_ | _, rest, v⟩
  · exact absurd hmatch (kind.matchFn_ne_none f)
  · rfl
  · exact absurd ⟨rest, v, hmatch⟩ h

/-! ### The chain, in any order -/

/-- **The handler that recognises a frame decides**, wherever it is in the chain. -/
theorem dispatchChain_of_recognises (signedChar : Bool) {kind : OperationKind} {f : MsgSeq}
    (h : kind.Recognises f) {kinds : List OperationKind} (hmem : kind ∈ kinds) :
    dispatchChain signedChar (kinds.map (handler signedChar)) f =
      dispatchChain signedChar [kind.handler signedChar] f := by
  induction kinds with
  | nil => cases hmem
  | cons first next ih =>
    by_cases hfirst : first = kind
    · subst hfirst
      have hne := (h.concludes signedChar).result_ne
      rcases hhandle : first.handler signedChar f with ⟨calls, _ | _ | _⟩
      · simp [dispatchChain, hhandle]
      · rw [hhandle] at hne
        exact absurd rfl hne
      · simp [dispatchChain, hhandle]
    · have hnot : ¬ first.Recognises f := fun hrec => hfirst (eq_of_recognises hrec h)
      have hnext : kind ∈ next := by
        rcases List.mem_cons.mp hmem with heq | hnext
        · exact absurd heq.symm hfirst
        · exact hnext
      rw [List.map_cons, dispatchChain_of_false (handler_of_not_recognises signedChar hnot)]
      exact ih hnext

/-- A frame that none recognises gets to the end of the chain. -/
theorem dispatchChain_of_none (signedChar : Bool) {f : MsgSeq} {kinds : List OperationKind}
    (h : ∀ kind ∈ kinds, ¬ kind.Recognises f) :
    dispatchChain signedChar (kinds.map (handler signedChar)) f =
      dispatchChain signedChar [] f := by
  induction kinds with
  | nil => rfl
  | cons first next ih =>
    obtain ⟨hfirst, hnext⟩ := List.forall_mem_cons.mp h
    rw [List.map_cons, dispatchChain_of_false (handler_of_not_recognises signedChar hfirst)]
    exact ih hnext

theorem dispatchChain_perm (signedChar : Bool) (f : MsgSeq) {kinds : List OperationKind}
    (h : kinds.Perm all) : dispatchChain signedChar (kinds.map (handler signedChar)) f =
      dispatchChain signedChar (operationsChain signedChar) f := by
  rw [← map_handler_all]
  by_cases hrec : ∃ kind : OperationKind, kind.Recognises f
  · obtain ⟨kind, hkind⟩ := hrec
    rw [dispatchChain_of_recognises signedChar hkind (h.mem_iff.mpr kind.mem_all),
      dispatchChain_of_recognises signedChar hkind kind.mem_all]
  · have hnone : ∀ kind : OperationKind, ¬ kind.Recognises f := fun kind hkind => hrec ⟨kind, hkind⟩
    rw [dispatchChain_of_none signedChar fun kind _ => hnone kind,
      dispatchChain_of_none signedChar fun kind _ => hnone kind]

theorem calls_of_error (signedChar : Bool) {f : MsgSeq} {e : DispatchError}
    (h : (dispatchChain signedChar (operationsChain signedChar) f).result = .error e) :
    (dispatchChain signedChar (operationsChain signedChar) f).calls = [] := by
  rw [← map_handler_all] at h ⊢
  by_cases hrec : ∃ kind : OperationKind, kind.Recognises f
  · obtain ⟨kind, hkind⟩ := hrec
    rw [dispatchChain_of_recognises signedChar hkind kind.mem_all] at h ⊢
    have hconcludes := hkind.concludes signedChar
    rcases hhandle : kind.handler signedChar f with ⟨calls, _ | _ | _⟩
    · rw [hhandle] at hconcludes
      simpa [dispatchChain, hhandle] using hconcludes.calls_of_error _ rfl
    · rw [hhandle] at hconcludes
      exact absurd rfl hconcludes.result_ne
    · simp [dispatchChain, hhandle] at h
  · have hnone : ∀ kind ∈ all, ¬ kind.Recognises f := fun kind _ hkind => hrec ⟨kind, hkind⟩
    rw [dispatchChain_of_none signedChar hnone]
    rfl

end OperationKind

/-- **A frame triggers at most one operation, whatever the order of the handlers**; and where the
dispatcher raises, it has made no call. -/
theorem one_operation (signedChar : Bool) :
    (∀ (f : MsgSeq) (kind kind' : OperationKind), kind.Recognises f → kind'.Recognises f →
      kind = kind') ∧
    (∀ (f : MsgSeq) (kinds : List OperationKind), kinds.Perm OperationKind.all →
      dispatchChain signedChar (kinds.map (OperationKind.handler signedChar)) f =
        dispatchChain signedChar (operationsChain signedChar) f) ∧
    ∀ (msg : MsgSeq) (e : DispatchError), (dispatch signedChar msg).result = .error e →
      (dispatch signedChar msg).calls = [] := by
  refine ⟨fun f kind kind' => OperationKind.eq_of_recognises,
    fun f kinds => OperationKind.dispatchChain_perm signedChar f, fun msg e h => ?_⟩
  rw [dispatch] at h ⊢
  split
  · rfl
  · next first hheader =>
    rw [hheader] at h
    exact OperationKind.calls_of_error signedChar h

end TinchPp
