import TinchPp.CtrlMsgDispatcher
import TinchPp.ErlAny

/-!
# Frames that are cut short

What `ctrl_msg_dispatcher::dispatch` does with any frame at all, and not only with those that the
builders make. The parts of a frame that are read by a parser are safe wherever the frame ends. But
`check_term_version` dereferences its iterator without looking whether there is a byte, once in the
header and once more in front of a payload.

Where a `char` is not signed, the byte 131 passes the version check, and the handlers get to see the
frame.

## Main results

* `makeETuple_accepts` — a tuple pattern matches the tuples of what its elements match, and nothing
  else
* `dispatch_safe_iff` — the frames that are dispatched without reading past their end, exactly
* `dispatch_not_safe_passThrough` — a frame of one byte is not one of them
-/

namespace TinchPp

open Wire

variable {σ : Type}

/-! ### What a pattern accepts -/

/-- The pattern matches exactly the terms in `P`, whatever follows them, and it never faults. -/
structure Object.Accepts (obj : Object σ) (P : Term → Prop) : Prop where
  reads : ∀ t, P t → ∀ s v, ∃ v', obj.matchFn (t.enc ++ s) v = some (true, s, v')
  only : ∀ f v rest v', obj.matchFn f v = some (true, rest, v') → ∃ t, P t ∧ f = t.enc ++ rest
  total : ∀ f v, obj.matchFn f v ≠ none

/-- The same of a parser. -/
structure ReadsTerms {α : Type} (p : Qi α) (P : Term → Prop) : Prop where
  reads : ∀ t, P t → ∀ s a, ∃ b, p (t.enc ++ s) a = (some s, b)
  only : ∀ f a rest b, p f a = (some rest, b) → ∃ t, P t ∧ f = t.enc ++ rest

section

variable {α : Type} {p : Qi α} {P : Term → Prop}

theorem ReadsTerms.assignMatched (h : ReadsTerms p P) (ser : MsgSeq) (toAssign : Pointer σ α) :
    Object.Accepts ⟨ser, assignMatched p toAssign⟩ P where
  reads t ht s v := by
    obtain ⟨b, hb⟩ := h.reads t ht s (toAssign.get v)
    exact ⟨toAssign.set b v, by simp only [TinchPp.assignMatched, binaryToTerm_of_some hb]⟩
  only f v rest v' hmatch := by
    simp only [TinchPp.assignMatched, Option.some.injEq, Prod.mk.injEq] at hmatch
    obtain ⟨htrue, hrest, -⟩ := hmatch
    exact h.only f (toAssign.get v) rest _
      (binaryToTerm_eq_true.mp (Prod.ext htrue (Prod.ext hrest rfl)))
  total f v := by simp [TinchPp.assignMatched]

theorem ReadsTerms.matchAny (h : ReadsTerms p P) (ser : MsgSeq) (ignore : α) (any : Any σ) :
    Object.Accepts ⟨ser, matchAny p ignore any⟩ P where
  reads t ht s v := by
    obtain ⟨b, hb⟩ := h.reads t ht s ignore
    refine ⟨any.saveMatchedBytes ((t.enc ++ s).take ((t.enc ++ s).length - s.length)) v, ?_⟩
    simp only [TinchPp.matchAny, binaryToTerm_of_some hb]
  only f v rest v' hmatch := by
    rw [matchAny_eq_matchAnyThrough] at hmatch
    obtain ⟨b, hread⟩ := rest_of_matchAnyThrough hmatch
    exact h.only f ignore rest b (binaryToTerm_eq_true.mp hread)
  total f v := by
    rw [matchAny_eq_matchAnyThrough]
    exact matchAnyThrough_ne_none f v

end

/-! ### The elements of a control tuple -/

/-- The terms that are read as the integer `n`. -/
def Term.Denotes (n : Int32) (t : Term) : Prop :=
  t = .integer n ∨ ∃ k : UInt8, k.toUInt32.toInt32 = n ∧ t = .smallInteger k

def Term.IsAtom (t : Term) : Prop := ∃ name : Str, name.length < 65536 ∧ t = .atom name

def Term.IsPid (t : Term) : Prop := ∃ p : EPid, p.InWireRange ∧ t = .pid p

theorem readsTerms_atomExt : ReadsTerms atomExt Term.IsAtom where
  reads t ht s a := by
    obtain ⟨name, hname, rfl⟩ := ht
    exact ⟨a ++ name, atomExt_atomExtG hname s a⟩
  only f a rest b hread := by
    obtain ⟨name, hname, rfl⟩ := atomExt_eq_some hread
    exact ⟨.atom name, ⟨name, hname, rfl⟩, rfl⟩

theorem readsTerms_pidExt : ReadsTerms pidExt Term.IsPid where
  reads t ht s a := by
    obtain ⟨p, hp, rfl⟩ := ht
    exact ⟨_, pidExt_append hp s a⟩
  only f a rest b hread := by
    obtain ⟨p, hp, rfl⟩ := pidExt_eq_some hread
    exact ⟨.pid p, ⟨p, hp, rfl⟩, rfl⟩

theorem Int_.accepts_ofValue (n : Int32) : (Int_.ofValue n : Object σ).Accepts (Term.Denotes n) where
  reads t ht s v := by
    have hread : integer (t.enc ++ s) 0 = (some s, n) := by
      rcases ht with rfl | ⟨k, rfl, rfl⟩
      · exact integer_of_integerExt n s 0
      · rw [Term.enc, TermLeaf.enc, integer_of_smallInteger, UInt8.ofNat_toNat]
    refine ⟨v, ?_⟩
    show matchValue integer 0 n (t.enc ++ s) v = _
    rw [matchValue_of_some hread, decide_eq_true rfl]
  only f v rest v' hmatch := by
    rcases hread : binaryToTerm integer f 0 with ⟨success, rest', m⟩
    simp only [ofValue, matchValue, hread, Option.some.injEq, Prod.mk.injEq, Bool.and_eq_true,
      decide_eq_true_eq] at hmatch
    obtain ⟨⟨rfl, rfl⟩, rfl, -⟩ := hmatch
    rcases integer_eq_some (binaryToTerm_eq_true.mp hread) with ⟨k, hk, rfl⟩ | rfl
    · exact ⟨.smallInteger k, .inr ⟨k, hk, rfl⟩, rfl⟩
    · exact ⟨.integer n, .inl rfl, rfl⟩
  total f v := by simp [ofValue, matchValue]

theorem Atom.accepts_ofPointer (toAssign : Pointer σ Str) :
    (Atom.ofPointer toAssign).Accepts Term.IsAtom :=
  readsTerms_atomExt.assignMatched _ toAssign

theorem Atom.accepts_ofAny (any : Any σ) : (Atom.ofAny any).Accepts Term.IsAtom :=
  readsTerms_atomExt.matchAny _ [] any

theorem Pid.accepts_ofPointer (toAssign : Pointer σ EPid) :
    (Pid.ofPointer toAssign).Accepts Term.IsPid :=
  readsTerms_pidExt.assignMatched _ toAssign

/-! ### Tuples -/

namespace ETuple

variable {objs : List (Object σ)} {Ps : List (Term → Prop)}

theorem matchAll_reads (h : List.Forall₂ Object.Accepts objs Ps) {ts : List Term}
    (hts : List.Forall₂ (fun P t => P t) Ps ts) (s : MsgSeq) (v : σ) :
    ∃ v', matchAll objs (Term.encAll ts ++ s) v = some (true, s, v') := by
  induction h generalizing ts v with
  | nil =>
    cases hts
    exact ⟨v, rfl⟩
  | cons hobj _ ih =>
    cases hts with
    | @cons _ t _ ts ht hts =>
      obtain ⟨v', hfirst⟩ := hobj.reads t ht (Term.encAll ts ++ s) v
      obtain ⟨v'', hothers⟩ := ih hts v'
      refine ⟨v'', ?_⟩
      rw [Term.encAll, List.append_assoc, matchAll, hfirst]
      exact hothers

theorem matchAll_only (h : List.Forall₂ Object.Accepts objs Ps) {f rest : MsgSeq} {v v' : σ}
    (hmatch : matchAll objs f v = some (true, rest, v')) :
    ∃ ts, List.Forall₂ (fun P t => P t) Ps ts ∧ f = Term.encAll ts ++ rest := by
  induction h generalizing f v with
  | nil =>
    obtain ⟨-, rfl, -⟩ : true = true ∧ f = rest ∧ v = v' := by simpa [matchAll] using hmatch
    exact ⟨[], .nil, rfl⟩
  | @cons obj _ _ _ hobj _ ih =>
    rcases hfirst : obj.matchFn f v with _ | ⟨_ | _, f', v''⟩
    · simp [matchAll, hfirst] at hmatch
    · simp [matchAll, hfirst] at hmatch
    · simp only [matchAll, hfirst] at hmatch
      obtain ⟨t, ht, rfl⟩ := hobj.only f v f' v'' hfirst
      obtain ⟨ts, hts, rfl⟩ := ih hmatch
      exact ⟨t :: ts, .cons ht hts, by rw [Term.encAll, List.append_assoc]⟩

theorem matchAll_total (h : List.Forall₂ Object.Accepts objs Ps) (f : MsgSeq) (v : σ) :
    matchAll objs f v ≠ none := by
  induction h generalizing f v with
  | nil => simp [matchAll]
  | @cons obj _ _ _ hobj _ ih =>
    rcases hfirst : obj.matchFn f v with _ | ⟨_ | _, f', v'⟩
    · exact absurd hfirst (hobj.total f v)
    · simp [matchAll, hfirst]
    · simp only [matchAll, hfirst]
      exact ih f' v'

/-- A head that announces another number of elements is passed, and that is all. -/
theorem matchFn_of_length_ne {n : ℕ} (hn : n < 256) (hne : objs.length ≠ n) (s : MsgSeq) (v : σ) :
    matchFn objs (smallTupleHeadG n ++ s) v = some (false, s, v) := by
  have hhead := binaryToTerm_of_some (smallTupleHeadExt_smallTupleHeadG hn s 0)
  simp [matchFn, hhead, hne]

theorem matchFn_of_length {n : ℕ} (hn : n < 256) (heq : objs.length = n) (s : MsgSeq) (v : σ) :
    matchFn objs (smallTupleHeadG n ++ s) v = matchAll objs s v := by
  have hhead := binaryToTerm_of_some (smallTupleHeadExt_smallTupleHeadG hn s 0)
  simp [matchFn, hhead, heq]

/-- Where there is no head, nothing is matched. -/
theorem matchFn_of_no_head {f : MsgSeq} {a : ℕ} (h : smallTupleHeadExt f 0 = (none, a)) (v : σ) :
    matchFn objs f v = some (false, f, v) := by
  simp [matchFn, binaryToTerm, h]

end ETuple

/-- The tuples of such terms. -/
def Term.IsTuple (Ps : List (Term → Prop)) (t : Term) : Prop :=
  ∃ ts, ts.length < 256 ∧ List.Forall₂ (fun P t => P t) Ps ts ∧ t = .tuple ts

/-- **A tuple pattern matches the tuples of what its elements match**, and nothing else. -/
theorem makeETuple_accepts {objs : List (Object σ)} {Ps : List (Term → Prop)}
    (h : List.Forall₂ Object.Accepts objs Ps) : (makeETuple objs).Accepts (Term.IsTuple Ps) where
  reads t ht s v := by
    obtain ⟨ts, hlen, hts, rfl⟩ := ht
    obtain ⟨v', hall⟩ := ETuple.matchAll_reads h hts s v
    refine ⟨v', ?_⟩
    show ETuple.matchFn objs ((Term.tuple ts).enc ++ s) v = some (true, s, v')
    rw [Term.enc, List.append_assoc,
      ETuple.matchFn_of_length hlen (h.length_eq.trans hts.length_eq), hall]
  only f v rest v' hmatch := by
    change ETuple.matchFn objs f v = _ at hmatch
    rcases hhead : smallTupleHeadExt f 0 with ⟨_ | f', n⟩
    · rw [ETuple.matchFn_of_no_head hhead] at hmatch
      simp at hmatch
    · obtain ⟨hn, rfl⟩ := smallTupleHeadExt_eq_some hhead
      by_cases hlen : objs.length = n
      · rw [ETuple.matchFn_of_length hn hlen] at hmatch
        obtain ⟨ts, hts, rfl⟩ := ETuple.matchAll_only h hmatch
        have hcount : ts.length = n := by
          rw [← hlen, h.length_eq, hts.length_eq]
        refine ⟨.tuple ts, ⟨ts, by rwa [hcount], hts, rfl⟩, ?_⟩
        rw [Term.enc, hcount, List.append_assoc]
      · rw [ETuple.matchFn_of_length_ne hn hlen] at hmatch
        simp at hmatch
  total f v := by
    show ETuple.matchFn objs f v ≠ none
    rcases hhead : smallTupleHeadExt f 0 with ⟨_ | f', n⟩
    · rw [ETuple.matchFn_of_no_head hhead]
      simp
    · obtain ⟨hn, rfl⟩ := smallTupleHeadExt_eq_some hhead
      by_cases hlen : objs.length = n
      · rw [ETuple.matchFn_of_length hn hlen]
        exact ETuple.matchAll_total h f' v
      · rw [ETuple.matchFn_of_length_ne hn hlen]
        simp

/-! ### The handlers, on any bytes -/

/-- How a handler may end: it leaves the operation to the next one, makes one call, or raises. -/
def Outcome.Ends (o : Outcome Bool) : Prop :=
  o = ⟨[], .ok false⟩ ∨ (∃ call, o = ⟨[call], .ok true⟩) ∨
    ∃ reason, o = .throw (.tinchPpException reason)

section

variable {operation : Int32} {elements : List (Object HandlerVars)} {P : Term → Prop}
  {act : HandlerVars → MsgSeq → Outcome Bool}

theorem handleIf_reads (h : (makeETuple (Int_.ofValue operation :: elements)).Accepts P)
    {t : Term} (ht : P t) (s : MsgSeq) :
    ∃ v, handleIf operation elements act (t.enc ++ s) = act v s := by
  obtain ⟨v, hmatch⟩ := h.reads t ht s .init
  exact ⟨v, by rw [handleIf, hmatch]⟩

theorem handleIf_ends (h : (makeETuple (Int_.ofValue operation :: elements)).Accepts P)
    {f : MsgSeq} (hact : ∀ t rest v, P t → f = t.enc ++ rest → (act v rest).Ends) :
    (handleIf operation elements act f).Ends := by
  rcases hmatch : (makeETuple (Int_.ofValue operation :: elements)).matchFn f .init with
    _ | ⟨_ | _, rest, v⟩
  · exact absurd hmatch (h.total f .init)
  · exact .inl (by rw [handleIf, hmatch])
  · obtain ⟨t, ht, hf⟩ := h.only f .init rest v hmatch
    have hhandle : handleIf operation elements act f = act v rest := by rw [handleIf, hmatch]
    rw [hhandle]
    exact hact t rest v ht hf

/-- A tuple of another length is left to the others. -/
theorem handleIf_of_length_ne {n : ℕ} (hn : n < 256) (hne : elements.length + 1 ≠ n)
    (s : MsgSeq) : handleIf operation elements act (smallTupleHeadG n ++ s) = ⟨[], .ok false⟩ := by
  have hlen : (Int_.ofValue operation :: elements).length ≠ n := by
    rwa [List.length_cons]
  have hmatch : (makeETuple (Int_.ofValue operation :: elements)).matchFn
      (smallTupleHeadG n ++ s) .init = some (false, s, .init) :=
    ETuple.matchFn_of_length_ne hn hlen s .init
  rw [handleIf, hmatch]

end

theorem checkTermVersion_cons (signedChar : Bool) (c : UInt8) (f : MsgSeq) :
    checkTermVersion signedChar (c :: f) = .error (erroneousTermVersion c) ∨
      checkTermVersion signedChar (c :: f) = .ok f := by
  rw [checkTermVersion]
  split
  · exact .inl rfl
  · exact .inr rfl

/-- A payload of a byte at least is looked at safely. -/
theorem deliverPayload_ends (signedChar : Bool) (call : MsgSeq → AccessCall) {f : MsgSeq}
    (hf : f ≠ []) : (deliverPayload signedChar call f).Ends := by
  obtain ⟨c, payload, rfl⟩ := List.exists_cons_of_ne_nil hf
  rcases checkTermVersion_cons signedChar c payload with hcheck | hcheck
  · exact .inr (.inr ⟨_, by rw [deliverPayload, hcheck]; rfl⟩)
  · exact .inr (.inl ⟨call payload, by rw [deliverPayload, hcheck]⟩)

/-- The control tuples of the two operations that have a payload. -/
def Term.IsSend : Term → Prop :=
  IsTuple [Denotes Constants.ctrlMsgSend, IsAtom, IsPid]

def Term.IsRegSend : Term → Prop :=
  IsTuple [Denotes Constants.ctrlMsgRegSend, IsPid, IsAtom, IsAtom]

section

open HandlerVars

theorem send_accepts : (makeETuple [Int_.ofValue Constants.ctrlMsgSend, Atom.ofAny any,
    Pid.ofPointer toPidPtr]).Accepts Term.IsSend :=
  makeETuple_accepts (.cons (Int_.accepts_ofValue _) (.cons (Atom.accepts_ofAny any)
    (.cons (Pid.accepts_ofPointer toPidPtr) .nil)))

theorem regSend_accepts : (makeETuple [Int_.ofValue Constants.ctrlMsgRegSend,
    Pid.ofPointer fromPidPtr, Atom.ofAny any, Atom.ofPointer toNamePtr]).Accepts Term.IsRegSend :=
  makeETuple_accepts (.cons (Int_.accepts_ofValue _) (.cons (Pid.accepts_ofPointer fromPidPtr)
    (.cons (Atom.accepts_ofAny any) (.cons (Atom.accepts_ofPointer toNamePtr) .nil))))

theorem linkage_accepts (operation : Int32) : (makeETuple [Int_.ofValue operation,
    Pid.ofPointer fromPidPtr, Pid.ofPointer toPidPtr]).Accepts
      (Term.IsTuple [Term.Denotes operation, Term.IsPid, Term.IsPid]) :=
  makeETuple_accepts (.cons (Int_.accepts_ofValue _) (.cons (Pid.accepts_ofPointer fromPidPtr)
    (.cons (Pid.accepts_ofPointer toPidPtr) .nil)))

theorem exit_accepts (operation : Int32) : (makeETuple [Int_.ofValue operation,
    Pid.ofPointer fromPidPtr, Pid.ofPointer toPidPtr, Atom.ofPointer reasonPtr]).Accepts
      (Term.IsTuple [Term.Denotes operation, Term.IsPid, Term.IsPid, Term.IsAtom]) :=
  makeETuple_accepts (.cons (Int_.accepts_ofValue _) (.cons (Pid.accepts_ofPointer fromPidPtr)
    (.cons (Pid.accepts_ofPointer toPidPtr) (.cons (Atom.accepts_ofPointer reasonPtr) .nil))))

end

/-- Every handler ends well, unless the frame ends right behind a control tuple that has a
payload. -/
theorem operationsChain_ends (signedChar : Bool) {f : MsgSeq}
    (h : ¬ ∃ t : Term, (t.IsSend ∨ t.IsRegSend) ∧ f = t.enc) :
    ∀ handle ∈ operationsChain signedChar, (handle f).Ends := by
  have hpayload {t : Term} {rest : MsgSeq} (ht : t.IsSend ∨ t.IsRegSend) (hf : f = t.enc ++ rest) :
      rest ≠ [] := by
    rintro rfl
    exact h ⟨t, ht, by rw [hf, List.append_nil]⟩
  intro handle hmem
  simp only [operationsChain, List.mem_cons, List.not_mem_nil, or_false] at hmem
  rcases hmem with rfl | rfl | rfl | rfl | rfl | rfl
  · exact handleIf_ends send_accepts fun t rest v ht hf =>
      deliverPayload_ends signedChar _ (hpayload (.inl ht) hf)
  · exact handleIf_ends regSend_accepts fun t rest v ht hf =>
      deliverPayload_ends signedChar _ (hpayload (.inr ht) hf)
  · exact handleIf_ends (linkage_accepts _) fun _ _ _ _ _ => .inr (.inl ⟨_, rfl⟩)
  · exact handleIf_ends (linkage_accepts _) fun _ _ _ _ _ => .inr (.inl ⟨_, rfl⟩)
  · exact handleIf_ends (exit_accepts _) fun _ _ _ _ _ => .inr (.inl ⟨_, rfl⟩)
  · exact handleIf_ends (exit_accepts _) fun _ _ _ _ _ => .inr (.inl ⟨_, rfl⟩)

/-! ### The dispatcher, on any frame -/

/-- Dispatching ends with one call on the access, or it raises. -/
def Outcome.Safe (o : Outcome Unit) : Prop :=
  (∃ call, o = ⟨[call], .ok ()⟩) ∨ ∃ reason, o = .throw (.tinchPpException reason)

theorem dispatchChain_safe (signedChar : Bool) {handlers : List OperationHandler} {f : MsgSeq}
    (h : ∀ handle ∈ handlers, (handle f).Ends) : (dispatchChain signedChar handlers f).Safe := by
  induction handlers with
  | nil => exact .inr ⟨_, rfl⟩
  | cons handle next ih =>
    obtain ⟨hhandle, hnext⟩ := List.forall_mem_cons.mp h
    rcases hhandle with hpass | ⟨call, hcall⟩ | ⟨reason, hraised⟩
    · simp only [dispatchChain, hpass, List.nil_append]
      exact ih hnext
    · exact .inl ⟨call, by simp only [dispatchChain, hcall]⟩
    · exact .inr ⟨reason, by simp only [dispatchChain, hraised, Outcome.throw]⟩

theorem not_safe_of_undefinedBehaviour {o : Outcome Unit}
    (h : o.result = .error .undefinedBehaviour) : ¬ o.Safe := by
  rintro (⟨call, rfl⟩ | ⟨reason, rfl⟩)
  · cases h
  · cases h

/-- A control tuple with nothing behind it is recognised, and then the version of a payload is read
that is not there. -/
theorem dispatchChain_not_safe (signedChar : Bool) {t : Term} (ht : t.IsSend ∨ t.IsRegSend) :
    ¬ (dispatchChain signedChar (operationsChain signedChar) t.enc).Safe := by
  refine not_safe_of_undefinedBehaviour ?_
  rcases ht with hsend | hregSend
  · obtain ⟨v, hhandle⟩ : ∃ v, sendHandler signedChar (t.enc ++ []) = _ :=
      handleIf_reads send_accepts hsend []
    rw [List.append_nil] at hhandle
    rw [operationsChain, dispatchChain, hhandle]
    rfl
  · obtain ⟨v, hhandle⟩ : ∃ v, regSendHandler signedChar (t.enc ++ []) = _ :=
      handleIf_reads regSend_accepts hregSend []
    -- the tuple has an element too many for the handler in front
    have hother : sendHandler signedChar t.enc = ⟨[], .ok false⟩ := by
      obtain ⟨ts, hlen, hts, rfl⟩ := hregSend
      have hcount : 4 = ts.length := hts.length_eq
      exact handleIf_of_length_ne hlen (by rw [← hcount]; decide) _
    rw [List.append_nil] at hhandle
    rw [operationsChain, dispatchChain, hother, dispatchChain, hhandle]
    rfl

/-- The frame is cut right behind the pass-through byte. Or it is cut behind a control tuple that
has a payload, and the characters are unsigned, so that the tuple is looked at. -/
def Truncated (signedChar : Bool) (content : MsgSeq) : Prop :=
  content = [narrow Constants.passThrough] ∨
    signedChar = false ∧ ∃ t : Term, (t.IsSend ∨ t.IsRegSend) ∧ content = addMessageHeader ++ t.enc

/-- The header, by its first bytes. -/
theorem parseHeader_frame (signedChar : Bool) (size : ℕ) (content : MsgSeq) :
    (∃ reason, parseHeader signedChar (bigDwordG size ++ content) =
        .error (.tinchPpException reason) ∧ content.head? ≠ some (narrow Constants.passThrough)) ∨
      ∃ first, content = narrow Constants.passThrough :: first ∧
        parseHeader signedChar (bigDwordG size ++ content) =
          checkTermVersion signedChar first := by
  have hsize : omit_ bigDword 0 (bigDwordG size ++ content) () = (some content, ()) := by
    have hread : bigDword (bigDwordG size ++ content) 0 = (some content, _) := rfl
    exact omit_of_some hread
  rw [parseHeader, seq_of_some hsize]
  cases content with
  | nil => exact .inl ⟨_, rfl, by simp⟩
  | cons c first =>
    by_cases hc : c = narrow Constants.passThrough
    · rw [hc, lit_cons_self]
      exact .inr ⟨first, rfl, rfl⟩
    · rw [lit_cons_of_ne hc]
      exact .inl ⟨_, rfl, by simpa using hc⟩

/-- **The frames that are dispatched safely** are those that are not cut short in one of these
ways. -/
theorem dispatch_safe_iff (signedChar : Bool) (size : ℕ) (content : MsgSeq) :
    (dispatch signedChar (bigDwordG size ++ content)).Safe ↔ ¬ Truncated signedChar content := by
  rcases parseHeader_frame signedChar size content with
    ⟨reason, hheader, hhead⟩ | ⟨first, rfl, hheader⟩
  · -- no pass-through byte
    have htruncated : ¬ Truncated signedChar content := by
      rintro (rfl | ⟨-, t, -, rfl⟩)
      · exact hhead rfl
      · exact hhead rfl
    refine iff_of_true (.inr ⟨reason, ?_⟩) htruncated
    rw [dispatch, hheader]
  · cases first with
    | nil =>
      refine iff_of_false (not_safe_of_undefinedBehaviour ?_) (not_not_intro (.inl rfl))
      rw [dispatch, hheader]
      rfl
    | cons c f =>
      by_cases hversion : Constants.magicVersion = promoteOn signedChar c
      · -- the version check is passed
        cases signedChar with
        | true => exact absurd hversion (magicVersion_ne_promote c)
        | false =>
          obtain rfl := (magicVersion_eq_promoteOn c).mp hversion
          have hdispatch : dispatch false (bigDwordG size ++ narrow Constants.passThrough ::
              narrow Constants.magicVersion :: f) =
                dispatchChain false (operationsChain false) f := by
            rw [dispatch, hheader, checkTermVersion, if_neg (not_not_intro hversion)]
          have htruncated : Truncated false (narrow Constants.passThrough ::
              narrow Constants.magicVersion :: f) ↔
                ∃ t : Term, (t.IsSend ∨ t.IsRegSend) ∧ f = t.enc := by
            simp [Truncated, addMessageHeader]
          rw [hdispatch, htruncated]
          constructor
          · rintro hsafe ⟨t, ht, rfl⟩
            exact dispatchChain_not_safe false ht hsafe
          · intro hall
            exact dispatchChain_safe false (operationsChain_ends false hall)
      · obtain ⟨reason, hreason⟩ : ∃ reason, erroneousTermVersion c = .tinchPpException reason :=
          ⟨_, rfl⟩
        refine iff_of_true (.inr ⟨reason, ?_⟩) ?_
        · rw [dispatch, hheader, checkTermVersion, if_pos hversion, hreason]
        · rintro (hshort | ⟨rfl, t, -, hframe⟩)
          · simp at hshort
          · have hc : c = narrow Constants.magicVersion := by
              simp only [addMessageHeader, List.cons_append, List.nil_append, List.cons.injEq,
                true_and] at hframe
              exact hframe.1
            exact hversion ((magicVersion_eq_promoteOn c).mpr hc)

/-- A frame of one byte, the right one. -/
theorem dispatch_not_safe_passThrough :
    ¬ (dispatch true (bigDwordG 1 ++ [narrow Constants.passThrough])).Safe ∧
      ¬ (dispatch false (bigDwordG 1 ++ [narrow Constants.passThrough])).Safe :=
  ⟨not_safe_of_undefinedBehaviour rfl, not_safe_of_undefinedBehaviour rfl⟩

end TinchPp
