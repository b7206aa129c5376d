import TinchPp.MessagePlaces

/-!
# Sound patterns

A pattern is sound if it has eaten where it has matched, and does not fault where no bad place can
be reached. What has a parser of its own is sound since parsers are regular. Tuples and lists are
sound if their elements are.

## Main results

* `From.sound`, `sound_float`, `sound_string`, … — the patterns that are not made of others
* `sound_makeETuple`, `sound_list`, `sound_intList`, … — tuples and lists
-/

namespace TinchPp

open Wire

variable {σ : Type} {f g h rest : MsgSeq} {n k : ℕ}

/-! ### Sound patterns -/

/-- A pattern that matches has eaten, and it does not fault where no bad place can be reached. -/
structure Object.Sound (format : FloatFormat) (ndebug : Bool) (obj : Object σ) : Prop where
  eats : ∀ f v rest v', obj.matchFn f v = some (true, rest, v') → Eats false f rest
  safe : ∀ f v, Harmless format ndebug f → obj.matchFn f v ≠ none

variable {format : FloatFormat} {ndebug : Bool}

section

variable {α : Type} {p : Qi α} {read : MsgSeq → α → Bool × MsgSeq × α}

theorem rest_of_binaryToTerm {f rest : MsgSeq} {a b : α}
    (h : binaryToTerm p f a = (true, rest, b)) : (p f a).1 = some rest := by
  rw [binaryToTerm_eq_true.mp h]

theorem sound_matchValue [DecidableEq α] {res : α} (ser : MsgSeq) (val : α)
    (hleaf : ∀ f rest, (p f res).1 = some rest → Leaf f rest) :
    Object.Sound format ndebug (⟨ser, matchValue p res val⟩ : Object σ) where
  eats f v rest v' h := by
    rcases hread : binaryToTerm p f res with ⟨success, rest', b⟩
    simp only [matchValue, hread, Option.some.injEq, Prod.mk.injEq, Bool.and_eq_true] at h
    obtain ⟨⟨rfl, -⟩, rfl, -⟩ := h
    exact .leaf (hleaf f rest' (rest_of_binaryToTerm hread))
  safe f v _ := by simp [matchValue]

theorem sound_assignThrough (ser : MsgSeq) (toAssign : Pointer σ α)
    (heats : ∀ f a rest b, read f a = (true, rest, b) → Eats false f rest) :
    Object.Sound format ndebug ⟨ser, assignThrough read toAssign⟩ where
  eats f v rest v' h := by
    rcases hread : read f (toAssign.get v) with ⟨success, rest', b⟩
    simp only [assignThrough, hread, Option.some.injEq, Prod.mk.injEq] at h
    obtain ⟨rfl, rfl, -⟩ := h
    exact heats f _ rest' b hread
  safe f v _ := by simp [assignThrough]

theorem sound_matchAnyThrough {ignore : α} (ser : MsgSeq) (any : Any σ)
    (heats : ∀ f rest b, read f ignore = (true, rest, b) → Eats false f rest) :
    Object.Sound format ndebug ⟨ser, matchAnyThrough read ignore any⟩ where
  eats f v rest v' h := by
    obtain ⟨b, hread⟩ := rest_of_matchAnyThrough h
    exact heats f rest b hread
  safe f v _ := matchAnyThrough_ne_none f v

theorem sound_assignMatched {a : α} (hp : Regular p) (ser : MsgSeq) (toAssign : Pointer σ α)
    (hleaf : ∀ f rest, (p f a).1 = some rest → Leaf f rest) :
    Object.Sound format ndebug ⟨ser, assignMatched p toAssign⟩ := by
  rw [assignMatched_eq_assignThrough]
  refine sound_assignThrough ser toAssign fun f a' rest b hread => ?_
  exact .leaf (hleaf f rest ((hp.oblivious f a a').trans (rest_of_binaryToTerm hread)))

theorem sound_matchAny {ignore : α} (ser : MsgSeq) (any : Any σ)
    (hleaf : ∀ f rest, (p f ignore).1 = some rest → Leaf f rest) :
    Object.Sound format ndebug ⟨ser, matchAny p ignore any⟩ := by
  rw [matchAny_eq_matchAnyThrough]
  exact sound_matchAnyThrough ser any fun f rest b hread =>
    .leaf (hleaf f rest (rest_of_binaryToTerm hread))

/-- The three patterns of a class that has one parser. -/
theorem From.sound [DecidableEq α] {res : α} (hp : Regular p)
    (hleaf : ∀ f rest, (p f res).1 = some rest → Leaf f rest) (ser : α → MsgSeq) (a : α)
    (arg : From σ α) : (arg.toObject (fun val => ⟨ser val, matchValue p res val⟩)
      (fun toAssign => ⟨ser a, assignMatched p toAssign⟩)
      (fun any => ⟨ser a, matchAny p res any⟩)).Sound format ndebug := by
  cases arg with
  | value val => exact sound_matchValue (ser val) val hleaf
  | pointer toAssign => exact sound_assignMatched hp (ser a) toAssign hleaf
  | any any => exact sound_matchAny (ser a) any hleaf

end

theorem sound_int (arg : From σ Int32) : arg.toIntObject.toObject.Sound format ndebug := by
  cases arg with
  | value val => exact sound_matchValue _ val fun _ _ => .integer
  | pointer toAssign => exact sound_assignMatched regular_integer _ toAssign fun _ _ => .integer
  | any any => exact sound_matchAny _ any fun _ _ => .integer

theorem sound_atom (arg : From σ Str) :
    (arg.toObject Atom.ofValue Atom.ofPointer Atom.ofAny).Sound format ndebug :=
  From.sound regular_atomExt (fun _ _ => .atom) atomExtG [] arg

theorem sound_pid (arg : From σ EPid) :
    (arg.toObject Pid.ofValue Pid.ofPointer Pid.ofAny).Sound format ndebug :=
  From.sound regular_pidExt (fun _ _ => .pid) pidExtG .invalid arg

theorem sound_ref (arg : From σ NewReferenceType) :
    (arg.toObject Ref.ofValue Ref.ofPointer Ref.ofAny).Sound format ndebug :=
  From.sound regular_newReferenceExtP (fun _ _ => .ref) newReferenceExtG .invalid arg

/-! ### Binaries -/

theorem leaf_of_binary {f rest : MsgSeq} {res b : BinaryValueType}
    (h : Binary.read f res = (true, rest, b)) : Leaf f rest := by
  rcases hfirst : binaryToTerm binaryExt f res.value with ⟨_ | _, f', value⟩
  · have hf' : f' = f := by
      rcases hp : binaryExt f res.value with ⟨_ | rest', b'⟩
      · simp only [binaryToTerm, hp, Prod.mk.injEq, true_and] at hfirst
        exact hfirst.1.symm
      · simp [binaryToTerm, hp] at hfirst
    simp only [Binary.read, hfirst] at h
    rw [hf'] at h
    exact .bitBinary ((regular_bitBinaryExt.oblivious f .empty _).trans (rest_of_binaryToTerm h))
  · simp only [Binary.read, hfirst, Prod.mk.injEq, true_and] at h
    rw [← h.1]
    exact .binary ((regular_binaryExt.oblivious f [] _).trans (rest_of_binaryToTerm hfirst))

theorem suffix_read (f : MsgSeq) (res : BinaryValueType) : (Binary.read f res).2.1 <:+ f := by
  have hfirst := suffix_binaryToTerm regular_binaryExt f res.value
  rw [Binary.read]
  generalize binaryToTerm binaryExt f res.value = r at hfirst ⊢
  rcases r with ⟨_ | _, f', value⟩
  · exact (suffix_binaryToTerm regular_bitBinaryExt f' _).trans hfirst
  · exact hfirst

theorem sound_binary (arg : From σ BinaryValueType) :
    (arg.toObject Binary.ofValue Binary.ofPointer Binary.ofAny).Sound format ndebug := by
  have heats (f : MsgSeq) (a : BinaryValueType) (rest : MsgSeq) (b : BinaryValueType)
      (h : Binary.read f a = (true, rest, b)) : Eats false f rest := .leaf (leaf_of_binary h)
  cases arg with
  | value val =>
    refine ⟨fun f v rest v' h => ?_, fun f v _ => by simp [From.toObject, Binary.ofValue]⟩
    rcases hread : Binary.read f .empty with ⟨success, rest', b⟩
    simp only [From.toObject, Binary.ofValue, hread, Option.some.injEq, Prod.mk.injEq,
      Bool.and_eq_true] at h
    obtain ⟨⟨rfl, -⟩, rfl, -⟩ := h
    exact heats f .empty rest' b hread
  | pointer toAssign => exact sound_assignThrough _ toAssign heats
  | any any => exact sound_matchAnyThrough _ any fun f => heats f .empty

/-! ### Floats -/

/-- Where a float is read that is not a number, with assertions. -/
theorem bad_of_float {f rest digits : MsgSeq}
    (hread : binaryToTerm floatExt f [] = (true, rest, digits))
    (hdecode : Float_.decodeFloat format ndebug digits = none) : Bad format ndebug f := by
  obtain ⟨f', a, hlit, hchars⟩ := seq_eq_some.mp (binaryToTerm_eq_true.mp hread)
  obtain ⟨rfl, rfl⟩ := lit_eq_some.mp hlit
  obtain ⟨digits, hlen, rfl, rfl⟩ := chars_eq_some.mp hchars
  rcases hscan : format.scan (Float_.cStr digits) with _ | decoded
  · cases ndebug with
    | false => exact .inr ⟨rfl, .inr (.inr ⟨digits, rest, hlen, rfl, hscan⟩)⟩
    | true => simp [Float_.decodeFloat, hscan] at hdecode
  · simp [Float_.decodeFloat, hscan] at hdecode

theorem float_read_cases (format : FloatFormat) (ndebug : Bool) (f : MsgSeq) :
    (∃ f' a, Float_.read format ndebug f = some (false, f', a)) ∨
      (∃ rest a, (floatExt f []).1 = some rest ∧
        Float_.read format ndebug f = some (true, rest, a)) ∨
      Float_.read format ndebug f = none ∧ Bad format ndebug f := by
  rcases hread : binaryToTerm floatExt f [] with ⟨_ | _, rest, digits⟩
  · exact .inl ⟨rest, 0, by simp only [Float_.read, hread]⟩
  · rcases hdecode : Float_.decodeFloat format ndebug digits with _ | decoded
    · exact .inr (.inr ⟨by simp only [Float_.read, hread, hdecode], bad_of_float hread hdecode⟩)
    · exact .inr (.inl ⟨rest, decoded, rest_of_binaryToTerm hread, by
        simp only [Float_.read, hread, hdecode]⟩)

theorem sound_float (arg : From σ Float) : (arg.toObject (Float_.ofValue format ndebug)
    (Float_.ofPointer format ndebug) (Float_.ofAny format)).Sound format ndebug := by
  cases arg with
  | value val =>
    constructor
    · intro f v rest v' h
      change Float_.matchValue format ndebug val f v = _ at h
      rcases hread : binaryToTerm floatExt f [] with ⟨_ | _, rest', digits⟩
      · simp [Float_.matchValue, hread] at h
      · rcases hdecode : Float_.decodeFloat format ndebug digits with _ | decoded
        · simp [Float_.matchValue, hread, hdecode] at h
        · simp only [Float_.matchValue, hread, hdecode, Option.some.injEq, Prod.mk.injEq] at h
          rw [← h.2.1]
          exact .leaf (.float (rest_of_binaryToTerm hread))
    · intro f v hf
      show Float_.matchValue format ndebug val f v ≠ none
      rcases hread : binaryToTerm floatExt f [] with ⟨_ | _, rest', digits⟩
      · simp [Float_.matchValue, hread]
      · rcases hdecode : Float_.decodeFloat format ndebug digits with _ | decoded
        · exact absurd (bad_of_float hread hdecode) (hf f .here)
        · simp [Float_.matchValue, hread, hdecode]
  | pointer toAssign =>
    constructor
    · intro f v rest v' h
      change Float_.assignMatched format ndebug toAssign f v = _ at h
      rcases float_read_cases format ndebug f with ⟨f', a, hread⟩ | ⟨rest', a, hrest, hread⟩ | ⟨hread, -⟩
      · simp [Float_.assignMatched, hread] at h
      · simp only [Float_.assignMatched, hread, Option.some.injEq, Prod.mk.injEq, true_and] at h
        rw [← h.1]
        exact .leaf (.float hrest)
      · simp [Float_.assignMatched, hread] at h
    · intro f v hf
      show Float_.assignMatched format ndebug toAssign f v ≠ none
      rcases float_read_cases format ndebug f with ⟨f', a, hread⟩ | ⟨rest', a, -, hread⟩ | ⟨-, hbad⟩
      · simp [Float_.assignMatched, hread]
      · simp [Float_.assignMatched, hread]
      · exact absurd hbad (hf f .here)
  | any any => exact sound_matchAny _ any fun _ _ => .float

/-! ### Strings -/

/-- The elements of a string are bytes, and as many as there have to be are read. -/
theorem assignElements_element {n : ℕ} {f rest : MsgSeq} {val val' : List Int32} :
    assignElements StringMatcher.element 0 n f val = (true, rest, val') →
      n ≤ f.length ∧ rest = f.drop n := by
  induction n generalizing f val with
  | zero =>
    intro h
    simp only [assignElements, Prod.mk.injEq, true_and] at h
    exact ⟨Nat.zero_le _, h.1.symm⟩
  | succ n ih =>
    intro h
    cases f with
    | nil => simp [assignElements, binaryToTerm, StringMatcher.element, assign, andThen, byte] at h
    | cons c f =>
      have hread : binaryToTerm StringMatcher.element (c :: f) 0 =
          (true, f, IntObject.ofElement c) := rfl
      simp only [assignElements, hread] at h
      obtain ⟨hle, hrest⟩ := ih h
      exact ⟨Nat.succ_le_succ hle, hrest⟩

theorem eats_of_assignList {wild : Bool} {f rest : MsgSeq} {val val' : List Int32}
    (h : StringMatcher.assignList f val = (true, rest, val')) : Eats wild f rest := by
  rcases hhead : binaryToTerm stringHeadExt f 0 with ⟨_ | _, f', n⟩
  · simp [StringMatcher.assignList, hhead] at h
  · simp only [StringMatcher.assignList, hhead] at h
    obtain ⟨hle, rfl⟩ := assignElements_element h
    exact .string (binaryToTerm_eq_true.mp hhead) fun _ => hle

theorem eats_of_assignMatched {wild : Bool} {f rest : MsgSeq} {a b : Str}
    (h : EString.assignMatched f a = (true, rest, b)) : Eats wild f rest := by
  rcases hread : StringMatcher.assignList f [] with ⟨success, rest', ns⟩
  simp only [EString.assignMatched, hread, Prod.mk.injEq] at h
  obtain ⟨rfl, rfl, -⟩ := h
  exact eats_of_assignList hread

theorem suffix_assignElements {α : Type} {p : Qi α} (hp : Regular p) (toAssign : α) (n : ℕ)
    (f : MsgSeq) (val : List α) : (assignElements p toAssign n f val).2.1 <:+ f := by
  refine CountedLoop.run_rel (R := fun s s' : MsgSeq × List α => s'.1 <:+ s.1)
    (fun s => List.suffix_rfl) (fun s₁ s₂ s₃ h h' => h'.trans h) ?_
    (assignElements_eq_run p toAssign n f val).symm
  rintro ⟨f, val⟩ b s' hround
  obtain ⟨-, rfl⟩ := Prod.mk.inj (Option.some_inj.mp hround)
  exact suffix_binaryToTerm hp f toAssign

theorem suffix_assignMatched (f : MsgSeq) (toAssign : Str) :
    (EString.assignMatched f toAssign).2.1 <:+ f := by
  have hhead := suffix_binaryToTerm regular_stringHeadExt f 0
  show (StringMatcher.assignList f []).2.1 <:+ f
  rw [StringMatcher.assignList]
  generalize binaryToTerm stringHeadExt f 0 = r at hhead ⊢
  rcases r with ⟨_ | _, f', n⟩
  · exact hhead
  · exact (suffix_assignElements (regular_byte.assign _ _) 0 n f' []).trans hhead

theorem matchStringElement_ne_none (o : IntObject σ) (f : MsgSeq) (v : σ) :
    o.matchStringElement f v ≠ none := by
  simp only [IntObject.matchStringElement]
  split <;> simp

theorem matchNone_ne_none (val : List (IntObject σ)) (f : MsgSeq) (v : σ) :
    StringMatcher.matchNone val f v ≠ none := by
  induction val generalizing f v with
  | nil => simp [StringMatcher.matchNone]
  | cons o val ih =>
    rcases helement : o.matchStringElement f v with _ | ⟨_ | _, f', v'⟩
    · exact absurd helement (matchStringElement_ne_none o f v)
    · simp only [StringMatcher.matchNone, helement]
      exact ih f' v'
    · simp [StringMatcher.matchNone, helement]

/-- An element takes a byte, if there is one. -/
theorem rest_of_matchStringElement {o : IntObject σ} {success : Bool} {f rest : MsgSeq} {v v' : σ}
    (h : o.matchStringElement f v = some (success, rest, v')) : rest = f.drop 1 := by
  have hbyte : (binaryToTerm byte f 0).2.1 = f.drop 1 := by
    cases f with
    | nil => rfl
    | cons c f => rfl
  rcases hread : binaryToTerm byte f 0 with ⟨_ | _, f', c⟩ <;> rcases ho : o.toAssign with _ | p
  all_goals
    simp only [IntObject.matchStringElement, hread, ho, Option.some.injEq, Prod.mk.injEq] at h
    rw [← hbyte, hread, ← h.2.1]

theorem rest_of_matchNone {val : List (IntObject σ)} {f rest : MsgSeq} {v v' : σ}
    (h : StringMatcher.matchNone val f v = some (true, rest, v')) : rest = f.drop val.length := by
  induction val generalizing f v with
  | nil =>
    simp only [StringMatcher.matchNone, Option.some.injEq, Prod.mk.injEq, true_and] at h
    exact h.1.symm
  | cons o val ih =>
    rcases helement : o.matchStringElement f v with _ | ⟨_ | _, f', v''⟩
    · simp [StringMatcher.matchNone, helement] at h
    · simp only [StringMatcher.matchNone, helement] at h
      rw [ih h, rest_of_matchStringElement helement, List.drop_drop, List.length_cons,
        Nat.add_comm]
    · simp [StringMatcher.matchNone, helement] at h

theorem eats_of_stringMatcher {val : List (IntObject σ)} {f rest : MsgSeq} {v v' : σ}
    (h : StringMatcher.matchFn val f v = some (true, rest, v')) : Eats false f rest := by
  rcases hhead : binaryToTerm stringHeadExt f 0 with ⟨_ | _, f', n⟩
  · simp [StringMatcher.matchFn, hhead] at h
  · by_cases hlen : val.length = n
    · simp only [StringMatcher.matchFn, hhead, hlen, decide_true, Bool.and_self, if_true] at h
      rw [rest_of_matchNone h, hlen]
      exact .string (binaryToTerm_eq_true.mp hhead) (by simp)
    · simp [StringMatcher.matchFn, hhead, hlen] at h

theorem stringMatcher_ne_none (val : List (IntObject σ)) (f : MsgSeq) (v : σ) :
    StringMatcher.matchFn val f v ≠ none := by
  simp only [StringMatcher.matchFn]
  split
  · exact matchNone_ne_none val _ v
  · simp

theorem sound_string (arg : From σ Str) :
    (arg.toObject EString.ofValue EString.ofPointer EString.ofAny).Sound format ndebug := by
  cases arg with
  | value val =>
    exact ⟨fun _ _ _ _ h => eats_of_stringMatcher h, fun f v _ => stringMatcher_ne_none _ f v⟩
  | pointer toAssign => exact sound_assignThrough _ toAssign fun _ _ _ _ => eats_of_assignMatched
  | any any => exact sound_matchAnyThrough _ any fun _ _ _ => eats_of_assignMatched

/-! ### Tuples and lists -/

section

variable {objs : List (Object σ)}

theorem eatsAll_of_matchAll (hobjs : ∀ obj ∈ objs, obj.Sound format ndebug) {f rest : MsgSeq}
    {v v' : σ} (h : ETuple.matchAll objs f v = some (true, rest, v')) :
    EatsAll false objs.length f rest := by
  induction objs generalizing f v with
  | nil =>
    simp only [ETuple.matchAll, Option.some.injEq, Prod.mk.injEq, true_and] at h
    rw [← h.1]
    exact .zero
  | cons obj objs ih =>
    obtain ⟨hobj, hothers⟩ := List.forall_mem_cons.mp hobjs
    rcases hfirst : obj.matchFn f v with _ | ⟨_ | _, f', v''⟩
    · simp [ETuple.matchAll, hfirst] at h
    · simp [ETuple.matchAll, hfirst] at h
    · simp only [ETuple.matchAll, hfirst] at h
      exact .succ (hobj.eats f v f' v'' hfirst) (ih hothers h)

theorem matchAll_ne_none (hobjs : ∀ obj ∈ objs, obj.Sound format ndebug) (f : MsgSeq) (v : σ)
    (hplaces : ∀ k h, k < objs.length → EatsAll false k f h → Harmless format ndebug h) :
    ETuple.matchAll objs f v ≠ none := by
  induction objs generalizing f v with
  | nil => simp [ETuple.matchAll]
  | cons obj objs ih =>
    obtain ⟨hobj, hothers⟩ := List.forall_mem_cons.mp hobjs
    rcases hfirst : obj.matchFn f v with _ | ⟨_ | _, f', v'⟩
    · exact absurd hfirst (hobj.safe f v (hplaces 0 f (Nat.succ_pos _) .zero))
    · simp [ETuple.matchAll, hfirst]
    · simp only [ETuple.matchAll, hfirst]
      refine ih hothers f' v' fun k h hk hbefore => ?_
      exact hplaces (k + 1) h (Nat.succ_lt_succ hk) (.succ (hobj.eats f v f' v' hfirst) hbefore)

theorem sound_makeETuple (hobjs : ∀ obj ∈ objs, obj.Sound format ndebug) :
    (makeETuple objs).Sound format ndebug := by
  constructor
  · intro f v rest v' h
    change ETuple.matchFn objs f v = _ at h
    rcases hhead : binaryToTerm smallTupleHeadExt f 0 with ⟨_ | _, f', n⟩
    · simp [ETuple.matchFn, hhead] at h
    · by_cases hlen : objs.length = n
      · simp only [ETuple.matchFn, hhead, hlen, decide_true, Bool.and_self, if_true] at h
        exact .tuple (binaryToTerm_eq_true.mp hhead) (hlen ▸ eatsAll_of_matchAll hobjs h)
      · simp [ETuple.matchFn, hhead, hlen] at h
  · intro f v hf
    show ETuple.matchFn objs f v ≠ none
    rcases hhead : binaryToTerm smallTupleHeadExt f 0 with ⟨_ | _, f', n⟩
    · simp [ETuple.matchFn, hhead]
    · by_cases hlen : objs.length = n
      · simp only [ETuple.matchFn, hhead, hlen, decide_true, Bool.and_self, if_true]
        exact matchAll_ne_none hobjs f' v fun k h hk hbefore =>
          hf.tuple (binaryToTerm_eq_true.mp hhead) (hlen ▸ hk) hbefore
      · simp [ETuple.matchFn, hhead, hlen]

theorem eats_of_listMatcher (hobjs : ∀ obj ∈ objs, obj.Sound format ndebug) {f rest : MsgSeq}
    {v v' : σ} (h : ListMatcher.matchFn objs f v = some (true, rest, v')) : Eats false f rest := by
  rcases hhead : binaryToTerm listHeadExt f 0 with ⟨_ | _, f', n⟩
  · simp [ListMatcher.matchFn, hhead] at h
  · by_cases hlen : objs.length = n
    · rcases hall : ETuple.matchAll objs f' v with _ | ⟨success, f'', v''⟩
      · simp [ListMatcher.matchFn, hhead, hlen, hall] at h
      · simp only [ListMatcher.matchFn, hhead, hlen, decide_true, Bool.and_self, if_true, hall,
          Option.some.injEq, Prod.mk.injEq] at h
        obtain ⟨rfl, rfl, -⟩ := h
        exact .list (binaryToTerm_eq_true.mp hhead) (hlen ▸ eatsAll_of_matchAll hobjs hall)
    · simp [ListMatcher.matchFn, hhead, hlen] at h

theorem listMatcher_ne_none (hobjs : ∀ obj ∈ objs, obj.Sound format ndebug) {f : MsgSeq} (v : σ)
    (hf : Harmless format ndebug f) : ListMatcher.matchFn objs f v ≠ none := by
  rcases hhead : binaryToTerm listHeadExt f 0 with ⟨_ | _, f', n⟩
  · simp [ListMatcher.matchFn, hhead]
  · by_cases hlen : objs.length = n
    · have hall := matchAll_ne_none hobjs f' v fun k h hk hbefore =>
        hf.list (binaryToTerm_eq_true.mp hhead) (hlen ▸ hk) hbefore
      rcases hmatch : ETuple.matchAll objs f' v with _ | ⟨success, f'', v''⟩
      · exact absurd hmatch hall
      · simp [ListMatcher.matchFn, hhead, hlen, hmatch]
    · simp [ListMatcher.matchFn, hhead, hlen]

theorem sound_list (hobjs : ∀ obj ∈ objs, obj.Sound format ndebug) :
    (ErlList.ofValue objs).Sound format ndebug :=
  ⟨fun _ _ _ _ h => eats_of_listMatcher hobjs h, fun _ v hf => listMatcher_ne_none hobjs v hf⟩

end

/-! ### Lists that are variables -/

section

variable {α : Type} {p : Qi α} {a : α}

theorem eatsAll_of_assignElements (hleaf : ∀ f rest, (p f a).1 = some rest → Leaf f rest) {n : ℕ}
    {f rest : MsgSeq} {val val' : List α}
    (h : assignElements p a n f val = (true, rest, val')) : EatsAll false n f rest := by
  induction n generalizing f val with
  | zero =>
    simp only [assignElements, Prod.mk.injEq, true_and] at h
    rw [← h.1]
    exact .zero
  | succ n ih =>
    rcases hread : binaryToTerm p f a with ⟨_ | _, f', b⟩
    · simp [assignElements, hread] at h
    · simp only [assignElements, hread] at h
      exact .succ (.leaf (hleaf f f' (rest_of_binaryToTerm hread))) (ih h)

theorem eats_of_listAssign (hleaf : ∀ f rest, (p f a).1 = some rest → Leaf f rest)
    {f rest : MsgSeq} {val val' : List α}
    (h : ListMatcher.assignList p a f val = (true, rest, val')) : Eats false f rest := by
  rcases hhead : binaryToTerm listHeadExt f 0 with ⟨_ | _, f', n⟩
  · simp [ListMatcher.assignList, hhead] at h
  · rcases hall : assignElements p a n f' val with ⟨_ | _, f'', val''⟩
    · simp [ListMatcher.assignList, hhead, hall] at h
    · simp only [ListMatcher.assignList, hhead, hall, Prod.mk.injEq] at h
      rw [← h.2.1]
      exact .list (binaryToTerm_eq_true.mp hhead) (eatsAll_of_assignElements hleaf hall)

theorem sound_listOf (hleaf : ∀ f rest, (p f a).1 = some rest → Leaf f rest)
    (contained : Pointer σ (List α)) :
    (ErlList.ofPointer p a contained : Object σ).Sound format ndebug :=
  sound_assignThrough _ contained fun _ _ _ _ => eats_of_listAssign hleaf

end

/-- Behind the peek at the tag. -/
theorem sound_dispatchOnTag {ser : MsgSeq} {packed unpacked : Matcher σ}
    (hpacked : Object.Sound format ndebug ⟨ser, packed⟩)
    (hunpacked : Object.Sound format ndebug ⟨ser, unpacked⟩) :
    Object.Sound format ndebug ⟨ser, IntList.dispatchOnTag packed unpacked⟩ := by
  constructor
  · intro f v rest v' h
    cases f with
    | nil => simp [IntList.dispatchOnTag] at h
    | cons c f =>
      by_cases hc : c = TypeTag.stringExt
      · simp only [IntList.dispatchOnTag, if_pos hc] at h
        exact hpacked.eats _ v rest v' h
      · simp only [IntList.dispatchOnTag, if_neg hc] at h
        exact hunpacked.eats _ v rest v' h
  · intro f v hf
    cases f with
    | nil => exact absurd (.inl rfl) (hf [] .here)
    | cons c f =>
      by_cases hc : c = TypeTag.stringExt
      · simp only [IntList.dispatchOnTag, if_pos hc]
        exact hpacked.safe _ v hf
      · simp only [IntList.dispatchOnTag, if_neg hc]
        exact hunpacked.safe _ v hf

theorem sound_intList (contained : List (From σ Int32)) :
    (IntList.ofValue (contained.map From.toIntObject)).Sound format ndebug := by
  have hobjs : ∀ obj ∈ (contained.map From.toIntObject).map IntObject.toObject,
      obj.Sound format ndebug := by
    intro obj hobj
    obtain ⟨o, ho, rfl⟩ := List.mem_map.mp hobj
    obtain ⟨arg, -, rfl⟩ := List.mem_map.mp ho
    exact sound_int arg
  refine sound_dispatchOnTag ?_ (sound_list hobjs)
  exact ⟨fun _ _ _ _ h => eats_of_stringMatcher h, fun f v _ => stringMatcher_ne_none _ f v⟩

theorem sound_intListOf (contained : Pointer σ (List Int32)) :
    (IntList.ofPointer contained).Sound format ndebug :=
  sound_dispatchOnTag (sound_assignThrough _ contained fun _ _ _ _ => eats_of_assignList)
    (sound_assignThrough _ contained fun _ _ _ _ => eats_of_listAssign fun _ _ => .integer)

theorem eatsAll_of_floats {n : ℕ} {f rest : MsgSeq} {val val' : List Float}
    (h : Float_.assignElements format ndebug n f val = some (true, rest, val')) :
    EatsAll false n f rest := by
  induction n generalizing f val with
  | zero =>
    simp only [Float_.assignElements, Option.some.injEq, Prod.mk.injEq, true_and] at h
    rw [← h.1]
    exact .zero
  | succ n ih =>
    rcases float_read_cases format ndebug f with ⟨f', a, hread⟩ | ⟨f', a, hrest, hread⟩ | ⟨hread, -⟩
    · simp [Float_.assignElements, hread] at h
    · simp only [Float_.assignElements, hread] at h
      exact .succ (.leaf (.float hrest)) (ih h)
    · simp [Float_.assignElements, hread] at h

theorem floats_ne_none {n : ℕ} {f : MsgSeq} {val : List Float}
    (hplaces : ∀ k h, k < n → EatsAll false k f h → Harmless format ndebug h) :
    Float_.assignElements format ndebug n f val ≠ none := by
  induction n generalizing f val with
  | zero => simp [Float_.assignElements]
  | succ n ih =>
    rcases float_read_cases format ndebug f with ⟨f', a, hread⟩ | ⟨f', a, hrest, hread⟩ | ⟨-, hbad⟩
    · simp [Float_.assignElements, hread]
    · simp only [Float_.assignElements, hread]
      refine ih fun k h hk hbefore => ?_
      exact hplaces (k + 1) h (Nat.succ_lt_succ hk) (.succ (.leaf (.float hrest)) hbefore)
    · exact absurd hbad (hplaces 0 f (Nat.succ_pos n) .zero f .here)

theorem sound_floatListOf (contained : Pointer σ (List Float)) :
    (Float_.listOfPointer format ndebug contained).Sound format ndebug := by
  constructor
  · intro f v rest v' h
    rcases hhead : binaryToTerm listHeadExt f 0 with ⟨_ | _, f', n⟩
    · simp [Float_.listOfPointer, Float_.assignList, hhead] at h
    · rcases hall : Float_.assignElements format ndebug n f' (contained.get v) with
        _ | ⟨_ | _, f'', val⟩
      · simp [Float_.listOfPointer, Float_.assignList, hhead, hall] at h
      · simp [Float_.listOfPointer, Float_.assignList, hhead, hall] at h
      · simp only [Float_.listOfPointer, Float_.assignList, hhead, hall, Option.some.injEq,
          Prod.mk.injEq] at h
        rw [← h.2.1]
        exact .list (binaryToTerm_eq_true.mp hhead) (eatsAll_of_floats hall)
  · intro f v hf
    rcases hhead : binaryToTerm listHeadExt f 0 with ⟨_ | _, f', n⟩
    · simp [Float_.listOfPointer, Float_.assignList, hhead]
    · rcases hall : Float_.assignElements format ndebug n f' (contained.get v) with
        _ | ⟨_ | _, f'', val⟩
      · exact absurd hall (floats_ne_none fun k h hk hbefore =>
          hf.list (binaryToTerm_eq_true.mp hhead) hk hbefore)
      · simp [Float_.listOfPointer, Float_.assignList, hhead, hall]
      · simp [Float_.listOfPointer, Float_.assignList, hhead, hall]

end TinchPp
