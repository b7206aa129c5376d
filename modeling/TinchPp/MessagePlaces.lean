import TinchPp.Patterns

/-!
# Places in a message

A pattern goes into a message from its start, element by element. `Eats` says what a pattern may
leave behind where it has matched, and `Reaches` at which places of the message a pattern may be
tried that way. Neither looks at any pattern.

Parsers look for the end themselves. What does not is the peek of `list<int_>` at the tag, and what
asserts more than has been looked at are an `any` in front of a tuple or a list, whose head may be
cut short, and `decode_float`. So these are the places that are `Bad`.

## Main results

* `Harmless.tuple`, `Harmless.list` — if no bad place can be reached, none can be reached from an
  element
* `Eats.length_lt` — the places lie in the message, and something is passed on the way
-/

namespace TinchPp

open Wire

/-! ### Places in a message -/

/-- What is left behind a term that is not made of others. -/
inductive Leaf (f rest : MsgSeq) : Prop
  | integer (h : (TinchPp.integer f 0).1 = some rest)
  | atom (h : (atomExt f []).1 = some rest)
  | pid (h : (pidExt f .invalid).1 = some rest)
  | ref (h : (newReferenceExtP f .invalid).1 = some rest)
  | float (h : (floatExt f []).1 = some rest)
  | binary (h : (binaryExt f []).1 = some rest)
  | bitBinary (h : (bitBinaryExt f .empty).1 = some rest)

/-- A nil is passed, if there is one. -/
def skipNil (f : MsgSeq) : MsgSeq := (binaryToTerm nilExt f ()).2.1

mutual

/-- What may be left behind something that has matched: an `any` (`wild`), or any pattern at all. A
string made from a value does not notice that characters are missing. A list goes past its nil, but
an `any` stays in front of it. -/
inductive Eats : Bool → MsgSeq → MsgSeq → Prop
  | leaf {wild : Bool} {f rest : MsgSeq} (h : Leaf f rest) : Eats wild f rest
  | string {wild : Bool} {f f' : MsgSeq} {n : ℕ} (head : stringHeadExt f 0 = (some f', n))
      (hall : wild = true → n ≤ f'.length) : Eats wild f (f'.drop n)
  | tuple {wild : Bool} {f f' rest : MsgSeq} {n : ℕ} (head : smallTupleHeadExt f 0 = (some f', n))
      (h : EatsAll wild n f' rest) : Eats wild f rest
  | list {f f' rest : MsgSeq} {n : ℕ} (head : listHeadExt f 0 = (some f', n))
      (h : EatsAll false n f' rest) : Eats false f (skipNil rest)
  | wildList {f f' rest : MsgSeq} {n : ℕ} (head : listHeadExt f 0 = (some f', n))
      (h : EatsAll true n f' rest) : Eats true f rest
  | any {f rest : MsgSeq} (h : Eats true f rest) : Eats false f rest

/-- So many of them, one after the other. -/
inductive EatsAll : Bool → ℕ → MsgSeq → MsgSeq → Prop
  | zero {wild : Bool} {f : MsgSeq} : EatsAll wild 0 f f
  | succ {wild : Bool} {f g rest : MsgSeq} {n : ℕ} (head : Eats wild f g)
      (tail : EatsAll wild n g rest) : EatsAll wild (n + 1) f rest

end

/-- The places where a pattern may be tried, once one is tried at `f`: there, or at an element of a
tuple or a list, once the elements in front of it have matched. -/
inductive Reaches : MsgSeq → MsgSeq → Prop
  | here {f : MsgSeq} : Reaches f f
  | tuple {f f' h g : MsgSeq} {n k : ℕ} (head : smallTupleHeadExt f 0 = (some f', n)) (hk : k < n)
      (before : EatsAll false k f' h) (inside : Reaches h g) : Reaches f g
  | list {f f' h g : MsgSeq} {n k : ℕ} (head : listHeadExt f 0 = (some f', n)) (hk : k < n)
      (before : EatsAll false k f' h) (inside : Reaches h g) : Reaches f g

/-- The places where some pattern faults: the end; and, with assertions, the head of a tuple or a
list that is cut short, and a float that is not a number. -/
def Bad (format : FloatFormat) (ndebug : Bool) (f : MsgSeq) : Prop :=
  f = [] ∨ ndebug = false ∧
    (f = [TypeTag.smallTuple] ∨ (∃ s, s.length < 4 ∧ f = TypeTag.list :: s) ∨
      ∃ digits rest, digits.length = Constants.floatDigits ∧
        f = TypeTag.floatExt :: (digits ++ rest) ∧ format.scan (Float_.cStr digits) = none)

/-- No bad place can be reached. -/
def Harmless (format : FloatFormat) (ndebug : Bool) (f : MsgSeq) : Prop :=
  ∀ g, Reaches f g → ¬ Bad format ndebug g

variable {f g h rest : MsgSeq} {n k : ℕ}

theorem EatsAll.of_wild : ∀ {n : ℕ} {f rest : MsgSeq}, EatsAll true n f rest →
    EatsAll false n f rest
  | _, _, _, .zero => .zero
  | _, _, _, .succ head tail => .succ (.any head) tail.of_wild

theorem Harmless.tuple {format : FloatFormat} {ndebug : Bool} {f f' h : MsgSeq} {n k : ℕ}
    (hf : Harmless format ndebug f) (head : smallTupleHeadExt f 0 = (some f', n)) (hk : k < n)
    (before : EatsAll false k f' h) : Harmless format ndebug h :=
  fun g hg => hf g (.tuple head hk before hg)

theorem Harmless.list {format : FloatFormat} {ndebug : Bool} {f f' h : MsgSeq} {n k : ℕ}
    (hf : Harmless format ndebug f) (head : listHeadExt f 0 = (some f', n)) (hk : k < n)
    (before : EatsAll false k f' h) : Harmless format ndebug h :=
  fun g hg => hf g (.list head hk before hg)

/-! ### What the parsers leave -/

theorem regular_integer : Regular integer :=
  (((regular_lit _).seq regular_byte).assign _ _).alt
    ((regular_lit _).seq (regular_bigDword.assign _ _))

theorem regular_atomExt : Regular atomExt :=
  (regular_lit _).seq (regular_bigWord.andThen fun _ => regular_chars _)

theorem regular_pidExt : Regular pidExt :=
  (regular_lit _).seq <| regular_atomExt.field.seq <| regular_bigDword.field.seq <|
    regular_bigDword.field.seq (regular_byte.assign _ _)

theorem regular_newReferenceExtP : Regular newReferenceExtP :=
  (regular_lit _).seq <| regular_bigWord.andThen fun _ => regular_atomExt.field.seq <|
    (regular_byte.assign _ _).seq (regular_chars _).field

theorem regular_binaryExt : Regular binaryExt :=
  (regular_lit _).seq (regular_bigDword.andThen fun _ => regular_chars _)

theorem regular_bitBinaryExt : Regular bitBinaryExt :=
  (regular_lit _).seq <| regular_bigDword.andThen fun _ =>
    (regular_byte.assign _ _).seq (regular_chars _).field

theorem regular_floatExt : Regular floatExt := (regular_lit _).seq (regular_chars _)

theorem regular_smallTupleHeadExt : Regular smallTupleHeadExt :=
  (regular_lit _).seq (regular_byte.assign _ _)

theorem regular_listHeadExt : Regular listHeadExt :=
  (regular_lit _).seq (regular_bigDword.assign _ _)

theorem regular_stringHeadExt : Regular stringHeadExt :=
  (regular_lit _).seq (regular_bigWord.assign _ _)

theorem Leaf.length_lt (h : Leaf f rest) : rest.length < f.length := by
  cases h with
  | integer h =>
    rcases alt_eq_some (Prod.ext h rfl) with hsmall | ⟨a, hext⟩
    · obtain ⟨n, hread, -⟩ := assign_eq_some.mp hsmall
      exact length_lt_of_seq_lit regular_byte (congrArg Prod.fst hread)
    · exact length_lt_of_seq_lit (regular_bigDword.assign _ _) (congrArg Prod.fst hext)
  | atom h => exact length_lt_of_seq_lit (regular_bigWord.andThen fun _ => regular_chars _) h
  | pid h =>
    exact length_lt_of_seq_lit (regular_atomExt.field.seq <| regular_bigDword.field.seq <|
      regular_bigDword.field.seq (regular_byte.assign _ _)) h
  | ref h =>
    exact length_lt_of_seq_lit (regular_bigWord.andThen fun _ => regular_atomExt.field.seq <|
      (regular_byte.assign _ _).seq (regular_chars _).field) h
  | float h => exact length_lt_of_seq_lit (regular_chars _) h
  | binary h => exact length_lt_of_seq_lit (regular_bigDword.andThen fun _ => regular_chars _) h
  | bitBinary h =>
    exact length_lt_of_seq_lit (regular_bigDword.andThen fun _ =>
      (regular_byte.assign _ _).seq (regular_chars _).field) h

theorem length_lt_of_tuple {f' : MsgSeq} (head : smallTupleHeadExt f 0 = (some f', n)) :
    f'.length < f.length := by
  obtain ⟨-, rfl⟩ := smallTupleHeadExt_eq_some head
  simp only [smallTupleHeadG, List.length_append, List.length_cons, length_byteG]
  omega

theorem length_lt_of_list {f' : MsgSeq} (head : listHeadExt f 0 = (some f', n)) :
    f'.length < f.length :=
  length_lt_of_seq_lit (regular_bigDword.assign _ _) (congrArg Prod.fst head)

/-- A parser that fails gives back what it was given. -/
theorem suffix_binaryToTerm {α : Type} {p : Qi α} (hp : Regular p) (f : MsgSeq) (a : α) :
    (binaryToTerm p f a).2.1 <:+ f := by
  rcases hread : p f a with ⟨_ | rest, b⟩
  · rw [binaryToTerm_of_none hread]
  · rw [binaryToTerm_of_some hread]
    exact hp.suffix f a rest (by rw [hread])

theorem length_skipNil_le (f : MsgSeq) : (skipNil f).length ≤ f.length :=
  (suffix_binaryToTerm (regular_lit TypeTag.nilExt) f ()).length_le

mutual

theorem Eats.length_lt : {wild : Bool} → {f rest : MsgSeq} → Eats wild f rest →
    rest.length < f.length
  | _, _, _, .leaf h => h.length_lt
  | _, _, _, @Eats.string _ f f' n head _ => by
    have hlt : f'.length < f.length :=
      length_lt_of_seq_lit (regular_bigWord.assign _ _) (congrArg Prod.fst head)
    rw [List.length_drop]
    omega
  | _, _, _, .tuple head h => h.length_le.trans_lt (length_lt_of_tuple head)
  | _, _, _, @Eats.list _ _ rest _ head h =>
    ((length_skipNil_le rest).trans h.length_le).trans_lt (length_lt_of_list head)
  | _, _, _, .wildList head h => h.length_le.trans_lt (length_lt_of_list head)
  | _, _, _, .any h => h.length_lt

theorem EatsAll.length_le : {wild : Bool} → {n : ℕ} → {f rest : MsgSeq} →
    EatsAll wild n f rest → rest.length ≤ f.length
  | _, _, _, _, .zero => le_rfl
  | _, _, _, _, .succ head tail => tail.length_le.trans head.length_lt.le

end

end TinchPp
