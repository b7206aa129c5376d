import TinchPp.MessagePlaces
import TinchPp.Patterns

/-!
# What is read into a variable

A pattern that is made from a variable hands the variable to its parser, and so the parser writes
while it reads. What it has written by the time it fails stays there. Whether it matches, and where
it stops, does not depend on what the variable holds, and what it makes of the variable depends on
nothing but the message.

Containers are appended to and not cleared: a variable of such a type grows by what is read, or
stays as it is. Only the variables of an `int_` and of a `float_` are overwritten.

## Main results

* `LeafType.matchFn_pointer`, `ListType.matchFn_pattern` — the patterns with a variable are readers
* `Change` — there is no way back from what a parser does to a variable, and containers only grow
-/

namespace TinchPp

open Wire

variable {σ α : Type}

/-! ### The types of variables -/

/-- The types of which a pattern can take a pointer to a variable. The variable of an `any` is a
`matchable_ptr`, which can be empty. -/
inductive Kind
  | int | str | pid | ref | binary | float | ints | strs | pids | refs | floats | matchable
deriving DecidableEq, Repr

namespace Kind

@[reducible] def Value : Kind → Type
  | int => Int32
  | str => Str
  | pid => EPid
  | ref => NewReferenceType
  | binary => BinaryValueType
  | float => Float
  | ints => List Int32
  | strs => List Str
  | pids => List EPid
  | refs => List NewReferenceType
  | floats => List Float
  | matchable => Option MsgSeq

/-- What the default constructors make. A number that is not initialized is zero here. -/
def fresh : (k : Kind) → k.Value
  | int => 0
  | str => []
  | pid => .invalid
  | ref => .invalid
  | binary => .empty
  | float => 0
  | ints => []
  | strs => []
  | pids => []
  | refs => []
  | floats => []
  | matchable => none

/-- How much there is in the container, or in the one container that there is among the fields. -/
def size : (k : Kind) → k.Value → ℕ
  | int, _ => 0
  | str, s => s.length
  | pid, p => p.nodeName.length
  | ref, r => r.nodeName.length
  | binary, b => b.value.length
  | float, _ => 0
  | ints, ns => ns.length
  | strs, ss => ss.length
  | pids, ps => ps.length
  | refs, rs => rs.length
  | floats, xs => xs.length
  | matchable, m => m.elim 0 List.length

/-- The variables that hold a number. All others hold a container, somewhere. -/
def IsNumber (k : Kind) : Prop := k = int ∨ k = float

instance (k : Kind) : Decidable k.IsNumber := inferInstanceAs (Decidable (_ ∨ _))

@[simp] theorem size_fresh (k : Kind) : k.size k.fresh = 0 := by
  cases k <;> rfl

end Kind

/-- What a parser does to a variable while it reads a message. There is no way back, and a
container is appended to. -/
structure Change (k : Kind) where
  apply : k.Value → k.Value
  oneWay : OneWay apply
  appends : k.IsNumber ∨ Grows k.size apply

/-- A parser for a variable: whether it matches and where it stops, or `none` when it faults, and
what it does to the variable. -/
structure Reader (k : Kind) where
  result : MsgSeq → Option (Bool × MsgSeq)
  change : MsgSeq → Change k

namespace Reader

variable {k : Kind}

/-- The pattern that is made from a pointer to a variable. -/
def matcher (r : Reader k) (toAssign : Pointer σ k.Value) : Matcher σ := fun f v =>
  (r.result f).map fun res =>
    (res.1, res.2, toAssign.set ((r.change f).apply (toAssign.get v)) v)

/-! ### Parsers -/

/-- A parser, with its attribute as the variable. -/
def ofQi (p : Qi k.Value) (hway : WritesOneWay p) (happ : k.IsNumber ∨ Appends k.size p) :
    Reader k where
  result f := some ((p f k.fresh).1.isSome, (p f k.fresh).1.getD f)
  change f := ⟨fun a => (p f a).2, hway f, happ.imp_right fun h => h f⟩

/-- **A regular parser reads into a variable** without looking at it. -/
theorem assignMatched_eq {p : Qi k.Value} (hreg : Regular p) (hway : WritesOneWay p)
    (happ : k.IsNumber ∨ Appends k.size p) (toAssign : Pointer σ k.Value) :
    assignMatched p toAssign = (ofQi p hway happ).matcher toAssign := by
  funext f v
  have hobl := hreg.oblivious f k.fresh (toAssign.get v)
  rcases hread : p f (toAssign.get v) with ⟨_ | rest, b⟩
  all_goals
    rw [hread] at hobl
    simp only [assignMatched, binaryToTerm, hread, matcher, ofQi, hobl, Option.map_some,
      Option.isSome, Option.getD]

/-! ### The parsers of the patterns -/

theorem writesOneWay_integer : WritesOneWay integer :=
  .alt (((regular_lit _).seq regular_byte).assign _ _) (writesOneWay_assign fun _ _ => rfl)
    (.seq (regular_lit _) (writesOneWay_lit _) (writesOneWay_assign fun _ _ => rfl))

theorem writesOneWay_atomExt : WritesOneWay atomExt :=
  .seq (regular_lit _) (writesOneWay_lit _) (.andThen fun _ => writesOneWay_chars _)

theorem appends_atomExt : Appends List.length atomExt :=
  .seq (regular_lit _) (appends_lit _ _) (.andThen fun _ => appends_chars _)

theorem writesOneWay_pidExt : WritesOneWay pidExt :=
  .seq (regular_lit _) (writesOneWay_lit _) <|
  .seq regular_atomExt.field (writesOneWay_atomExt.field (fun _ _ => rfl) fun _ => rfl) <|
  .seq regular_bigDword.field (writesOneWay_bigDword.field (fun _ _ => rfl) fun _ => rfl) <|
  .seq regular_bigDword.field (writesOneWay_bigDword.field (fun _ _ => rfl) fun _ => rfl) <|
  writesOneWay_assign fun _ _ => rfl

theorem appends_pidExt : Appends (Kind.size .pid) pidExt :=
  .seq (regular_lit _) (appends_lit _ _) <|
  .seq regular_atomExt.field (appends_atomExt.field (fun _ => rfl) fun _ _ => rfl) <|
  .seq regular_bigDword.field (appends_field_of_same fun _ _ => rfl) <|
  .seq regular_bigDword.field (appends_field_of_same fun _ _ => rfl) <|
  appends_assign_of_same fun _ _ => rfl

theorem writesOneWay_newReferenceExtP : WritesOneWay newReferenceExtP :=
  .seq (regular_lit _) (writesOneWay_lit _) <| .andThen fun _ =>
  .seq regular_atomExt.field (writesOneWay_atomExt.field (fun _ _ => rfl) fun _ => rfl) <|
  .seq (regular_byte.assign _ _) (writesOneWay_assign fun _ _ => rfl) <|
  (writesOneWay_chars _).field (fun _ _ => rfl) fun _ => rfl

theorem appends_newReferenceExtP : Appends (Kind.size .ref) newReferenceExtP :=
  .seq (regular_lit _) (appends_lit _ _) <| .andThen fun _ =>
  .seq regular_atomExt.field (appends_atomExt.field (fun _ => rfl) fun _ _ => rfl) <|
  .seq (regular_byte.assign _ _) (appends_assign_of_same fun _ _ => rfl) <|
  appends_field_of_same fun _ _ => rfl

theorem writesOneWay_binaryExt : WritesOneWay binaryExt :=
  .seq (regular_lit _) (writesOneWay_lit _) (.andThen fun _ => writesOneWay_chars _)

theorem appends_binaryExt : Appends List.length binaryExt :=
  .seq (regular_lit _) (appends_lit _ _) (.andThen fun _ => appends_chars _)

theorem writesOneWay_bitBinaryExt : WritesOneWay bitBinaryExt :=
  .seq (regular_lit _) (writesOneWay_lit _) <| .andThen fun _ =>
  .seq (regular_byte.assign _ _) (writesOneWay_assign fun _ _ => rfl) <|
  (writesOneWay_chars _).field (fun _ _ => rfl) fun _ => rfl

theorem appends_bitBinaryExt : Appends (Kind.size .binary) bitBinaryExt :=
  .seq (regular_lit _) (appends_lit _ _) <| .andThen fun _ =>
  .seq (regular_byte.assign _ _) (appends_assign_of_same fun _ _ => rfl) <|
  (appends_chars _).field (fun _ => rfl) fun _ _ => rfl

/-- A binary, or else a bit-string, as one parser. -/
def binaryOrBits : Qi BinaryValueType :=
  alt (field BinaryValueType.value (fun value b => { b with value := value }) binaryExt)
    bitBinaryExt

theorem regular_binaryOrBits : Regular binaryOrBits :=
  regular_binaryExt.field.alt regular_bitBinaryExt

theorem writesOneWay_binaryOrBits : WritesOneWay binaryOrBits :=
  .alt regular_binaryExt.field (writesOneWay_binaryExt.field (fun _ _ => rfl) fun _ => rfl)
    writesOneWay_bitBinaryExt

theorem appends_binaryOrBits : Appends (Kind.size .binary) binaryOrBits :=
  .alt regular_binaryExt.field (appends_binaryExt.field (fun _ => rfl) fun _ _ => rfl)
    appends_bitBinaryExt

theorem binary_read (f : MsgSeq) (res : BinaryValueType) :
    Binary.read f res = binaryToTerm binaryOrBits f res := by
  rcases hread : binaryExt f res.value with ⟨_ | rest, value⟩
  · simp only [Binary.read, binaryToTerm, hread, binaryOrBits, alt, field]
  · simp only [Binary.read, binaryToTerm, hread, binaryOrBits, alt, field]

theorem assignThrough_binary (toAssign : Pointer σ BinaryValueType) :
    assignThrough Binary.read toAssign = assignMatched binaryOrBits toAssign := by
  funext f v
  simp only [assignThrough, assignMatched, binary_read]

/-! ### Numbers that are overwritten -/

/-- Whatever the variable has held, it is replaced, also when the match fails. -/
def overwriting (hk : k.IsNumber) (read : MsgSeq → Option (Bool × MsgSeq × k.Value)) :
    Reader k where
  result f := (read f).map fun r => (r.1, r.2.1)
  change f := ⟨fun a => (read f).elim a fun r => r.2.2,
    oneWay_of_idempotent fun a => by cases read f <;> rfl, .inl hk⟩

theorem float_assignMatched_eq (format : FloatFormat) (ndebug : Bool)
    (toAssign : Pointer σ Float) : Float_.assignMatched format ndebug toAssign =
      (overwriting (k := .float) (.inr rfl) (Float_.read format ndebug)).matcher toAssign := by
  funext f v
  rcases hread : Float_.read format ndebug f with _ | ⟨success, rest, decoded⟩
  · simp only [Float_.assignMatched, hread, matcher, overwriting, Option.map_none]
  · simp only [Float_.assignMatched, hread, matcher, overwriting, Option.map_some, Option.elim]

/-! ### Containers that are appended to -/

/-- What has been read goes to the end of what is there. -/
def appending (add : k.Value → k.Value → k.Value) (hway : ∀ d, OneWay fun a => add a d)
    (happ : ∀ d, Grows k.size fun a => add a d)
    (read : MsgSeq → Option (Bool × MsgSeq × k.Value)) : Reader k where
  result f := (read f).map fun r => (r.1, r.2.1)
  change f := (read f).elim ⟨fun a => a, oneWay_id, .inr (grows_of_same fun _ => rfl)⟩
    fun r => ⟨fun a => add a r.2.2, hway r.2.2, .inr (happ r.2.2)⟩

/-- What the elements of a list are appended to has no part in reading them. -/
theorem assignElements_eq (p : Qi α) (toAssign : α) (n : ℕ) (f : MsgSeq) (val : List α) :
    assignElements p toAssign n f val = ((assignElements p toAssign n f []).1,
      (assignElements p toAssign n f []).2.1, val ++ (assignElements p toAssign n f []).2.2) := by
  induction n generalizing f val with
  | zero => simp only [assignElements, List.append_nil]
  | succ n ih =>
    rcases hread : binaryToTerm p f toAssign with ⟨_ | _, f', a⟩
    · simp only [assignElements, hread, List.nil_append]
    · simp only [assignElements, hread, List.nil_append]
      rw [ih f' (val ++ [a]), ih f' [a], List.append_assoc]

theorem assignList_eq (p : Qi α) (toAssign : α) (f : MsgSeq) (val : List α) :
    ListMatcher.assignList p toAssign f val = ((ListMatcher.assignList p toAssign f []).1,
      (ListMatcher.assignList p toAssign f []).2.1,
      val ++ (ListMatcher.assignList p toAssign f []).2.2) := by
  rcases hhead : binaryToTerm listHeadExt f 0 with ⟨_ | _, f', n⟩
  · simp only [ListMatcher.assignList, hhead, List.append_nil]
  · simp only [ListMatcher.assignList, hhead]
    rw [assignElements_eq]
    rcases assignElements p toAssign n f' [] with ⟨_ | _, f'', xs⟩ <;> rfl

theorem assignString_eq (f : MsgSeq) (val : List Int32) :
    StringMatcher.assignList f val = ((StringMatcher.assignList f []).1,
      (StringMatcher.assignList f []).2.1, val ++ (StringMatcher.assignList f []).2.2) := by
  rcases hhead : binaryToTerm stringHeadExt f 0 with ⟨_ | _, f', n⟩
  · simp only [StringMatcher.assignList, hhead, List.append_nil]
  · simp only [StringMatcher.assignList, hhead]
    exact assignElements_eq _ _ _ _ _

theorem floatElements_eq (format : FloatFormat) (ndebug : Bool) (n : ℕ) (f : MsgSeq)
    (val : List Float) : Float_.assignElements format ndebug n f val =
      (Float_.assignElements format ndebug n f []).map fun r => (r.1, r.2.1, val ++ r.2.2) := by
  induction n generalizing f val with
  | zero => simp only [Float_.assignElements, Option.map_some, List.append_nil]
  | succ n ih =>
    rcases hread : Float_.read format ndebug f with _ | ⟨_ | _, f', a⟩
    · simp only [Float_.assignElements, hread, Option.map_none]
    · simp only [Float_.assignElements, hread, Option.map_some, List.nil_append]
    · simp only [Float_.assignElements, hread, List.nil_append]
      rw [ih f' (val ++ [a]), ih f' [a], Option.map_map]
      simp only [Function.comp_def, List.append_assoc]

theorem floatList_eq (format : FloatFormat) (ndebug : Bool) (f : MsgSeq) (val : List Float) :
    Float_.assignList format ndebug f val =
      (Float_.assignList format ndebug f []).map fun r => (r.1, r.2.1, val ++ r.2.2) := by
  rcases hhead : binaryToTerm listHeadExt f 0 with ⟨_ | _, f', n⟩
  · simp only [Float_.assignList, hhead, Option.map_some, List.append_nil]
  · simp only [Float_.assignList, hhead]
    rw [floatElements_eq]
    rcases Float_.assignElements format ndebug n f' [] with _ | ⟨_ | _, f'', xs⟩ <;> rfl

end Reader

/-! ### The types of patterns -/

open Reader

/-- The patterns that are not made of others, by their classes. -/
inductive LeafType
  | int | atom | pid | ref | binary | float | string
deriving DecidableEq, Repr

namespace LeafType

@[reducible] def kind : LeafType → Kind
  | int => .int
  | atom => .str
  | pid => .pid
  | ref => .ref
  | binary => .binary
  | float => .float
  | string => .str

def pattern : (t : LeafType) → From σ t.kind.Value → Pattern σ
  | int => .int
  | atom => .atom
  | pid => .pid
  | ref => .ref
  | binary => .binary
  | float => .float
  | string => .string

variable (format : FloatFormat) (ndebug : Bool)

def reader : (t : LeafType) → Reader t.kind
  | int => .ofQi integer writesOneWay_integer (.inl (.inl rfl))
  | atom => .ofQi atomExt writesOneWay_atomExt (.inr appends_atomExt)
  | pid => .ofQi pidExt writesOneWay_pidExt (.inr appends_pidExt)
  | ref => .ofQi newReferenceExtP writesOneWay_newReferenceExtP (.inr appends_newReferenceExtP)
  | binary => .ofQi binaryOrBits writesOneWay_binaryOrBits (.inr appends_binaryOrBits)
  | float => .overwriting (.inr rfl) (Float_.read format ndebug)
  | string => .appending (· ++ ·) oneWay_append grows_append fun f =>
    some ((StringMatcher.assignList f []).1, (StringMatcher.assignList f []).2.1,
      (StringMatcher.assignList f []).2.2.map narrow)

/-- **A pattern with a variable is a reader.** -/
theorem matchFn_pointer (t : LeafType) (toAssign : Pointer σ t.kind.Value) :
    ((t.pattern (.pointer toAssign)).toObject format ndebug).matchFn =
      (t.reader format ndebug).matcher toAssign := by
  cases t with
  | int => exact assignMatched_eq (k := .int) regular_integer _ (.inl (.inl rfl)) toAssign
  | atom => exact assignMatched_eq (k := .str) regular_atomExt _ (.inr appends_atomExt) toAssign
  | pid => exact assignMatched_eq (k := .pid) regular_pidExt _ (.inr appends_pidExt) toAssign
  | ref =>
    exact assignMatched_eq (k := .ref) regular_newReferenceExtP _ (.inr appends_newReferenceExtP)
      toAssign
  | binary =>
    exact (assignThrough_binary toAssign).trans <|
      assignMatched_eq (k := .binary) regular_binaryOrBits _ (.inr appends_binaryOrBits) toAssign
  | float => exact float_assignMatched_eq format ndebug toAssign
  | string => rfl

end LeafType

/-- The lists that can be variables, by the classes of their elements. -/
inductive ListType
  | int | atom | pid | ref | float
deriving DecidableEq, Repr

namespace ListType

@[reducible] def kind : ListType → Kind
  | int => .ints
  | atom => .strs
  | pid => .pids
  | ref => .refs
  | float => .floats

def pattern : (t : ListType) → Pointer σ t.kind.Value → Pattern σ
  | int => .intListOf
  | atom => .atomListOf
  | pid => .pidListOf
  | ref => .refListOf
  | float => .floatListOf

variable (format : FloatFormat) (ndebug : Bool)

def reader : (t : ListType) → Reader t.kind
  | int => .appending (· ++ ·) oneWay_append grows_append fun
    | [] => none
    | c :: f =>
      if c = TypeTag.stringExt then some (StringMatcher.assignList (c :: f) [])
      else some (ListMatcher.assignList integer 0 (c :: f) [])
  | atom => .appending (· ++ ·) oneWay_append grows_append fun f =>
    some (ListMatcher.assignList atomExt [] f [])
  | pid => .appending (· ++ ·) oneWay_append grows_append fun f =>
    some (ListMatcher.assignList pidExt .invalid f [])
  | ref => .appending (· ++ ·) oneWay_append grows_append fun f =>
    some (ListMatcher.assignList newReferenceExtP .invalid f [])
  | float => .appending (· ++ ·) oneWay_append grows_append fun f =>
    Float_.assignList format ndebug f []

/-- A list of elements that have a parser. -/
theorem assignThrough_assignList (p : Qi α) (a : α) (contained : Pointer σ (List α)) (f : MsgSeq)
    (v : σ) : assignThrough (ListMatcher.assignList p a) contained f v =
      some ((ListMatcher.assignList p a f []).1, (ListMatcher.assignList p a f []).2.1,
        contained.set (contained.get v ++ (ListMatcher.assignList p a f []).2.2) v) := by
  rw [assignThrough, assignList_eq]

/-- **A list that is a variable is a reader.** -/
theorem matchFn_pattern (t : ListType) (contained : Pointer σ t.kind.Value) :
    ((t.pattern contained).toObject format ndebug).matchFn =
      (t.reader format ndebug).matcher contained := by
  funext f v
  cases t with
  | atom => exact assignThrough_assignList atomExt [] contained f v
  | pid => exact assignThrough_assignList pidExt .invalid contained f v
  | ref => exact assignThrough_assignList newReferenceExtP .invalid contained f v
  | int =>
    cases f with
    | nil => rfl
    | cons c f =>
      show IntList.dispatchOnTag _ _ (c :: f) v = _
      by_cases hc : c = TypeTag.stringExt
      · simp only [IntList.dispatchOnTag, if_pos hc, assignThrough, reader, Reader.matcher,
          Reader.appending, Option.map_some, Option.elim]
        rw [assignString_eq]
      · simp only [IntList.dispatchOnTag, if_neg hc, assignThrough_assignList, reader,
          Reader.matcher, Reader.appending, Option.map_some, Option.elim]
  | float =>
    show (Float_.listOfPointer format ndebug contained).matchFn f v = _
    simp only [Float_.listOfPointer, reader, Reader.matcher, Reader.appending]
    rw [floatList_eq]
    cases Float_.assignList format ndebug f [] <;> rfl

end ListType

end TinchPp
