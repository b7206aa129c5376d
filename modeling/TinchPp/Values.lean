import TinchPp.Lib.Nested
import TinchPp.ListMatcher

/-!
# Values

What objects are made from, nested to any depth. A tuple and a list of pointers to objects have any
elements; the other lists have elements of one class and are leaves here. What a value is written as
and whether it fits the wire is said once, for all of them. Where only some of the leaves come into
question, they are a type of their own that is mapped to the leaves (`Nested.map`). What is read off
the wire has other leaves, but the same kinds of terms have elements (`Compound`), and as many.

## Main results

* `Value.serialize_node` — what has elements: a head with their number, the elements, and a tail
* `Value.exists_serialize_eq` — a term starts with a tag of its kind
-/

namespace TinchPp

variable {σ : Type}

/-! ### What has elements -/

/-- The kinds of terms that have elements. -/
inductive Compound
  | tuple
  | list
deriving DecidableEq, Repr

namespace Compound

/-- The object that is made from the elements. -/
def toObject : Compound → List (Object σ) → Object σ
  | tuple, contained => makeETuple contained
  | list, val => ErlList.ofValue val

def head : Compound → ℕ → MsgSeq
  | tuple, n => smallTupleHeadG n
  | list, n => listHeadG n

def tail : Compound → MsgSeq
  | tuple => []
  | list => nilExtG

/-- The number of elements fits its field. -/
def Fits : Compound → ℕ → Prop
  | tuple, n => n < 256
  | list, n => n < 4294967296

instance : (k : Compound) → (n : ℕ) → Decidable (k.Fits n)
  | tuple, n => inferInstanceAs (Decidable (n < 256))
  | list, n => inferInstanceAs (Decidable (n < 4294967296))

theorem serialize_toObject (k : Compound) (objs : List (Object σ)) :
    (k.toObject objs).serialize =
      k.head objs.length ++ (objs.map Object.serialize).flatten ++ k.tail := by
  cases k with
  | tuple => exact (List.append_nil _).symm
  | list => rfl

end Compound

/-! ### What has none -/

/-- What the constructors of `binary_value_type` accept. -/
def BinaryValueType.Accepted (b : BinaryValueType) : Prop :=
  (∃ binaryData, b = .ofData binaryData) ∨
    ∃ binaryData unusedBits, ofBits binaryData unusedBits = .ok b

/-- The padding that the constructors accept. -/
theorem BinaryValueType.Accepted.padding {b : BinaryValueType} (h : b.Accepted) :
    0 ≤ b.paddingBits ∧ b.paddingBits ≤ 255 := by
  rcases h with ⟨binaryData, rfl⟩ | ⟨binaryData, unusedBits, hbits⟩
  · have hle : (0 : Int32) ≤ 255 := by decide
    exact ⟨Int32.le_refl _, hle⟩
  · obtain ⟨hrange, -, rfl⟩ := ofBits_eq_ok hbits
    exact ⟨hrange.1, Int32.le_trans hrange.2 (by decide)⟩

/-- The values that are no tuples and no lists of pointers. -/
inductive LeafValue
  | int (n : Int32)
  | atom (name : Str)
  | string (str : Str)
  | pid (p : EPid)
  | ref (r : NewReferenceType)
  | binary (b : BinaryValueType)
  | intList (ns : List Int32)
  | atomList (names : List Str)
  | pidList (ps : List EPid)
  | refList (rs : List NewReferenceType)

namespace LeafValue

/-- The object that is made from the value. -/
def toObject : LeafValue → Object σ
  | int n => Int_.ofValue n
  | atom name => Atom.ofValue name
  | string str => EString.ofValue str
  | pid p => Pid.ofValue p
  | ref r => Ref.ofValue r
  | binary b => Binary.ofValue b
  | intList ns => IntList.ofValue (ns.map IntObject.ofValue)
  | atomList names => ErlList.ofValue (names.map Atom.ofValue)
  | pidList ps => ErlList.ofValue (ps.map Pid.ofValue)
  | refList rs => ErlList.ofValue (rs.map Ref.ofValue)

/-- The values that fit the wire. -/
def InWireRange : LeafValue → Prop
  | int _ => True
  | atom name => name.length < 65536
  | string str => str.length < 65536
  | pid p => p.InWireRange
  | ref r => r.InWireRange
  | binary b => b.Accepted ∧ b.value.length < 4294967296
  | intList ns => ns.length < 4294967296
  | atomList names => names.length < 4294967296 ∧ ∀ name ∈ names, name.length < 65536
  | pidList ps => ps.length < 4294967296 ∧ ∀ p ∈ ps, p.InWireRange
  | refList rs => rs.length < 4294967296 ∧ ∀ r ∈ rs, r.InWireRange

end LeafValue

/-! ### Values -/

/-- A term, as the values it is made from. -/
abbrev Value := Nested Compound LeafValue

namespace Value

def toObject (v : Value) : Object σ := v.fold LeafValue.toObject Compound.toObject

def serialize (v : Value) : MsgSeq := (v.toObject : Object Unit).serialize

def InWireRange (v : Value) : Prop := v.All LeafValue.InWireRange Compound.Fits

theorem toObject_node (k : Compound) (vs : List Value) :
    (toObject (.node k vs) : Object σ) = k.toObject (vs.map toObject) :=
  Nested.fold_node _ _ k vs

theorem serialize_node (k : Compound) (vs : List Value) : serialize (.node k vs) =
    k.head vs.length ++ (vs.map serialize).flatten ++ k.tail := by
  rw [serialize, toObject_node, Compound.serialize_toObject, List.length_map, List.map_map]
  rfl

theorem inWireRange_node {k : Compound} {vs : List Value} :
    InWireRange (.node k vs) ↔ k.Fits vs.length ∧ ∀ v ∈ vs, InWireRange v :=
  Nested.all_node _ _ k vs

end Value

/-! ### Kinds -/

/-- What sort of term it is. -/
inductive TermKind
  | int
  | atom
  | string
  | pid
  | ref
  | binary
  | tuple
  | list
deriving DecidableEq

namespace TermKind

/-- What a term of this kind may start with. -/
def tags : TermKind → List UInt8
  | int => [TypeTag.smallInteger, TypeTag.integer]
  | atom => [TypeTag.atomExt]
  | string => [TypeTag.stringExt]
  | pid => [TypeTag.pid]
  | ref => [TypeTag.newReferenceExt]
  | binary => [TypeTag.binaryExt, TypeTag.bitBinaryExt]
  | tuple => [TypeTag.smallTuple]
  | list => [TypeTag.list]

theorem not_mem_tags {k k' : TermKind} (hne : k ≠ k') : ∀ tag ∈ k'.tags, tag ∉ k.tags := by
  rw [← List.forall_iff_forall_mem]
  cases k <;> cases k' <;> first | exact absurd rfl hne | decide

end TermKind

def Compound.kind : Compound → TermKind
  | tuple => .tuple
  | list => .list

def LeafValue.kind : LeafValue → TermKind
  | int _ => .int
  | atom _ => .atom
  | string _ => .string
  | pid _ => .pid
  | ref _ => .ref
  | binary _ => .binary
  | intList _ | atomList _ | pidList _ | refList _ => .list

namespace Value

def kind : Value → TermKind
  | .leaf a => a.kind
  | .node k _ => k.kind

/-- **A term starts with a tag of its kind.** -/
theorem exists_serialize_eq (v : Value) : ∃ tag ∈ v.kind.tags, ∃ f, v.serialize = tag :: f := by
  cases v with
  | leaf a =>
    cases a with
    | int n =>
      show ∃ tag ∈ TermKind.int.tags, ∃ f, Int_.serialize n = tag :: f
      rw [Int_.serialize]
      split
      · exact ⟨TypeTag.smallInteger, by decide, _, rfl⟩
      · exact ⟨TypeTag.integer, by decide, _, rfl⟩
    | binary b =>
      show ∃ tag ∈ TermKind.binary.tags, ∃ f, Binary.serialize b = tag :: f
      rw [Binary.serialize]
      split
      · exact ⟨TypeTag.bitBinaryExt, by decide, _, rfl⟩
      · exact ⟨TypeTag.binaryExt, by decide, _, rfl⟩
    | atom | string | pid | ref => exact ⟨_, List.mem_cons_self, _, rfl⟩
    | intList | atomList | pidList | refList => exact ⟨_, List.mem_cons_self, _, rfl⟩
  | node k vs =>
    rw [serialize_node]
    cases k <;> exact ⟨_, List.mem_cons_self, _, rfl⟩

end Value

end TinchPp
