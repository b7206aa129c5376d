import TinchPp.ExtTermGrammar

/-!
# Erlang terms as patterns

`erlang_value_types.cpp` and `erl_tuple.h`. A class derived from `object` has two virtual functions:
`serialize` writes the term, and `match` reads a term off an iterator and compares it with what the
pattern says. A pattern made from a value wants that very value, one made from a pointer assigns
what it reads to the variable pointed at, and one made from an `any` takes what comes and hands over
its bytes.

The variables of a pattern live in a state `σ`. A `Pointer` into it says how to read and to write
one of them.

## Main results

* `Reads.tuple` — a pattern for a tuple reads what a tuple of the same shape writes, element after
  element
-/

namespace TinchPp

open Wire

variable {σ : Type}

/-- `match(f, l)`, from the bytes between `f` and `l` and the variables, to whether the term has
been matched, the bytes after it, and the variables. `none` when an iterator at the end is
dereferenced, or an assertion fails. -/
abbrev Matcher (σ : Type) := MsgSeq → σ → Option (Bool × MsgSeq × σ)

/-- The virtual functions of `object`. -/
structure Object (σ : Type) where
  serialize : MsgSeq
  matchFn : Matcher σ

/-- A pointer to a variable of a pattern. -/
structure Pointer (σ α : Type) where
  get : σ → α
  set : α → σ → σ
  get_set : ∀ a v, get (set a v) = a

/-- A variable that is all there is. -/
def Pointer.whole (α : Type) : Pointer α α where
  get v := v
  set a _ := a
  get_set _ _ := rfl

/-- `any`, as far as the other patterns use it: it collects the bytes they have matched. -/
abbrev Any (σ : Type) := Pointer σ MsgSeq

/-- `save_matched_bytes`: what has been matched goes to the end of what is there. -/
def Any.saveMatchedBytes (any : Any σ) (rawMsgPart : MsgSeq) (v : σ) : σ :=
  any.set (any.get v ++ rawMsgPart) v

/-! ### What the patterns do with a parser -/

/-- `binary_to_term`: where it fails, the iterator stays where it was. -/
def binaryToTerm {α : Type} (p : Qi α) (f : MsgSeq) (attr : α) : Bool × MsgSeq × α :=
  match p f attr with
  | (some rest, attr) => (true, rest, attr)
  | (none, attr) => (false, f, attr)

/-- `match_xxx_value` -/
def matchValue {α : Type} [DecidableEq α] (p : Qi α) (res : α) (val : α) : Matcher σ := fun f v =>
  match binaryToTerm p f res with
  | (success, rest, res) => some (success && decide (val = res), rest, v)

/-- `assign_matched_xxx`: the variable is the attribute of the parser, whether it fails or not. -/
def assignMatched {α : Type} (p : Qi α) (toAssign : Pointer σ α) : Matcher σ := fun f v =>
  match binaryToTerm p f (toAssign.get v) with
  | (success, rest, res) => some (success, rest, toAssign.set res v)

/-- `match_any_xxx` -/
def matchAny {α : Type} (p : Qi α) (ignore : α) (any : Any σ) : Matcher σ := fun f v =>
  match binaryToTerm p f ignore with
  | (true, rest, _) =>
    some (true, rest, any.saveMatchedBytes (f.take (f.length - rest.length)) v)
  | (false, rest, _) => some (false, rest, v)

/-- Assign to a variable what has been read into it. -/
def assignThrough {α : Type} (read : MsgSeq → α → Bool × MsgSeq × α) (toAssign : Pointer σ α) :
    Matcher σ := fun f v =>
  match read f (toAssign.get v) with
  | (success, f, val) => some (success, f, toAssign.set val v)

/-- Hand over to an `any` the bytes of what has been read. -/
def matchAnyThrough {α : Type} (read : MsgSeq → α → Bool × MsgSeq × α) (ignore : α)
    (any : Any σ) : Matcher σ := fun f v =>
  match read f ignore with
  | (true, rest, _) =>
    some (true, rest, any.saveMatchedBytes (f.take (f.length - rest.length)) v)
  | (false, rest, _) => some (false, rest, v)

/-- A parser is one way of reading. -/
theorem assignMatched_eq_assignThrough {α : Type} (p : Qi α) (toAssign : Pointer σ α) :
    assignMatched p toAssign = assignThrough (binaryToTerm p) toAssign := rfl

theorem matchAny_eq_matchAnyThrough {α : Type} (p : Qi α) (ignore : α) (any : Any σ) :
    matchAny p ignore any = matchAnyThrough (binaryToTerm p) ignore any := rfl

/-! ### Integers, atoms and pids -/

namespace Int_

/-- In the name of optimization, Erlang tries to pack small integer values (0-0xFF). -/
def serialize (val : Int32) : MsgSeq :=
  if 0 ≤ val ∧ val ≤ 255 then smallIntegerG val.toUInt32.toNat else integerExtG val

def ofValue (val : Int32) : Object σ := ⟨serialize val, matchValue integer 0 val⟩

end Int_

namespace Atom

def ofValue (val : Str) : Object σ := ⟨atomExtG val, matchValue atomExt [] val⟩

/-- A pattern with a variable holds the empty atom, if someone serializes it. -/
def ofPointer (toAssign : Pointer σ Str) : Object σ := ⟨atomExtG [], assignMatched atomExt toAssign⟩

def ofAny (any : Any σ) : Object σ := ⟨atomExtG [], matchAny atomExt [] any⟩

end Atom

namespace Pid

def ofValue (val : EPid) : Object σ := ⟨pidExtG val, matchValue pidExt .invalid val⟩

def ofPointer (toAssign : Pointer σ EPid) : Object σ :=
  ⟨pidExtG .invalid, assignMatched pidExt toAssign⟩

def ofAny (any : Any σ) : Object σ := ⟨pidExtG .invalid, matchAny pidExt .invalid any⟩

end Pid

@[simp] theorem Atom.serialize_ofValue (val : Str) :
    (Atom.ofValue val : Object σ).serialize = atomExtG val := rfl

@[simp] theorem Pid.serialize_ofValue (val : EPid) :
    (Pid.ofValue val : Object σ).serialize = pidExtG val := rfl

/-! ### References, binaries and floats -/

namespace Ref

def ofValue (val : NewReferenceType) : Object σ :=
  ⟨newReferenceExtG val, matchValue newReferenceExtP .invalid val⟩

def ofPointer (toAssign : Pointer σ NewReferenceType) : Object σ :=
  ⟨newReferenceExtG .invalid, assignMatched newReferenceExtP toAssign⟩

def ofAny (any : Any σ) : Object σ :=
  ⟨newReferenceExtG .invalid, matchAny newReferenceExtP .invalid any⟩

end Ref

namespace Binary

def serialize (val : BinaryValueType) : MsgSeq :=
  if 0 < val.paddingBits then bitBinaryExtG val else binaryExtG val.value

/-- A binary, or else a bit-string. -/
def read (f : MsgSeq) (res : BinaryValueType) : Bool × MsgSeq × BinaryValueType :=
  match binaryToTerm binaryExt f res.value with
  | (true, f, value) => (true, f, { res with value := value })
  | (false, f, value) => binaryToTerm bitBinaryExt f { res with value := value }

def ofValue (val : BinaryValueType) : Object σ :=
  ⟨serialize val, fun f v =>
    match read f .empty with
    | (success, f, res) => some (success && decide (res = val), f, v)⟩

def ofPointer (toAssign : Pointer σ BinaryValueType) : Object σ :=
  ⟨serialize .empty, assignThrough read toAssign⟩

def ofAny (any : Any σ) : Object σ := ⟨serialize .empty, matchAnyThrough read .empty any⟩

end Binary

/-- `float_`, made from an `any`: it does not look at the digits. -/
def Float_.matchAny (any : Any σ) : Matcher σ := TinchPp.matchAny floatExt [] any

/-! ### Tuples -/

namespace ETuple

/-- Match the elements one after the other, until one of them does not match. -/
def matchAll : List (Object σ) → Matcher σ
  | [], f, v => some (true, f, v)
  | obj :: contained, f, v =>
    match obj.matchFn f v with
    | none => none
    | some (false, f, v) => some (false, f, v)
    | some (true, f, v) => matchAll contained f v

def matchFn (contained : List (Object σ)) : Matcher σ := fun f v =>
  match binaryToTerm smallTupleHeadExt f 0 with
  | (success, f, parsedLength) =>
    if success && decide (contained.length = parsedLength) then matchAll contained f v
    else some (false, f, v)

end ETuple

/-- `make_e_tuple` -/
def makeETuple (contained : List (Object σ)) : Object σ where
  serialize := smallTupleHeadG contained.length ++ (contained.map Object.serialize).flatten
  matchFn := ETuple.matchFn contained

/-! ### Matching what has been serialized -/

/-- On the bytes `enc`, whatever follows them, the pattern matches, stops right after them, and
turns the variables `v` into `v'`. -/
def Object.Reads (obj : Object σ) (enc : MsgSeq) (v v' : σ) : Prop :=
  ∀ s, obj.matchFn (enc ++ s) v = some (true, s, v')

theorem binaryToTerm_of_some {α : Type} {p : Qi α} {f rest : MsgSeq} {a b : α}
    (h : p f a = (some rest, b)) : binaryToTerm p f a = (true, rest, b) := by
  rw [binaryToTerm, h]

theorem binaryToTerm_of_none {α : Type} {p : Qi α} {f : MsgSeq} {a b : α} (h : p f a = (none, b)) :
    binaryToTerm p f a = (false, f, b) := by
  rw [binaryToTerm, h]

theorem binaryToTerm_eq_true {α : Type} {p : Qi α} {f rest : MsgSeq} {a b : α} :
    binaryToTerm p f a = (true, rest, b) ↔ p f a = (some rest, b) := by
  rcases hp : p f a with ⟨_ | rest', b'⟩
  · simp [binaryToTerm, hp]
  · simp [binaryToTerm, hp]

theorem matchValue_of_some {α : Type} [DecidableEq α] {p : Qi α} {f rest : MsgSeq} {res val : α}
    (h : p f res = (some rest, val)) (val' : α) (v : σ) :
    matchValue p res val' f v = some (decide (val' = val), rest, v) := by
  simp [matchValue, binaryToTerm_of_some h]

theorem rest_of_matchAnyThrough {α : Type} {read : MsgSeq → α → Bool × MsgSeq × α} {ignore : α}
    {any : Any σ} {f rest : MsgSeq} {v v' : σ}
    (h : matchAnyThrough read ignore any f v = some (true, rest, v')) :
    ∃ b, read f ignore = (true, rest, b) := by
  rcases hread : read f ignore with ⟨_ | _, rest', b⟩
  · simp [matchAnyThrough, hread] at h
  · simp only [matchAnyThrough, hread, Option.some.injEq, Prod.mk.injEq, true_and] at h
    exact ⟨b, by rw [h.1]⟩

theorem matchAnyThrough_ne_none {α : Type} {read : MsgSeq → α → Bool × MsgSeq × α} {ignore : α}
    {any : Any σ} (f : MsgSeq) (v : σ) : matchAnyThrough read ignore any f v ≠ none := by
  rcases hread : read f ignore with ⟨_ | _, rest', b⟩
  · simp [matchAnyThrough, hread]
  · simp [matchAnyThrough, hread]

theorem reads_assignThrough {α : Type} {read : MsgSeq → α → Bool × MsgSeq × α} {val : α}
    {enc : MsgSeq} {toAssign : Pointer σ α} {v : σ}
    (h : ∀ s, read (enc ++ s) (toAssign.get v) = (true, s, val)) (ser : MsgSeq) :
    Object.Reads ⟨ser, assignThrough read toAssign⟩ enc v (toAssign.set val v) := by
  intro s
  simp [assignThrough, h s]

theorem reads_matchAnyThrough {α : Type} {read : MsgSeq → α → Bool × MsgSeq × α} {ignore val : α}
    {enc : MsgSeq} {any : Any σ} (h : ∀ s, read (enc ++ s) ignore = (true, s, val)) (ser : MsgSeq)
    (v : σ) :
    Object.Reads ⟨ser, matchAnyThrough read ignore any⟩ enc v (any.saveMatchedBytes enc v) := by
  intro s
  have htake : (enc ++ s).take ((enc ++ s).length - s.length) = enc := by
    rw [List.length_append, Nat.add_sub_cancel, List.take_left]
  simp only [matchAnyThrough, h s, htake]

theorem reads_assignMatched {α : Type} {p : Qi α} {val : α} {enc : MsgSeq}
    {toAssign : Pointer σ α} {v : σ} (h : ∀ s, p (enc ++ s) (toAssign.get v) = (some s, val))
    (ser : MsgSeq) :
    Object.Reads ⟨ser, assignMatched p toAssign⟩ enc v (toAssign.set val v) := by
  rw [assignMatched_eq_assignThrough]
  exact reads_assignThrough (fun s => binaryToTerm_of_some (h s)) ser

theorem reads_matchAny {α : Type} {p : Qi α} {ignore val : α} {enc : MsgSeq} {any : Any σ}
    (h : ∀ s, p (enc ++ s) ignore = (some s, val)) (ser : MsgSeq) (v : σ) :
    Object.Reads ⟨ser, matchAny p ignore any⟩ enc v (any.saveMatchedBytes enc v) := by
  rw [matchAny_eq_matchAnyThrough]
  exact reads_matchAnyThrough (fun s => binaryToTerm_of_some (h s)) ser v

/-- A small integer fits a byte. -/
theorem toInt32_of_small {n : Int32} (h : 0 ≤ n ∧ n ≤ 255) :
    (UInt8.ofNat n.toUInt32.toNat).toUInt32.toInt32 = n := by
  have hle : n.toUInt32 ≤ (255 : Int32).toUInt32 := Int32.toUInt32_le h.1 h.2
  have h255 : (255 : Int32).toUInt32.toNat = 255 := rfl
  rw [UInt32.le_iff_toNat_le, h255] at hle
  have hbyte : (UInt8.ofNat n.toUInt32.toNat).toUInt32 = n.toUInt32 := by
    rw [← UInt32.toNat_inj, UInt8.toNat_toUInt32, UInt8.toNat_ofNat']
    omega
  rw [hbyte, Int32.toInt32_toUInt32]

theorem integer_serialize (n : Int32) (s : MsgSeq) (a : Int32) :
    integer (Int_.serialize n ++ s) a = (some s, n) := by
  rw [Int_.serialize]
  split
  · next hsmall => rw [integer_of_smallInteger, toInt32_of_small hsmall]
  · exact integer_of_integerExt n s a

/-- An integer pattern tells its own integer from every other one. -/
theorem Int_.matchFn_ofValue (n m : Int32) (s : MsgSeq) (v : σ) :
    (Int_.ofValue n).matchFn (Int_.serialize m ++ s) v = some (decide (n = m), s, v) :=
  matchValue_of_some (integer_serialize m s 0) n v

theorem Int_.reads_ofValue (n : Int32) (v : σ) :
    (Int_.ofValue n).Reads (Int_.serialize n) v v := by
  intro s
  rw [matchFn_ofValue, decide_eq_true rfl]

theorem Atom.matchFn_ofValue {name : Str} (h : name.length < 65536) (val : Str) (s : MsgSeq)
    (v : σ) : (Atom.ofValue val).matchFn (atomExtG name ++ s) v =
      some (decide (val = name), s, v) :=
  matchValue_of_some (atomExt_atomExtG h s []) val v

theorem Pid.matchFn_ofValue {p : EPid} (h : p.InWireRange) (val : EPid) (s : MsgSeq) (v : σ) :
    (Pid.ofValue val).matchFn (pidExtG p ++ s) v = some (decide (val = p), s, v) :=
  matchValue_of_some (pidExt_pidExtG h s) val v

theorem Ref.matchFn_ofValue {r : NewReferenceType} (h : r.InWireRange) (val : NewReferenceType)
    (s : MsgSeq) (v : σ) :
    (Ref.ofValue val).matchFn (newReferenceExtG r ++ s) v = some (decide (val = r), s, v) :=
  matchValue_of_some (newReferenceExtP_newReferenceExtG h s) val v

theorem Atom.reads_ofPointer {name : Str} (h : name.length < 65536) {toAssign : Pointer σ Str}
    {v : σ} (hv : toAssign.get v = []) :
    (Atom.ofPointer toAssign).Reads (atomExtG name) v (toAssign.set name v) := by
  refine reads_assignMatched (fun s => ?_) _
  rw [hv, atomExt_atomExtG h, List.nil_append]

theorem Atom.reads_ofAny {name : Str} (h : name.length < 65536) (any : Any σ) (v : σ) :
    (Atom.ofAny any).Reads (atomExtG name) v (any.saveMatchedBytes (atomExtG name) v) :=
  reads_matchAny (fun s => atomExt_atomExtG h s []) _ v

theorem Pid.reads_ofPointer {p : EPid} (h : p.InWireRange) {toAssign : Pointer σ EPid} {v : σ}
    (hv : toAssign.get v = .invalid) :
    (Pid.ofPointer toAssign).Reads (pidExtG p) v (toAssign.set p v) := by
  refine reads_assignMatched (fun s => ?_) _
  rw [hv, pidExt_pidExtG h]

theorem Pid.reads_ofAny {p : EPid} (h : p.InWireRange) (any : Any σ) (v : σ) :
    (Pid.ofAny any).Reads (pidExtG p) v (any.saveMatchedBytes (pidExtG p) v) :=
  reads_matchAny (fun s => pidExt_pidExtG h s) _ v

theorem Ref.reads_ofPointer {r : NewReferenceType} (h : r.InWireRange)
    {toAssign : Pointer σ NewReferenceType} {v : σ} (hv : toAssign.get v = .invalid) :
    (Ref.ofPointer toAssign).Reads (newReferenceExtG r) v (toAssign.set r v) := by
  refine reads_assignMatched (fun s => ?_) _
  rw [hv, newReferenceExtP_newReferenceExtG h]

theorem Ref.reads_ofAny {r : NewReferenceType} (h : r.InWireRange) (any : Any σ) (v : σ) :
    (Ref.ofAny any).Reads (newReferenceExtG r) v (any.saveMatchedBytes (newReferenceExtG r) v) :=
  reads_matchAny (fun s => newReferenceExtP_newReferenceExtG h s) _ v

namespace Binary

theorem read_binaryExtG {value : MsgSeq} (h : value.length < 4294967296) (s : MsgSeq) :
    read (binaryExtG value ++ s) .empty = (true, s, .ofData value) := by
  rw [read, binaryToTerm_of_some (binaryExt_binaryExtG h s _)]
  simp [BinaryValueType.empty, BinaryValueType.ofData]

/-- A bit-string is no binary. -/
theorem binaryToTerm_binaryExt_bitBinaryExtG (b : BinaryValueType) (s value : MsgSeq) :
    binaryToTerm binaryExt (bitBinaryExtG b ++ s) value = (false, bitBinaryExtG b ++ s, value) :=
  binaryToTerm_of_none (seq_of_none (lit_cons_of_ne (by decide) _ _))

theorem read_bitBinaryExtG {b : BinaryValueType} (h : b.value.length < 4294967296) (s : MsgSeq) :
    read (bitBinaryExtG b ++ s) .empty =
      (true, s, ⟨(UInt8.ofNat b.paddingBits.toUInt32.toNat).toUInt32.toInt32, b.value⟩) := by
  rw [read, binaryToTerm_binaryExt_bitBinaryExtG]
  exact binaryToTerm_of_some (bitBinaryExt_bitBinaryExtG h s)

/-- The padding of a byte, or none. -/
theorem read_serialize {b : BinaryValueType} (hlen : b.value.length < 4294967296)
    (hpadding : 0 ≤ b.paddingBits ∧ b.paddingBits ≤ 255) (s : MsgSeq) :
    read (serialize b ++ s) .empty = (true, s, b) := by
  rw [serialize]
  split
  · rw [read_bitBinaryExtG hlen, toInt32_of_small hpadding]
  · next hpos =>
    have hzero : b.paddingBits = 0 := Int32.le_antisymm (Int32.not_lt.mp hpos) hpadding.1
    rw [read_binaryExtG hlen, BinaryValueType.ofData, ← hzero]

theorem matchFn_ofValue {b : BinaryValueType} (hlen : b.value.length < 4294967296)
    (hpadding : 0 ≤ b.paddingBits ∧ b.paddingBits ≤ 255) (val : BinaryValueType) (s : MsgSeq)
    (v : σ) : (ofValue val).matchFn (serialize b ++ s) v = some (decide (b = val), s, v) := by
  simp only [ofValue, read_serialize hlen hpadding, Bool.true_and]

theorem reads_ofPointer {b : BinaryValueType} (hlen : b.value.length < 4294967296)
    (hpadding : 0 ≤ b.paddingBits ∧ b.paddingBits ≤ 255) {toAssign : Pointer σ BinaryValueType}
    {v : σ} (hv : toAssign.get v = .empty) :
    (ofPointer toAssign).Reads (serialize b) v (toAssign.set b v) := by
  refine reads_assignThrough (fun s => ?_) _
  rw [hv, read_serialize hlen hpadding]

end Binary

/-- The patterns `objs` read the encodings `encs`, one each. -/
inductive ReadsAll : List (Object σ) → List MsgSeq → σ → σ → Prop
  | nil {v : σ} : ReadsAll [] [] v v
  | cons {obj : Object σ} {objs : List (Object σ)} {enc : MsgSeq} {encs : List MsgSeq}
      {v v' v'' : σ} (head : obj.Reads enc v v') (tail : ReadsAll objs encs v' v'') :
      ReadsAll (obj :: objs) (enc :: encs) v v''

theorem ReadsAll.length_eq {objs : List (Object σ)} {encs : List MsgSeq} {v v' : σ}
    (h : ReadsAll objs encs v v') : objs.length = encs.length := by
  induction h with
  | nil => rfl
  | cons _ _ ih => rw [List.length_cons, List.length_cons, ih]

theorem ReadsAll.matchAll {objs : List (Object σ)} {encs : List MsgSeq} {v v' : σ}
    (h : ReadsAll objs encs v v') (s : MsgSeq) :
    ETuple.matchAll objs (encs.flatten ++ s) v = some (true, s, v') := by
  induction h with
  | nil => rfl
  | cons head _ ih =>
    rw [List.flatten_cons, List.append_assoc, ETuple.matchAll, head]
    exact ih

/-- **A tuple is read element by element.** -/
theorem ReadsAll.tuple {objs : List (Object σ)} {encs : List MsgSeq} {v v' : σ}
    (h : ReadsAll objs encs v v') (hlen : encs.length < 256) :
    (makeETuple objs).Reads (smallTupleHeadG encs.length ++ encs.flatten) v v' := by
  intro s
  have hhead := smallTupleHeadExt_smallTupleHeadG hlen (encs.flatten ++ s) 0
  simp only [makeETuple, ETuple.matchFn, List.append_assoc, binaryToTerm_of_some hhead,
    h.length_eq]
  exact h.matchAll s

/-- A tuple that starts with another integer is not matched, whatever follows. -/
theorem matchFn_tuple_of_ne {n m : Int32} (hne : n ≠ m) (objs : List (Object σ))
    {encs : List MsgSeq} (hlen : encs.length + 1 < 256) (s : MsgSeq) (v : σ) :
    ∃ rest, (makeETuple (Int_.ofValue n :: objs)).matchFn (smallTupleHeadG (encs.length + 1) ++
      (Int_.serialize m :: encs).flatten ++ s) v = some (false, rest, v) := by
  have hhead := smallTupleHeadExt_smallTupleHeadG hlen
    ((Int_.serialize m :: encs).flatten ++ s) 0
  simp only [makeETuple, ETuple.matchFn, List.append_assoc, binaryToTerm_of_some hhead]
  by_cases hobjs : (Int_.ofValue n :: objs).length = encs.length + 1
  · -- the lengths agree, and the first element does not
    refine ⟨encs.flatten ++ s, ?_⟩
    rw [if_pos (by simpa using hobjs), List.flatten_cons, List.append_assoc, ETuple.matchAll,
      Int_.matchFn_ofValue, decide_eq_false hne]
  · exact ⟨_, if_neg (by simpa using hobjs)⟩

end TinchPp
