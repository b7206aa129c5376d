import TinchPp.ErlangTypes
import TinchPp.Lib.CountedLoop

/-!
# Lists and strings as patterns

`erl_list.h`, `erl_string.cpp` and the two matchers they share. A list arrives in one of two forms:
as a head, the encoded elements and a nil, or, if all its elements are integers in `0 .. 255`,
packed as a string. A `list<int_>` looks at the tag to see which. `list_matcher` reads the first
form and `string_matcher` the second, each of them to match values or to assign what it reads.

The elements of a list pattern are matched until one does not. `string_matcher` searches for an
element that *does* match instead (`find_if`, where its sibling has `find_if_not`).

## Main results

* `assignElements_flatten` — the elements of a list are read back one by one
* `ListMatcher.assignList_of_reads`, `EString.assignMatched_stringExtG` — and so are whole lists and
  strings
-/

namespace TinchPp

open Wire

variable {σ α : Type}

/-! ### Integers -/

/-- `int_`, with the data members that `match_string_element` looks at. -/
structure IntObject (σ : Type) extends Object σ where
  val : Int32
  toAssign : Option (Pointer σ Int32)

namespace IntObject

def ofValue (val : Int32) : IntObject σ := ⟨Int_.ofValue val, val, none⟩

def ofPointer (toAssign : Pointer σ Int32) : IntObject σ :=
  ⟨⟨Int_.serialize 0, assignMatched integer toAssign⟩, 0, some toAssign⟩

def ofAny (any : Any σ) : IntObject σ := ⟨⟨Int_.serialize 0, matchAny integer 0 any⟩, 0, none⟩

/-- An element of a packed string, as an `int`. -/
def ofElement (res : UInt8) : Int32 := res.toUInt32.toInt32

/-- `match_string_element`. Whatever is not a variable is compared with the value, which is zero in
a wildcard. -/
def matchStringElement (o : IntObject σ) : Matcher σ := fun f v =>
  match binaryToTerm byte f 0, o.toAssign with
  | (true, f, res), some toAssign => some (true, f, toAssign.set (ofElement res) v)
  | (success, f, res), _ => some (success && decide (o.val = ofElement res), f, v)

end IntObject

/-! ### What the two matchers have in common -/

/-- The loop of `assign_match`: an element is pushed even if it could not be read, and then it is
the last one. -/
def assignElements (p : Qi α) (toAssign : α) : ℕ → MsgSeq → List α → Bool × MsgSeq × List α
  | 0, f, val => (true, f, val)
  | n + 1, f, val =>
    match binaryToTerm p f toAssign with
    | (true, f, a) => assignElements p toAssign n f (val ++ [a])
    | (false, f, a) => (false, f, val ++ [a])

/-- One round of it. -/
def assignElement (p : Qi α) (toAssign : α) (s : MsgSeq × List α) :
    Option (Bool × MsgSeq × List α) :=
  match binaryToTerm p s.1 toAssign with
  | (success, f, a) => some (success, f, s.2 ++ [a])

theorem assignElements_eq_run (p : Qi α) (toAssign : α) (n : ℕ) (f : MsgSeq) (val : List α) :
    some (assignElements p toAssign n f val) =
      CountedLoop.run (assignElement p toAssign) n (f, val) := by
  induction n generalizing f val with
  | zero => rfl
  | succ n ih =>
    rw [assignElements, CountedLoop.run, assignElement]
    rcases binaryToTerm p f toAssign with ⟨_ | _, f', a⟩
    · rfl
    · exact ih f' (val ++ [a])

/-! ### `list_matcher` -/

namespace ListMatcher

/-- The nil at the end is read whether the elements have matched or not. -/
def matchFn (val : List (Object σ)) : Matcher σ := fun f v =>
  match binaryToTerm listHeadExt f 0 with
  | (success, f, parsedLength) =>
    match if success && decide (val.length = parsedLength) then ETuple.matchAll val f v
      else some (false, f, v) with
    | none => none
    | some (matched, f, v) => some (matched, (binaryToTerm nilExt f ()).2.1, v)

/-- `assign_match`, into a list of values. -/
def assignList (p : Qi α) (toAssign : α) (f : MsgSeq) (val : List α) : Bool × MsgSeq × List α :=
  match binaryToTerm listHeadExt f 0 with
  | (false, f, _) => (false, f, val)
  | (true, f, parsedLength) =>
    match assignElements p toAssign parsedLength f val with
    | (false, f, val) => (false, f, val)
    | (true, f, val) => ((binaryToTerm nilExt f ()).1, (binaryToTerm nilExt f ()).2.1, val)

end ListMatcher

/-! ### `string_matcher` -/

namespace StringMatcher

/-- `std::find_if`: the search goes on while elements do *not* match, and has come to the end if
none does. -/
def matchNone : List (IntObject σ) → Matcher σ
  | [], f, v => some (true, f, v)
  | o :: val, f, v =>
    match o.matchStringElement f v with
    | none => none
    | some (true, f, v) => some (false, f, v)
    | some (false, f, v) => matchNone val f v

def matchFn (val : List (IntObject σ)) : Matcher σ := fun f v =>
  match binaryToTerm stringHeadExt f 0 with
  | (success, f, parsedLength) =>
    if success && decide (val.length = parsedLength) then matchNone val f v
    else some (false, f, v)

/-- An element is a byte, assigned to an `int`. -/
def element : Qi Int32 := assign byte 0 fun res _ => IntObject.ofElement res

/-- `assign_match`, into a list of values. -/
def assignList (f : MsgSeq) (val : List Int32) : Bool × MsgSeq × List Int32 :=
  match binaryToTerm stringHeadExt f 0 with
  | (false, f, _) => (false, f, val)
  | (true, f, parsedLength) => assignElements element 0 parsedLength f val

end StringMatcher

/-! ### `list<T>` -/

namespace ErlList

def serialize (val : List (Object σ)) : MsgSeq :=
  listHeadG val.length ++ (val.map Object.serialize).flatten ++ nilExtG

def ofValue (val : List (Object σ)) : Object σ := ⟨serialize val, ListMatcher.matchFn val⟩

/-- A pattern with a variable, from the grammar of its elements and what they are read into. -/
def ofPointer (p : Qi α) (toAssign : α) (contained : Pointer σ (List α)) : Object σ :=
  ⟨serialize ([] : List (Object σ)), assignThrough (ListMatcher.assignList p toAssign) contained⟩

end ErlList

/-! ### `list<int_>` -/

namespace IntList

/-- Erlang has an optimization for sending lists of small values, where the values are packed into a
string. -/
def dispatchOnTag (packed unpacked : Matcher σ) : Matcher σ
  | [], _ => none
  | c :: f, v => if c = TypeTag.stringExt then packed (c :: f) v else unpacked (c :: f) v

theorem dispatchOnTag_stringExt (packed unpacked : Matcher σ) (f : MsgSeq) (v : σ) :
    dispatchOnTag packed unpacked (TypeTag.stringExt :: f) v =
      packed (TypeTag.stringExt :: f) v := by
  rw [dispatchOnTag, if_pos rfl]

theorem dispatchOnTag_list (packed unpacked : Matcher σ) (f : MsgSeq) (v : σ) :
    dispatchOnTag packed unpacked (TypeTag.list :: f) v = unpacked (TypeTag.list :: f) v := by
  rw [dispatchOnTag, if_neg (by decide)]

def ofValue (val : List (IntObject σ)) : Object σ :=
  ⟨ErlList.serialize (val.map IntObject.toObject),
    dispatchOnTag (StringMatcher.matchFn val) (ListMatcher.matchFn (val.map IntObject.toObject))⟩

def ofPointer (contained : Pointer σ (List Int32)) : Object σ :=
  ⟨ErlList.serialize ([] : List (Object σ)),
    dispatchOnTag (assignThrough StringMatcher.assignList contained)
      (assignThrough (ListMatcher.assignList integer 0) contained)⟩

end IntList

/-! ### `e_string` -/

namespace EString

/-- `create_int`: a `char` is sign-extended on the way to an `int`. -/
def createInt (val : UInt8) : IntObject σ := .ofValue (promote val)

/-- `assign_matched_string`: the list implementation reads integers, which are then shrunk to
`char`s and appended. -/
def assignMatched (f : MsgSeq) (toAssign : Str) : Bool × MsgSeq × Str :=
  match StringMatcher.assignList f [] with
  | (res, f, asInts) => (res, f, toAssign ++ asInts.map narrow)

def ofValue (val : Str) : Object σ := ⟨stringExtG val, StringMatcher.matchFn (val.map createInt)⟩

def ofPointer (toAssign : Pointer σ Str) : Object σ :=
  ⟨stringExtG [], assignThrough assignMatched toAssign⟩

def ofAny (any : Any σ) : Object σ := ⟨stringExtG [], matchAnyThrough assignMatched [] any⟩

end EString

/-! ### Lists are read back -/

/-- **The elements of a list are read back one by one.** -/
theorem assignElements_flatten {p : Qi α} {toAssign : α} {enc : α → MsgSeq} {xs : List α}
    (hread : ∀ x ∈ xs, ∀ s, p (enc x ++ s) toAssign = (some s, x)) (s : MsgSeq) (val : List α) :
    assignElements p toAssign xs.length ((xs.map enc).flatten ++ s) val = (true, s, val ++ xs) := by
  induction xs generalizing val with
  | nil => simp [assignElements]
  | cons x xs ih =>
    have hx := hread x List.mem_cons_self ((xs.map enc).flatten ++ s)
    rw [List.length_cons, List.map_cons, List.flatten_cons, List.append_assoc, assignElements,
      binaryToTerm_of_some hx]
    dsimp only
    rw [ih fun y hy => hread y (List.mem_cons_of_mem x hy), List.append_assoc,
    List.singleton_append]

/-- A list whose elements can be read. -/
theorem ListMatcher.assignList_of_reads {p : Qi α} {toAssign : α} {enc : α → MsgSeq} {xs : List α}
    (hread : ∀ x ∈ xs, ∀ s, p (enc x ++ s) toAssign = (some s, x))
    (hlen : xs.length < 4294967296) (s : MsgSeq) (val : List α) :
    assignList p toAssign (listHeadG xs.length ++ (xs.map enc).flatten ++ nilExtG ++ s) val =
      (true, s, val ++ xs) := by
  have hnil : binaryToTerm nilExt (nilExtG ++ s) () = (true, s, ()) :=
    binaryToTerm_of_some (lit_cons_self _ _ _)
  rw [assignList, List.append_assoc, List.append_assoc,
    binaryToTerm_of_some (listHeadExt_listHeadG hlen _ _)]
  dsimp only
  rw [assignElements_flatten hread]
  dsimp only
  rw [hnil]

/-- An element is the byte it was. -/
theorem narrow_ofElement (c : UInt8) : narrow (IntObject.ofElement c) = c := by
  rw [← UInt8.toBitVec_inj]
  simp [narrow, IntObject.ofElement, BitVec.signExtend_eq_setWidth_of_le]

/-- A packed string, as the integers it is made of. -/
theorem StringMatcher.assignList_stringExtG {str : Str} (h : str.length < 65536) (s : MsgSeq)
    (val : List Int32) : assignList (stringExtG str ++ s) val =
      (true, s, val ++ str.map IntObject.ofElement) := by
  have hread : ∀ n ∈ str.map IntObject.ofElement, ∀ s,
      element ([narrow n] ++ s) 0 = (some s, n) := by
    intro n hn s
    obtain ⟨c, -, rfl⟩ := List.mem_map.mp hn
    rw [narrow_ofElement]
    rfl
  have hbytes : ((str.map IntObject.ofElement).map fun n => [narrow n]).flatten = str := by
    rw [List.map_map, ← List.flatMap_def]
    simp [Function.comp_def, narrow_ofElement]
  have helements := assignElements_flatten hread s val
  rw [List.length_map, hbytes] at helements
  rw [assignList, binaryToTerm_of_some (stringHeadExt_stringExtG h s 0)]
  exact helements

/-- A string is read back. -/
theorem EString.assignMatched_stringExtG {str : Str} (h : str.length < 65536) (s : MsgSeq)
    (toAssign : Str) : assignMatched (stringExtG str ++ s) toAssign =
      (true, s, toAssign ++ str) := by
  rw [assignMatched, StringMatcher.assignList_stringExtG h]
  simp [Function.comp_def, narrow_ofElement]

theorem EString.reads_ofPointer {str : Str} (h : str.length < 65536) {toAssign : Pointer σ Str}
    {v : σ} (hv : toAssign.get v = []) :
    (EString.ofPointer toAssign).Reads (stringExtG str) v (toAssign.set str v) := by
  refine reads_assignThrough (fun s => ?_) _
  rw [hv, assignMatched_stringExtG h, List.nil_append]

end TinchPp
