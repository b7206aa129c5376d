import TinchPp.ListMatcher

/-!
# Lists of integers, as Erlang sends them

Erlang has three forms for a proper list of integers. The empty list is a nil, a list of bytes that
is not too long is packed into a string, and everything else is a head, the elements and a nil. A
pattern with a variable for such a list looks at the tag, and takes everything that is no string for
the third form.

## Main results

* `received_iff` — exactly which lists are received
-/

namespace TinchPp

open Wire

variable {σ : Type}

/-- An integer that fits an element of a string. -/
def FitsString (n : Int32) : Prop := 0 ≤ n ∧ n ≤ 255

instance : DecidablePred FitsString := fun n => inferInstanceAs (Decidable (0 ≤ n ∧ n ≤ 255))

/-- The encoding that Erlang's sender chooses for a list. A list that is too long for the head of
the third form has none. -/
def sentList (xs : List Int32) : Option MsgSeq :=
  if xs = [] then some nilExtG
  else if xs.length ≤ 65535 ∧ xs.all fun x => FitsString x then some (stringExtG (xs.map narrow))
  else if xs.length < 4294967296 then
    some (listHeadG xs.length ++ (xs.map Int_.serialize).flatten ++ nilExtG)
  else none

/-- Whatever follows the encoding of `xs`, the pattern matches, stops right after it and leaves
`xs` in the variable. -/
def Received (dest : Pointer σ (List Int32)) (xs : List Int32) (v : σ) : Prop :=
  ∀ enc, sentList xs = some enc → ∀ s, ∃ v',
    (IntList.ofPointer dest).matchFn (enc ++ s) v = some (true, s, v') ∧ dest.get v' = xs

/-- An element of a string is the integer it was. -/
theorem ofElement_narrow {n : Int32} (hn : FitsString n) : IntObject.ofElement (narrow n) = n := by
  have hnarrow : narrow n = UInt8.ofNat n.toUInt32.toNat := by
    rw [← UInt8.toBitVec_inj]
    simp [narrow, BitVec.signExtend_eq_setWidth_of_le]
  rw [IntObject.ofElement, hnarrow, toInt32_of_small hn]

theorem map_ofElement_narrow {xs : List Int32} (hxs : ∀ x ∈ xs, FitsString x) :
    (xs.map narrow).map IntObject.ofElement = xs := by
  rw [List.map_map]
  exact (List.map_congr_left fun x hx => ofElement_narrow (hxs x hx)).trans (List.map_id xs)

variable {dest : Pointer σ (List Int32)} {v : σ}

/-- A packed list. -/
theorem matchFn_stringExtG {xs : List Int32} (hlen : xs.length ≤ 65535)
    (hxs : ∀ x ∈ xs, FitsString x) (hv : dest.get v = []) (s : MsgSeq) :
    (IntList.ofPointer dest).matchFn (stringExtG (xs.map narrow) ++ s) v =
      some (true, s, dest.set xs v) := by
  have hlen' : (xs.map narrow).length < 65536 := by
    rw [List.length_map]
    omega
  have htag : (IntList.ofPointer dest).matchFn (stringExtG (xs.map narrow) ++ s) v =
      assignThrough StringMatcher.assignList dest (stringExtG (xs.map narrow) ++ s) v :=
    IntList.dispatchOnTag_stringExt _ (assignThrough (ListMatcher.assignList integer 0) dest) _ v
  rw [htag, assignThrough, hv, StringMatcher.assignList_stringExtG hlen', map_ofElement_narrow hxs,
    List.nil_append]

/-- A list with a head. -/
theorem matchFn_listHeadG {xs : List Int32} (hlen : xs.length < 4294967296) (hv : dest.get v = [])
    (s : MsgSeq) : (IntList.ofPointer dest).matchFn
      (listHeadG xs.length ++ (xs.map Int_.serialize).flatten ++ nilExtG ++ s) v =
        some (true, s, dest.set xs v) := by
  have htag : (IntList.ofPointer dest).matchFn
      (listHeadG xs.length ++ (xs.map Int_.serialize).flatten ++ nilExtG ++ s) v =
        assignThrough (ListMatcher.assignList integer 0) dest
          (listHeadG xs.length ++ (xs.map Int_.serialize).flatten ++ nilExtG ++ s) v :=
    IntList.dispatchOnTag_list (assignThrough StringMatcher.assignList dest) _ _ v
  rw [htag, assignThrough, hv,
    ListMatcher.assignList_of_reads (fun x _ s => integer_serialize x s 0) hlen, List.nil_append]

/-- The empty list. Its tag is taken for the one of a head, and there is none. -/
theorem matchFn_nilExtG (hv : dest.get v = []) (s : MsgSeq) :
    (IntList.ofPointer dest).matchFn (nilExtG ++ s) v =
      some (false, nilExtG ++ s, dest.set [] v) := by
  have hhead : binaryToTerm listHeadExt (nilExtG ++ s) 0 = (false, nilExtG ++ s, 0) :=
    binaryToTerm_of_none (seq_of_none (lit_cons_of_ne (by decide) _ _))
  show assignThrough (ListMatcher.assignList integer 0) dest (nilExtG ++ s) v = _
  rw [assignThrough, hv, ListMatcher.assignList, hhead]

/-- **Which of the lists Erlang sends are received.** All of them, but for the empty one. -/
theorem received_iff (xs : List Int32) (hv : dest.get v = []) :
    Received dest xs v ↔ xs ≠ [] := by
  constructor
  · rintro h rfl
    obtain ⟨v', hmatch, -⟩ := h nilExtG rfl []
    rw [matchFn_nilExtG hv] at hmatch
    cases hmatch
  · intro hne enc henc s
    refine ⟨dest.set xs v, ?_, dest.get_set xs v⟩
    rw [sentList, if_neg hne] at henc
    split at henc
    · next hstring =>
      rw [← Option.some_inj.mp henc]
      refine matchFn_stringExtG hstring.1 (fun x hx => ?_) hv s
      simpa using List.all_eq_true.mp hstring.2 x hx
    · split at henc
      · next hlen =>
        rw [← Option.some_inj.mp henc]
        exact matchFn_listHeadG hlen hv s
      · cases henc

/-- A list with an integer that is no byte. -/
theorem received_iff_large : Received (.whole (List Int32)) [255, 256] [] ↔ ([255, 256] : List Int32) ≠ [] :=
  received_iff [255, 256] rfl

theorem empty_list_not_received : ¬ ∀ xs, Received (.whole (List Int32)) xs [] := by
  intro h
  obtain ⟨v', hmatch, -⟩ := h [] nilExtG rfl []
  rw [matchFn_nilExtG rfl] at hmatch
  cases hmatch

end TinchPp
