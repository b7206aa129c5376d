import Mathlib.Logic.Function.Basic
import TinchPp.ListMatcher

/-!
# Packed and unpacked lists

A sender chooses between the two forms of a list of small integers by the data, so a pattern should
not see the difference. It does: in a packed list `string_matcher` wants *no* element to match, and
compares a wildcard with zero.

Element by element, a pattern and an integer fall into three classes. A constant may differ from its
integer (`Differs`), which only the list matcher objects to. A wildcard at an integer other than
zero passes both matchers. Everything else is taken for a match by `match_string_element` (`Hits`),
which only the string matcher objects to. A variable is bound on the way, even where the match fails
later.

## Main results

* `matchOn_stringExtG`, `matchOn_listExtG` — what the two matchers make of the same integers
* `packed_iff` — exactly when the two forms are told apart
-/

namespace TinchPp

open Wire

/-! ### Patterns for integers -/

/-- The variables of a pattern, and the bytes that its `any`s have collected. -/
structure PatternVars where
  ints : ℕ → Int32
  anys : ℕ → MsgSeq

namespace PatternVars

def int (x : ℕ) : Pointer PatternVars Int32 where
  get v := v.ints x
  set n v := { v with ints := Function.update v.ints x n }
  get_set n v := Function.update_self x n v.ints

def any (a : ℕ) : Any PatternVars where
  get v := v.anys a
  set bytes v := { v with anys := Function.update v.anys a bytes }
  get_set bytes v := Function.update_self a bytes v.anys

end PatternVars

/-- The three kinds of `int_`. -/
inductive IntPattern
  | constant (n : Int32)
  | var (x : ℕ)
  | wildcard (a : ℕ)
deriving DecidableEq, Repr

namespace IntPattern

def toObject : IntPattern → IntObject PatternVars
  | constant n => .ofValue n
  | var x => .ofPointer (PatternVars.int x)
  | wildcard a => .ofAny (PatternVars.any a)

/-- What is bound when an element is matched. -/
def bindOne : IntPattern × UInt8 → (ℕ → Int32) → ℕ → Int32
  | (var x, n), ints => Function.update ints x (IntObject.ofElement n)
  | _, ints => ints

/-- A constant and another integer. -/
def Differs : IntPattern × UInt8 → Prop
  | (constant n, m) => n ≠ IntObject.ofElement m
  | _ => False

/-- What `match_string_element` takes for a match. -/
def Hits : IntPattern × UInt8 → Prop
  | (constant n, m) => n = IntObject.ofElement m
  | (var _, _) => True
  | (wildcard _, m) => m = 0

/-- A wildcard, and an integer other than zero. -/
def Passes : IntPattern × UInt8 → Prop
  | (wildcard _, m) => m ≠ 0
  | _ => False

instance : DecidablePred Differs
  | (constant n, m) => inferInstanceAs (Decidable (n ≠ IntObject.ofElement m))
  | (var _, _) => inferInstanceAs (Decidable False)
  | (wildcard _, _) => inferInstanceAs (Decidable False)

instance : DecidablePred Hits
  | (constant n, m) => inferInstanceAs (Decidable (n = IntObject.ofElement m))
  | (var _, _) => inferInstanceAs (Decidable True)
  | (wildcard _, m) => inferInstanceAs (Decidable (m = 0))

/-- The variable of an element, with the integer it stands at. -/
def variableOf : IntPattern × UInt8 → Option (ℕ × UInt8)
  | (var x, n) => some (x, n)
  | _ => none

theorem passes_iff (z : IntPattern × UInt8) : Passes z ↔ ¬ Differs z ∧ ¬ Hits z := by
  obtain ⟨_ | _ | _, m⟩ := z <;> simp [Passes, Differs, Hits]

/-! ### One element -/

theorem ofElement_injective : Function.Injective IntObject.ofElement :=
  Function.LeftInverse.injective narrow_ofElement

theorem integer_ofElement (n : UInt8) (s : MsgSeq) (a : Int32) :
    integer (smallIntegerG n.toNat ++ s) a = (some s, IntObject.ofElement n) := by
  rw [integer_of_smallInteger, UInt8.ofNat_toNat, IntObject.ofElement]

theorem matchFn_element (p : IntPattern) (n : UInt8) (s : MsgSeq) (v : PatternVars) :
    ∃ v', p.toObject.matchFn (smallIntegerG n.toNat ++ s) v =
      some (decide (¬ Differs (p, n)), s, v') ∧ v'.ints = bindOne (p, n) v.ints := by
  cases p with
  | constant k =>
    refine ⟨v, ?_, rfl⟩
    have hmatch := matchValue_of_some (integer_ofElement n s 0) k v
    simpa [toObject, IntObject.ofValue, Int_.ofValue, Differs] using hmatch
  | var x =>
    exact ⟨(PatternVars.int x).set (IntObject.ofElement n) v,
      reads_assignMatched (fun s => integer_ofElement n s (v.ints x)) _ s, rfl⟩
  | wildcard a =>
    exact ⟨_, reads_matchAny (fun s => integer_ofElement n s 0) _ v s, rfl⟩

theorem matchStringElement_element (p : IntPattern) (n : UInt8) (s : MsgSeq) (v : PatternVars) :
    ∃ v', p.toObject.matchStringElement (n :: s) v = some (decide (Hits (p, n)), s, v') ∧
      v'.ints = bindOne (p, n) v.ints := by
  cases p with
  | constant k => exact ⟨v, rfl, rfl⟩
  | var x => exact ⟨(PatternVars.int x).set (IntObject.ofElement n) v, rfl, rfl⟩
  | wildcard a =>
    have hzero : (0 = IntObject.ofElement n) = (n = 0) :=
      propext ⟨fun h => ofElement_injective h.symm, fun h => h ▸ rfl⟩
    refine ⟨v, ?_, rfl⟩
    show some (decide (0 = IntObject.ofElement n), s, v) = some (decide (n = 0), s, v)
    simp only [hzero]

/-! ### A list of elements -/

/-- The list matcher binds the variables in front of the first constant that differs. -/
def boundInList (zs : List (IntPattern × UInt8)) : List (ℕ × UInt8) :=
  (zs.takeWhile fun z => ¬ Differs z).filterMap variableOf

/-- The string matcher binds the variable that is the first element to hit, if it is one. -/
def boundInString (zs : List (IntPattern × UInt8)) : List (ℕ × UInt8) :=
  ((zs.find? fun z => Hits z).bind variableOf).toList

/-- Bind variables one after the other. -/
def bindAll (bound : List (ℕ × UInt8)) (ints : ℕ → Int32) : ℕ → Int32 :=
  bound.foldl (fun ints b => Function.update ints b.1 (IntObject.ofElement b.2)) ints

theorem bindAll_toList (z : IntPattern × UInt8) (ints : ℕ → Int32) :
    bindAll (variableOf z).toList ints = bindOne z ints := by
  obtain ⟨_ | _ | _, m⟩ := z <;> rfl

theorem bindAll_append (as bs : List (ℕ × UInt8)) (ints : ℕ → Int32) :
    bindAll (as ++ bs) ints = bindAll bs (bindAll as ints) :=
  List.foldl_append

theorem matchAll_elements (zs : List (IntPattern × UInt8)) (s : MsgSeq) (v : PatternVars) :
    ∃ rest v', ETuple.matchAll (zs.map fun z => z.1.toObject.toObject)
      ((zs.map fun z => smallIntegerG z.2.toNat).flatten ++ s) v =
        some (decide (∀ z ∈ zs, ¬ Differs z), rest, v') ∧
      v'.ints = bindAll (boundInList zs) v.ints := by
  induction zs generalizing v with
  | nil => exact ⟨s, v, by simp [ETuple.matchAll], rfl⟩
  | cons z zs ih =>
    obtain ⟨v₁, hz, hv₁⟩ := matchFn_element z.1 z.2
      ((zs.map fun z => smallIntegerG z.2.toNat).flatten ++ s) v
    rw [List.map_cons, List.map_cons, List.flatten_cons, List.append_assoc, ETuple.matchAll, hz]
    by_cases hdiff : Differs z
    · -- the first element that differs ends the match, and is no variable
      refine ⟨(zs.map fun z => smallIntegerG z.2.toNat).flatten ++ s, v₁, by simp [hdiff], ?_⟩
      obtain ⟨_ | _ | _, m⟩ := z <;> simp [Differs] at hdiff
      rw [hv₁, boundInList, List.takeWhile_cons_of_neg (by simpa [Differs] using hdiff)]
      rfl
    · obtain ⟨rest, v', hzs, hv'⟩ := ih v₁
      refine ⟨rest, v', ?_, ?_⟩
      · simp only [hdiff, not_false_eq_true, decide_true]
        rw [hzs]
        simp [hdiff]
      · have hbound : boundInList (z :: zs) = (variableOf z).toList ++ boundInList zs := by
          rw [boundInList, List.takeWhile_cons_of_pos (by simpa using hdiff), List.filterMap_cons]
          cases variableOf z <;> rfl
        rw [hv', hv₁, hbound, bindAll_append, bindAll_toList]

theorem matchNone_elements (zs : List (IntPattern × UInt8)) (s : MsgSeq) (v : PatternVars) :
    ∃ rest v', StringMatcher.matchNone (zs.map fun z => z.1.toObject) (zs.map Prod.snd ++ s) v =
        some (decide (∀ z ∈ zs, ¬ Hits z), rest, v') ∧
      v'.ints = bindAll (boundInString zs) v.ints := by
  induction zs generalizing v with
  | nil => exact ⟨s, v, by simp [StringMatcher.matchNone], rfl⟩
  | cons z zs ih =>
    obtain ⟨v₁, hz, hv₁⟩ := matchStringElement_element z.1 z.2 (zs.map Prod.snd ++ s) v
    rw [List.map_cons, List.map_cons, List.cons_append, StringMatcher.matchNone, hz]
    by_cases hhit : Hits z
    · refine ⟨zs.map Prod.snd ++ s, v₁, by simp [hhit], ?_⟩
      rw [hv₁, boundInString, List.find?_cons_of_pos (by simpa using hhit), Option.bind_some,
        bindAll_toList]
    · -- what does not hit is no variable
      have hsame : bindOne z v.ints = v.ints := by
        obtain ⟨_ | _ | _, m⟩ := z <;> simp [Hits] at hhit <;> rfl
      obtain ⟨rest, v', hzs, hv'⟩ := ih v₁
      refine ⟨rest, v', ?_, ?_⟩
      · simp only [hhit, decide_false]
        rw [hzs]
        simp [hhit]
      · rw [hv', hv₁, hsame, boundInString, boundInString,
          List.find?_cons_of_neg (by simpa using hhit)]

/-! ### The two forms of a list -/

/-- The unpacked form of a list of small integers. -/
def listExtG (ns : List UInt8) : MsgSeq :=
  listHeadG ns.length ++ (ns.map fun n => smallIntegerG n.toNat).flatten ++ nilExtG

/-- Match the pattern, to the answer and the variables. -/
def matchOn (ps : List IntPattern) (f : MsgSeq) (v : PatternVars) : Option (Bool × (ℕ → Int32)) :=
  ((IntList.ofValue (ps.map toObject)).matchFn f v).map fun r => (r.1, r.2.2.ints)

/-- The elements of the list, each with its pattern. -/
theorem exists_zip {ps : List IntPattern} {ns : List UInt8} (h : ps.length = ns.length) :
    ∃ zs, ps.zip ns = zs ∧ ps = zs.map Prod.fst ∧ ns = zs.map Prod.snd :=
  ⟨ps.zip ns, rfl, (List.map_fst_zip h.le).symm, (List.map_snd_zip h.ge).symm⟩

theorem matchOn_stringExtG {ns : List UInt8} (hlen : ns.length < 65536) (ps : List IntPattern)
    (s : MsgSeq) (v : PatternVars) : matchOn ps (stringExtG ns ++ s) v =
      if ps.length = ns.length then
        some (decide (∀ z ∈ ps.zip ns, ¬ Hits z), bindAll (boundInString (ps.zip ns)) v.ints)
      else some (false, v.ints) := by
  have htag : (IntList.ofValue (ps.map toObject)).matchFn (stringExtG ns ++ s) v =
      StringMatcher.matchFn (ps.map toObject) (stringExtG ns ++ s) v :=
    IntList.dispatchOnTag_stringExt _
      (ListMatcher.matchFn ((ps.map toObject).map IntObject.toObject)) _ v
  rw [matchOn, htag, StringMatcher.matchFn,
    binaryToTerm_of_some (stringHeadExt_stringExtG hlen s 0)]
  dsimp only
  rw [List.length_map]
  by_cases h : ps.length = ns.length
  · obtain ⟨zs, hzs, hps, hns⟩ := exists_zip h
    obtain ⟨rest, v', hmatch, hv'⟩ := matchNone_elements zs s v
    rw [if_pos (by simpa using h), if_pos h, hzs, hps, hns, List.map_map, ← hv']
    have hnone : StringMatcher.matchNone (zs.map (toObject ∘ Prod.fst)) (zs.map Prod.snd ++ s) v =
        some (decide (∀ z ∈ zs, ¬ Hits z), rest, v') := hmatch
    rw [hnone]
    rfl
  · rw [if_neg (by simpa using h), if_neg h]
    rfl

theorem matchOn_listExtG {ns : List UInt8} (hlen : ns.length < 65536) (ps : List IntPattern)
    (s : MsgSeq) (v : PatternVars) : matchOn ps (listExtG ns ++ s) v =
      if ps.length = ns.length then
        some (decide (∀ z ∈ ps.zip ns, ¬ Differs z), bindAll (boundInList (ps.zip ns)) v.ints)
      else some (false, v.ints) := by
  have htag : (IntList.ofValue (ps.map toObject)).matchFn (listExtG ns ++ s) v =
      ListMatcher.matchFn ((ps.map toObject).map IntObject.toObject) (listExtG ns ++ s) v :=
    IntList.dispatchOnTag_list (StringMatcher.matchFn (ps.map toObject)) _ _ v
  have hhead := listHeadExt_listHeadG (show ns.length < 4294967296 by omega)
    ((ns.map fun n => smallIntegerG n.toNat).flatten ++ (nilExtG ++ s)) 0
  rw [matchOn, htag, ListMatcher.matchFn, listExtG, List.append_assoc,
    List.append_assoc, binaryToTerm_of_some hhead]
  dsimp only
  rw [List.length_map, List.length_map]
  by_cases h : ps.length = ns.length
  · obtain ⟨zs, hzs, hps, hns⟩ := exists_zip h
    obtain ⟨rest, v', hmatch, hv'⟩ := matchAll_elements zs (nilExtG ++ s) v
    rw [if_pos (by simpa using h), if_pos h, hzs, hps, hns, List.map_map, List.map_map,
      List.map_map, ← hv']
    have hall : ETuple.matchAll (zs.map ((IntObject.toObject ∘ toObject) ∘ Prod.fst))
        ((zs.map ((fun n => smallIntegerG n.toNat) ∘ Prod.snd)).flatten ++ (nilExtG ++ s)) v =
          some (decide (∀ z ∈ zs, ¬ Differs z), rest, v') := hmatch
    rw [hall]
    rfl
  · rw [if_neg (by simpa using h), if_neg h]
    rfl

/-! ### When the difference shows -/

theorem bindAll_single_self (b : ℕ × UInt8) (ints : ℕ → Int32) :
    bindAll [b] ints b.1 = IntObject.ofElement b.2 :=
  Function.update_self _ _ _

theorem bindAll_single_of_ne {b : ℕ × UInt8} {x : ℕ} (hx : x ≠ b.1) (ints : ℕ → Int32) :
    bindAll [b] ints x = ints x :=
  Function.update_of_ne hx _ _

/-- A variable that is bound again and again ends with a value of its own, whatever it was. -/
theorem bindAll_of_mem {bound : List (ℕ × UInt8)} {x : ℕ} (hx : x ∈ bound.map Prod.fst) :
    ∃ n, ∀ ints, bindAll bound ints x = n := by
  induction bound using List.reverseRecOn with
  | nil => cases hx
  | append_singleton bound b ih =>
    by_cases hb : x = b.1
    · refine ⟨IntObject.ofElement b.2, fun ints => ?_⟩
      rw [bindAll_append, hb, bindAll_single_self]
    · have hmem : x ∈ bound.map Prod.fst := by simpa [hb] using hx
      obtain ⟨n, hn⟩ := ih hmem
      refine ⟨n, fun ints => ?_⟩
      rw [bindAll_append, bindAll_single_of_ne hb, hn]

theorem bindAll_of_not_mem {bound : List (ℕ × UInt8)} {x : ℕ} (hx : x ∉ bound.map Prod.fst)
    (ints : ℕ → Int32) : bindAll bound ints x = ints x := by
  induction bound using List.reverseRecOn with
  | nil => rfl
  | append_singleton bound b ih =>
    rw [List.map_append, List.mem_append, not_or] at hx
    rw [bindAll_append, bindAll_single_of_ne (by simpa using hx.2), ih hx.1]

/-- Only a variable that is not bound always keeps its value. -/
theorem not_mem_of_bindAll {bound : List (ℕ × UInt8)} {x : ℕ}
    (h : ∀ ints, bindAll bound ints x = ints x) : x ∉ bound.map Prod.fst := by
  intro hx
  obtain ⟨n, hn⟩ := bindAll_of_mem hx
  have hall (m : Int32) : m = n := (h fun _ => m).symm.trans (hn _)
  exact absurd ((hall 0).trans (hall 1).symm) (by decide)

theorem bindAll_eq_self_iff {bound : List (ℕ × UInt8)} :
    (∀ ints, bindAll bound ints = ints) ↔ bound = [] := by
  constructor
  · intro h
    cases bound with
    | nil => rfl
    | cons b bound =>
      exact absurd List.mem_cons_self
        (not_mem_of_bindAll (x := b.1) fun ints => congrFun (h ints) b.1)
  · rintro rfl ints
    rfl

/-- Binding all of them comes to binding one of them to one integer. -/
theorem bindAll_eq_single_iff {bound : List (ℕ × UInt8)} {b : ℕ × UInt8} :
    (∀ ints, bindAll bound ints = bindAll [b] ints) ↔
      ∃ before, bound = before ++ [b] ∧ ∀ a ∈ before, a.1 = b.1 := by
  constructor
  · intro h
    have hname : ∀ a ∈ bound, a.1 = b.1 := by
      intro a ha
      by_contra hne
      refine not_mem_of_bindAll (x := a.1) (fun ints => ?_) (List.mem_map_of_mem ha)
      rw [h ints, bindAll_single_of_ne hne]
    rcases List.eq_nil_or_concat' bound with rfl | ⟨before, c, rfl⟩
    · have hall (n : Int32) : n = IntObject.ofElement b.2 :=
        (congrFun (h fun _ => n) b.1).trans (bindAll_single_self b _)
      exact absurd ((hall 0).trans (hall 1).symm) (by decide)
    · have hc : c.1 = b.1 := hname c (by simp)
      have hlast := congrFun (h fun _ => 0) b.1
      rw [bindAll_append, bindAll_single_self, ← hc, bindAll_single_self] at hlast
      refine ⟨before, ?_, fun a ha => hname a (List.mem_append_left _ ha)⟩
      rw [Prod.ext hc (ofElement_injective hlast)]
  · rintro ⟨before, rfl, hbefore⟩ ints
    funext x
    rw [bindAll_append]
    by_cases hx : x = b.1
    · rw [hx, bindAll_single_self, bindAll_single_self]
    · have hnot : x ∉ before.map Prod.fst := by
        intro hmem
        obtain ⟨a, ha, rfl⟩ := List.mem_map.mp hmem
        exact hx (hbefore a ha)
      rw [bindAll_single_of_ne hx, bindAll_single_of_ne hx, bindAll_of_not_mem hnot]

/-- The pattern takes the two forms for the same list: it matches both or neither, and where it
does, its variables end with the same values. -/
def SameMatch (ps : List IntPattern) (ns : List UInt8) : Prop :=
  ∀ s v, ∃ success packed unpacked,
    matchOn ps (stringExtG ns ++ s) v = some (success, packed) ∧
      matchOn ps (listExtG ns ++ s) v = some (success, unpacked) ∧
        (success = true → packed = unpacked)

/-- And its variables end with the same values where the match fails, too. -/
def SameMatchAndVariables (ps : List IntPattern) (ns : List UInt8) : Prop :=
  ∀ s v, ∃ success ints, matchOn ps (stringExtG ns ++ s) v = some (success, ints) ∧
    matchOn ps (listExtG ns ++ s) v = some (success, ints)

/-- If the lengths agree, then there are just wildcards and no zeroes, or one element stands in the
way of the one matcher and one in that of the other. -/
def BothOrNeither (ps : List IntPattern) (ns : List UInt8) : Prop :=
  ps.length = ns.length → (∀ z ∈ ps.zip ns, Passes z) ∨
    (∃ z ∈ ps.zip ns, Differs z) ∧ ∃ z ∈ ps.zip ns, Hits z

/-- In front of the first constant that differs there is no variable but, if the first element that
hits is one, that one, the last time at an equal integer. -/
def SameVariables (zs : List (IntPattern × UInt8)) : Prop :=
  match boundInString zs with
  | [] => boundInList zs = []
  | b :: _ => ∃ before, boundInList zs = before ++ [b] ∧ ∀ a ∈ before, a.1 = b.1

theorem sameVariables_iff (zs : List (IntPattern × UInt8)) : SameVariables zs ↔
    ∀ ints, bindAll (boundInString zs) ints = bindAll (boundInList zs) ints := by
  have hcases : boundInString zs = [] ∨ ∃ b, boundInString zs = [b] := by
    rw [boundInString]
    cases (zs.find? fun z => Hits z).bind variableOf with
    | none => exact .inl rfl
    | some b => exact .inr ⟨b, rfl⟩
  rcases hcases with h | ⟨b, h⟩ <;> rw [SameVariables, h]
  · exact bindAll_eq_self_iff.symm.trans (forall_congr' fun _ => eq_comm)
  · exact bindAll_eq_single_iff.symm.trans (forall_congr' fun _ => eq_comm)

/-- The two matchers answer alike. -/
theorem bothOrNeither_iff {ps : List IntPattern} {ns : List UInt8} (h : ps.length = ns.length) :
    BothOrNeither ps ns ↔
      ((∀ z ∈ ps.zip ns, ¬ Hits z) ↔ ∀ z ∈ ps.zip ns, ¬ Differs z) := by
  have hpasses : (∀ z ∈ ps.zip ns, Passes z) ↔
      (∀ z ∈ ps.zip ns, ¬ Differs z) ∧ ∀ z ∈ ps.zip ns, ¬ Hits z := by
    simp only [passes_iff, forall_and]
  have hdiffers : (∃ z ∈ ps.zip ns, Differs z) ↔ ¬ ∀ z ∈ ps.zip ns, ¬ Differs z := by
    simp only [not_forall, not_not, exists_prop]
  have hhits : (∃ z ∈ ps.zip ns, Hits z) ↔ ¬ ∀ z ∈ ps.zip ns, ¬ Hits z := by
    simp only [not_forall, not_not, exists_prop]
  rw [BothOrNeither, hpasses, hdiffers, hhits]
  tauto

/-- Where nothing hits there is no variable. -/
theorem sameVariables_of_not_hits {zs : List (IntPattern × UInt8)} (h : ∀ z ∈ zs, ¬ Hits z) :
    SameVariables zs := by
  have hstring : boundInString zs = [] := by
    have hnone : (zs.find? fun z => Hits z) = none :=
      List.find?_eq_none.mpr fun z hz => by simpa using h z hz
    rw [boundInString, hnone]
    rfl
  rw [SameVariables, hstring]
  refine List.filterMap_eq_nil_iff.mpr fun z hz => ?_
  have hhits := h z ((List.takeWhile_prefix _).subset hz)
  obtain ⟨_ | _ | _, m⟩ := z <;> simp [Hits] at hhits <;> rfl

/-- **When a packed list and an unpacked one are the same to a pattern.** With the lengths equal it
takes that there are just wildcards and no zeroes, or that both matchers find something to object
to. -/
theorem packed_iff {ps : List IntPattern} {ns : List UInt8} (hlen : ns.length < 65536) :
    (SameMatch ps ns ↔ BothOrNeither ps ns) ∧
      (SameMatchAndVariables ps ns ↔ BothOrNeither ps ns ∧
        (ps.length = ns.length → SameVariables (ps.zip ns))) := by
  by_cases h : ps.length = ns.length
  · have hstring (s : MsgSeq) (v : PatternVars) :=
      (matchOn_stringExtG hlen ps s v).trans (if_pos h)
    have hlist (s : MsgSeq) (v : PatternVars) :=
      (matchOn_listExtG hlen ps s v).trans (if_pos h)
    rw [bothOrNeither_iff h]
    constructor
    · constructor
      · intro hsame
        obtain ⟨success, packed, unpacked, hp, hu, -⟩ := hsame [] ⟨fun _ => 0, fun _ => []⟩
        rw [hstring, Option.some_inj, Prod.mk.injEq] at hp
        rw [hlist, Option.some_inj, Prod.mk.injEq] at hu
        exact decide_eq_decide.mp (hp.1.trans hu.1.symm)
      · intro hboth s v
        have hu := hlist s v
        rw [← decide_eq_decide.mpr hboth] at hu
        refine ⟨_, _, _, hstring s v, hu, fun hsuccess => ?_⟩
        exact (sameVariables_iff _).mp
          (sameVariables_of_not_hits (of_decide_eq_true hsuccess)) v.ints
    · constructor
      · intro hsame
        have hall (ints : ℕ → Int32) :
            (decide (∀ z ∈ ps.zip ns, ¬ Hits z), bindAll (boundInString (ps.zip ns)) ints) =
              (decide (∀ z ∈ ps.zip ns, ¬ Differs z), bindAll (boundInList (ps.zip ns)) ints) := by
          obtain ⟨success, ints', hp, hu⟩ := hsame [] ⟨ints, fun _ => []⟩
          rw [hstring] at hp
          rw [hlist] at hu
          exact Option.some_inj.mp (hp.trans hu.symm)
        refine ⟨decide_eq_decide.mp (congrArg Prod.fst (hall fun _ => 0)), fun _ => ?_⟩
        exact (sameVariables_iff _).mpr fun ints => congrArg Prod.snd (hall ints)
      · rintro ⟨hboth, hvars⟩ s v
        refine ⟨_, _, hstring s v, ?_⟩
        rw [hlist, decide_eq_decide.mpr hboth, (sameVariables_iff _).mp (hvars h)]
  · have hstring (s : MsgSeq) (v : PatternVars) :=
      (matchOn_stringExtG hlen ps s v).trans (if_neg h)
    have hlist (s : MsgSeq) (v : PatternVars) :=
      (matchOn_listExtG hlen ps s v).trans (if_neg h)
    have hboth : BothOrNeither ps ns := fun h' => absurd h' h
    have hmatch : SameMatch ps ns := fun s v => ⟨_, _, _, hstring s v, hlist s v, by rintro ⟨⟩⟩
    have hvars : SameMatchAndVariables ps ns := fun s v => ⟨_, _, hstring s v, hlist s v⟩
    exact ⟨iff_of_true hmatch hboth, iff_of_true hvars ⟨hboth, fun h' => absurd h' h⟩⟩

/-- The pattern `[1, X, 3]` is no match for `[1, 2, 4]` in either form: the one matcher objects to the
four, the other one to the one. Its variable ends with the same value. -/
theorem packed_iff_constants :
    SameMatch [.constant 1, .var 0, .constant 3] [1, 2, 4] := by
  refine (packed_iff (by decide)).1.mpr fun _ => .inr ⟨⟨(.constant 3, 4), ?_, ?_⟩,
    (.constant 1, 1), ?_, ?_⟩
  · simp
  · decide
  · simp
  · decide

/-- The constant list `[1]` matches `[1]`, unless it is packed. -/
theorem not_sameMatch_one : ¬ SameMatch [.constant 1] [1] := by
  intro h
  obtain ⟨success, packed, unpacked, hp, hu, -⟩ := h [] ⟨fun _ => 0, fun _ => []⟩
  have hfalse : some false = some success := congrArg (Option.map Prod.fst) hp
  have htrue : some true = some success := congrArg (Option.map Prod.fst) hu
  exact absurd (hfalse.trans htrue.symm) (by decide)

end IntPattern

end TinchPp
