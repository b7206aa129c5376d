import TinchPp.SoundPatterns

/-!
# Matching without faults

Which messages can be matched against every pattern without dereferencing an iterator at the end
and without a failing assertion. An `any` is sound, too, by induction on how deep it goes, and so
all patterns are. For the converse, whatever can be left behind is left behind by a pattern that is
made for it, and at a bad place that can be reached one of three patterns faults.

## Main results

* `AnyObject.matchDynamically_cases` — what an `any` does, by the tag
* `Pattern.sound` — a pattern that matches eats, and it faults only if it reaches a bad place
* `Pattern.exists_faulting` — a bad place that can be reached is reached by some pattern
* `Pattern.never_faults_iff` — the messages that no pattern faults on, exactly
-/

namespace TinchPp

open Wire

variable {σ : Type} {format : FloatFormat} {ndebug : Bool} {f g h rest : MsgSeq} {n k : ℕ}

/-! ### The wildcard -/

/-- Nothing is left of a tuple head but its tag. -/
theorem eq_nil_of_no_head {f : MsgSeq}
    (h : (smallTupleHeadExt (TypeTag.smallTuple :: f) 0).1 = none) : f = [] := by
  cases f with
  | nil => rfl
  | cons c f => cases h

theorem length_lt_of_no_head {f : MsgSeq}
    (h : (listHeadExt (TypeTag.list :: f) 0).1 = none) : f.length < 4 := by
  rcases f with _ | ⟨b₃, _ | ⟨b₂, _ | ⟨b₁, _ | ⟨b₀, f⟩⟩⟩⟩
  · exact Nat.succ_pos 3
  · exact Nat.le_add_left 2 2
  · exact Nat.le_add_left 3 1
  · exact Nat.le_refl 4
  · cases h

/-- The tags that an `any` goes on behind with the elements, and what it reads there. -/
inductive IsHead : UInt8 → Qi ℕ → Prop
  | tuple : IsHead TypeTag.smallTuple smallTupleHeadExt
  | list : IsHead TypeTag.list listHeadExt

namespace IsHead

variable {tag : UInt8} {head : Qi ℕ} {f' : MsgSeq}

theorem regular (htag : IsHead tag head) : Regular head := by
  cases htag with
  | tuple => exact regular_smallTupleHeadExt
  | list => exact regular_listHeadExt

/-- The tag, and a number. -/
theorem length_add_two_le (htag : IsHead tag head) (hread : head f 0 = (some f', n)) :
    f'.length + 2 ≤ f.length := by
  cases htag with
  | tuple =>
    obtain ⟨-, rfl⟩ := smallTupleHeadExt_eq_some hread
    simp only [smallTupleHeadG, List.length_append, List.length_cons, length_byteG]
    omega
  | list =>
    obtain ⟨-, rfl⟩ := listHeadExt_eq_some.mp hread
    simp only [listHeadG, List.length_append, List.length_cons, length_bigDwordG]
    omega

theorem eats (htag : IsHead tag head) (hread : head f 0 = (some f', n))
    (hall : EatsAll true n f' rest) : Eats true f rest := by
  cases htag with
  | tuple => exact .tuple hread hall
  | list => exact .wildList hread hall

/-- With assertions, a head that is cut short is a bad place. -/
theorem present (htag : IsHead tag head) (hf : Harmless format ndebug (tag :: f))
    (hnone : (head (tag :: f) 0).1 = none) : ndebug = true := by
  cases ndebug with
  | true => rfl
  | false =>
    cases htag with
    | tuple =>
      rw [eq_nil_of_no_head hnone] at hf
      exact absurd (.inr ⟨rfl, .inl rfl⟩) (hf _ .here)
    | list =>
      have hlen := length_lt_of_no_head hnone
      exact absurd (.inr ⟨rfl, .inr (.inl ⟨f, hlen, rfl⟩)⟩) (hf _ .here)

theorem harmless (htag : IsHead tag head) (hf : Harmless format ndebug f)
    (hread : head f 0 = (some f', n)) (hk : k < n) (hbefore : EatsAll true k f' h) :
    Harmless format ndebug h := by
  cases htag with
  | tuple => exact hf.tuple hread hk hbefore.of_wild
  | list => exact hf.list hread hk hbefore.of_wild

end IsHead

/-- A match function that hands over what it has read, and does not look for elements in it. -/
structure MatchesLeaf (any : Any σ) (matcher : Matcher σ) : Prop where
  eats : ∀ f v rest v', matcher f v = some (true, rest, v') → Eats true f rest
  saves : ∀ f v rest v', matcher f v = some (true, rest, v') →
    v' = any.saveMatchedBytes (f.take (f.length - rest.length)) v
  suffix : ∀ f v success rest v', matcher f v = some (success, rest, v') → rest <:+ f
  safe : ∀ f v, matcher f v ≠ none

theorem matchesLeaf_matchAnyThrough {α : Type} {read : MsgSeq → α → Bool × MsgSeq × α} {ignore : α}
    (any : Any σ) (hsuffix : ∀ f a, (read f a).2.1 <:+ f)
    (heats : ∀ f rest b, read f ignore = (true, rest, b) → Eats true f rest) :
    MatchesLeaf any (matchAnyThrough read ignore any) where
  eats f _ rest _ h := by
    obtain ⟨b, hread⟩ := rest_of_matchAnyThrough h
    exact heats f rest b hread
  saves f v rest v' h := by
    rw [matchAnyThrough] at h
    split at h
    · cases h
      rfl
    · cases h
  suffix f v success rest v' h := by
    have hsuffix := hsuffix f ignore
    rw [matchAnyThrough] at h
    split at h
    all_goals
      next hread =>
      rw [hread] at hsuffix
      cases h
      exact hsuffix
  safe f v := matchAnyThrough_ne_none f v

theorem matchesLeaf_matchAny {α : Type} {p : Qi α} {ignore : α} (hp : Regular p) (any : Any σ)
    (hleaf : ∀ f rest, (p f ignore).1 = some rest → Leaf f rest) :
    MatchesLeaf any (matchAny p ignore any) := by
  rw [matchAny_eq_matchAnyThrough]
  exact matchesLeaf_matchAnyThrough any (suffix_binaryToTerm hp) fun f rest b hread =>
    .leaf (hleaf f rest (rest_of_binaryToTerm hread))

/-- Where there is no match function, nothing is read. -/
theorem matchesLeaf_nothing (any : Any σ) : MatchesLeaf any fun f v => some (false, f, v) where
  eats _ _ _ _ h := by cases h
  saves _ _ _ _ h := by cases h
  suffix _ _ _ _ _ h := by
    cases h
    exact List.suffix_rfl
  safe _ _ := Option.some_ne_none _

namespace AnyObject

variable {instanceMatch instanceMatch' : Matcher σ}

theorem eatsAll_of_matchContained
    (heats : ∀ f v rest v', instanceMatch f v = some (true, rest, v') → Eats true f rest)
    {f rest : MsgSeq} {v v' : σ} {n : ℕ}
    (h : matchContained instanceMatch n f v = some (true, rest, v')) : EatsAll true n f rest := by
  induction n generalizing f v with
  | zero =>
    simp only [matchContained, Option.some.injEq, Prod.mk.injEq, true_and] at h
    rw [← h.1]
    exact .zero
  | succ n ih =>
    rcases hfirst : instanceMatch f v with _ | ⟨_ | _, f', v''⟩
    · simp [matchContained, hfirst] at h
    · simp [matchContained, hfirst] at h
    · simp only [matchContained, hfirst] at h
      exact .succ (heats f v f' v'' hfirst) (ih h)

theorem matchContained_ne_none
    (heats : ∀ f v rest v', instanceMatch f v = some (true, rest, v') → Eats true f rest)
    {f : MsgSeq} {v : σ} {n : ℕ}
    (hsafe : ∀ k h v, k < n → EatsAll true k f h → instanceMatch h v ≠ none) :
    matchContained instanceMatch n f v ≠ none := by
  induction n generalizing f v with
  | zero => simp [matchContained]
  | succ n ih =>
    rcases hfirst : instanceMatch f v with _ | ⟨_ | _, f', v'⟩
    · exact absurd hfirst (hsafe 0 f v (Nat.succ_pos n) .zero)
    · simp [matchContained, hfirst]
    · simp only [matchContained, hfirst]
      refine ih fun k h w hk hbefore => ?_
      exact hsafe (k + 1) h w (Nat.succ_lt_succ hk) (.succ (heats f v f' v' hfirst) hbefore)

variable {o : AnyObject σ} {head : Qi ℕ}

theorem eatsAll_of_matchElements
    (heats : ∀ f v rest v', instanceMatch f v = some (true, rest, v') → Eats true f rest)
    {f rest : MsgSeq} {v v' : σ}
    (h : o.matchElements ndebug head instanceMatch f v = some (true, rest, v')) :
    ∃ f' n, head f 0 = (some f', n) ∧ EatsAll true n f' rest := by
  rcases hhead : binaryToTerm head f 0 with ⟨_ | _, f', n⟩
  · cases ndebug with
    | false => simp [matchElements, hhead] at h
    | true => simp [matchElements, hhead] at h
  · simp only [matchElements, hhead] at h
    exact ⟨f', n, binaryToTerm_eq_true.mp hhead, eatsAll_of_matchContained heats h⟩

theorem matchElements_ne_none
    (heats : ∀ f v rest v', instanceMatch f v = some (true, rest, v') → Eats true f rest)
    {f : MsgSeq} {v : σ} (hhead : (head f 0).1 = none → ndebug = true)
    (hsafe : ∀ f' n k h v, head f 0 = (some f', n) → k < n → EatsAll true k f' h →
      instanceMatch h v ≠ none) :
    o.matchElements ndebug head instanceMatch f v ≠ none := by
  rcases hread : head f 0 with ⟨_ | f', n⟩
  · simp [matchElements, binaryToTerm_of_none hread, hhead (by rw [hread])]
  · simp only [matchElements, binaryToTerm_of_some hread]
    exact matchContained_ne_none heats fun k h v hk hbefore => hsafe f' n k h v hread hk hbefore

/-- **What is in the table**: most of the types are read as a whole, and two have a head. -/
theorem dynamic_cases {tag : UInt8} {matcher : Matcher σ}
    (hmem : (tag, matcher) ∈ o.dynamicElementMatcher ndebug instanceMatch) :
    (MatchesLeaf o.matchedRawBytes matcher ∧ ∀ instanceMatch : Matcher σ,
      (o.dynamicElementMatcher ndebug instanceMatch).lookup tag = some matcher) ∨
    ∃ head, IsHead tag head ∧ matcher = o.matchElements ndebug head instanceMatch := by
  simp only [dynamicElementMatcher, List.mem_cons, Prod.mk.injEq, List.not_mem_nil,
    or_false] at hmem
  rcases hmem with ⟨rfl, rfl⟩ | ⟨rfl, rfl⟩ | ⟨rfl, rfl⟩ | ⟨rfl, rfl⟩ | ⟨rfl, rfl⟩ | ⟨rfl, rfl⟩ |
    ⟨rfl, rfl⟩ | ⟨rfl, rfl⟩ | ⟨rfl, rfl⟩ | ⟨rfl, rfl⟩ | ⟨rfl, rfl⟩
  · exact .inl ⟨matchesLeaf_matchAny regular_integer _ fun _ _ => .integer, fun _ => rfl⟩
  · exact .inl ⟨matchesLeaf_matchAny regular_integer _ fun _ _ => .integer, fun _ => rfl⟩
  · exact .inl ⟨matchesLeaf_matchAny regular_atomExt _ fun _ _ => .atom, fun _ => rfl⟩
  · exact .inr ⟨smallTupleHeadExt, .tuple, rfl⟩
  · exact .inr ⟨listHeadExt, .list, rfl⟩
  · exact .inl ⟨matchesLeaf_matchAnyThrough _ suffix_assignMatched
      fun _ _ _ => eats_of_assignMatched, fun _ => rfl⟩
  · exact .inl ⟨matchesLeaf_matchAny regular_pidExt _ fun _ _ => .pid, fun _ => rfl⟩
  · exact .inl ⟨matchesLeaf_matchAny regular_newReferenceExtP _ fun _ _ => .ref, fun _ => rfl⟩
  · exact .inl ⟨matchesLeaf_matchAny regular_floatExt _ fun _ _ => .float, fun _ => rfl⟩
  · exact .inl ⟨matchesLeaf_matchAnyThrough _ suffix_read
      fun _ _ _ h => .leaf (leaf_of_binary h), fun _ => rfl⟩
  · exact .inl ⟨matchesLeaf_matchAnyThrough _ suffix_read
      fun _ _ _ h => .leaf (leaf_of_binary h), fun _ => rfl⟩

theorem mem_of_lookup {tag : UInt8} {matcher : Matcher σ}
    (h : (o.dynamicElementMatcher ndebug instanceMatch).lookup tag = some matcher) :
    (tag, matcher) ∈ o.dynamicElementMatcher ndebug instanceMatch := by
  obtain ⟨before, behind, hsplit, -⟩ := List.lookup_eq_some_iff.mp h
  rw [hsplit]
  exact List.mem_append_right before List.mem_cons_self

/-- Which tags there are in the table does not depend on what matches the elements. -/
theorem lookup_eq_none {tag : UInt8}
    (h : (o.dynamicElementMatcher ndebug instanceMatch).lookup tag = none) :
    (o.dynamicElementMatcher ndebug instanceMatch').lookup tag = none := by
  rw [List.lookup_eq_none_iff] at h ⊢
  have htags : (o.dynamicElementMatcher ndebug instanceMatch').map Prod.fst =
    (o.dynamicElementMatcher ndebug instanceMatch).map Prod.fst := rfl
  intro entry hentry
  have hmem := List.mem_map_of_mem (f := Prod.fst) hentry
  rw [htags] at hmem
  obtain ⟨entry', hentry', htag⟩ := List.mem_map.mp hmem
  rw [← htag]
  exact h entry' hentry'

/-- **What the tag decides**: either the bytes are read as a whole, whatever matches elements, or
there are elements behind a head. -/
theorem matchDynamically_cases (o : AnyObject σ) (ndebug : Bool) (f : MsgSeq) :
    (∃ matcher, MatchesLeaf o.matchedRawBytes matcher ∧
      ∀ instanceMatch v, o.matchDynamically ndebug instanceMatch f v = matcher f v) ∨
    ∃ tag content head, f = tag :: content ∧ IsHead tag head ∧ ∀ instanceMatch v,
      o.matchDynamically ndebug instanceMatch f v =
        o.matchElements ndebug head instanceMatch f v := by
  cases f with
  | nil => exact .inl ⟨_, matchesLeaf_nothing _, fun _ _ => rfl⟩
  | cons tag f =>
    rcases hlookup : (o.dynamicElementMatcher ndebug fun _ _ => none).lookup tag with _ | matcher
    · refine .inl ⟨_, matchesLeaf_nothing _, fun instanceMatch v => ?_⟩
      simp only [matchDynamically, lookup_eq_none hlookup]
    · rcases dynamic_cases (mem_of_lookup hlookup) with ⟨hleaf, hall⟩ | ⟨head, htag, -⟩
      · exact .inl ⟨matcher, hleaf, fun _ _ => by simp only [matchDynamically, hall]⟩
      · refine .inr ⟨tag, f, head, rfl, htag, fun _ _ => ?_⟩
        cases htag with
        | tuple => rfl
        | list => rfl

/-- A call is what the tag decides, and then the variable is assigned. -/
theorem matchTerm_succ_eq_some {depth : ℕ} {f rest : MsgSeq} {v v' : σ} {success : Bool} :
    o.matchTerm ndebug (depth + 1) f v = some (success, rest, v') ↔
      ∃ w, o.matchDynamically ndebug (o.matchTerm ndebug depth) f v = some (success, rest, w) ∧
        v' = o.toAssign.set (some (o.matchedRawBytes.get w)) w := by
  rw [matchTerm]
  rcases o.matchDynamically ndebug (o.matchTerm ndebug depth) f v with _ | ⟨success', rest', w⟩
  · simp
  · simp only [Option.some.injEq, Prod.mk.injEq]
    constructor
    · rintro ⟨rfl, rfl, rfl⟩
      exact ⟨w, ⟨rfl, rfl, rfl⟩, rfl⟩
    · rintro ⟨_, ⟨rfl, rfl, rfl⟩, rfl⟩
      exact ⟨rfl, rfl, rfl⟩

theorem matchTerm_succ_ne_none {depth : ℕ} {f : MsgSeq} {v : σ}
    (h : o.matchDynamically ndebug (o.matchTerm ndebug depth) f v ≠ none) :
    o.matchTerm ndebug (depth + 1) f v ≠ none := by
  rw [matchTerm]
  split
  · next hnone => exact absurd hnone h
  · exact Option.some_ne_none _

/-- **An `any` that matches has eaten**, by induction on how deep it may go. -/
theorem eats_of_matchTerm {depth : ℕ} {f rest : MsgSeq} {v v' : σ}
    (h : o.matchTerm ndebug depth f v = some (true, rest, v')) : Eats true f rest := by
  induction depth generalizing f v rest v' with
  | zero => cases h
  | succ depth ih =>
    obtain ⟨w, hmatch, -⟩ := matchTerm_succ_eq_some.mp h
    rcases o.matchDynamically_cases ndebug f with
      ⟨matcher, hleaf, hall⟩ | ⟨tag, content, head, -, htag, hall⟩
    · rw [hall] at hmatch
      exact hleaf.eats f v rest w hmatch
    · rw [hall] at hmatch
      obtain ⟨f', n, hread, helements⟩ := eatsAll_of_matchElements (fun _ _ _ _ => ih) hmatch
      exact htag.eats hread helements

/-- **An `any` comes to a result** where no head is missing, unless nobody asserts that there is
one; here and at the elements. It does not go deeper than there are bytes. -/
theorem matchTerm_ne_none {P : MsgSeq → Prop}
    (hpresent : ∀ {tag head f}, IsHead tag head → P (tag :: f) → (head (tag :: f) 0).1 = none →
      ndebug = true)
    (hinside : ∀ {tag head f f' n k h}, IsHead tag head → P f → head f 0 = (some f', n) → k < n →
      EatsAll true k f' h → P h)
    {depth : ℕ} {f : MsgSeq} {v : σ} (hdepth : f.length < depth) (hf : P f) :
    o.matchTerm ndebug depth f v ≠ none := by
  induction depth generalizing f v with
  | zero => exact absurd hdepth (Nat.not_lt_zero _)
  | succ depth ih =>
    refine matchTerm_succ_ne_none ?_
    rcases o.matchDynamically_cases ndebug f with
      ⟨matcher, hleaf, hall⟩ | ⟨tag, content, head, rfl, htag, hall⟩
    · rw [hall]
      exact hleaf.safe f v
    · rw [hall]
      refine matchElements_ne_none (fun _ _ _ _ => eats_of_matchTerm) (hpresent htag hf) ?_
      intro f' n k h w hread hk hbefore
      have hlen := htag.length_add_two_le hread
      have hle := hbefore.length_le
      exact ih (by omega) (hinside htag hf hread hk hbefore)

theorem sound (o : AnyObject σ) : (o.toObject ndebug).Sound format ndebug :=
  ⟨fun _ _ _ _ h => .any (eats_of_matchTerm h),
    fun _ _ hf => matchTerm_ne_none IsHead.present IsHead.harmless (Nat.lt_succ_self _) hf⟩

end AnyObject

/-! ### All patterns are sound -/

namespace Pattern

mutual

/-- **Every pattern is sound.** -/
theorem sound (format : FloatFormat) (ndebug : Bool) : (p : Pattern σ) →
    (p.toObject format ndebug).Sound format ndebug
  | int arg => sound_int arg
  | atom arg => sound_atom arg
  | pid arg => sound_pid arg
  | ref arg => sound_ref arg
  | binary arg => sound_binary arg
  | float arg => sound_float arg
  | string arg => sound_string arg
  | tuple contained => sound_makeETuple (sound_toObjects format ndebug contained)
  | list contained => sound_list (sound_toObjects format ndebug contained)
  | intList contained => sound_intList contained
  | intListOf contained => sound_intListOf contained
  | atomListOf contained => sound_listOf (fun _ _ => .atom) contained
  | pidListOf contained => sound_listOf (fun _ _ => .pid) contained
  | refListOf contained => sound_listOf (fun _ _ => .ref) contained
  | floatListOf contained => sound_floatListOf contained
  | any o => o.sound

theorem sound_toObjects (format : FloatFormat) (ndebug : Bool) : (ps : List (Pattern σ)) →
    ∀ obj ∈ toObjects format ndebug ps, obj.Sound format ndebug
  | [] => fun obj h => by simp [toObjects] at h
  | p :: contained => fun obj h => by
    rw [toObjects, List.mem_cons] at h
    rcases h with rfl | h
    · exact sound format ndebug p
    · exact sound_toObjects format ndebug contained obj h

end

end Pattern

/-! ### Whatever can be left behind is left behind by some pattern -/

namespace AnyObject

variable {o : AnyObject σ} {depth : ℕ} {tag : UInt8}

theorem matchAnyThrough_of_read {α : Type} {read : MsgSeq → α → Bool × MsgSeq × α} {ignore b : α}
    (any : Any σ) (hread : read f ignore = (true, rest, b)) (v : σ) :
    ∃ v', matchAnyThrough read ignore any f v = some (true, rest, v') := by
  refine ⟨any.saveMatchedBytes (f.take (f.length - rest.length)) v, ?_⟩
  simp only [matchAnyThrough, hread]

theorem matchAny_of_rest {α : Type} {p : Qi α} {ignore : α} (any : Any σ)
    (hrest : (p f ignore).1 = some rest) (v : σ) :
    ∃ v', matchAny p ignore any f v = some (true, rest, v') := by
  rw [matchAny_eq_matchAnyThrough]
  exact matchAnyThrough_of_read any (binaryToTerm_of_some (Prod.ext hrest rfl)) v

/-- The match function of the type does the work. -/
theorem matchTerm_of_lookup {matcher : Matcher σ} {v : σ}
    (hlookup : (o.dynamicElementMatcher ndebug (o.matchTerm ndebug depth)).lookup tag =
      some matcher) (hmatch : ∃ v', matcher (tag :: f) v = some (true, rest, v')) :
    ∃ v', o.matchTerm ndebug (depth + 1) (tag :: f) v = some (true, rest, v') := by
  obtain ⟨v', hv'⟩ := hmatch
  refine ⟨o.toAssign.set (some (o.matchedRawBytes.get v')) v', ?_⟩
  simp only [matchTerm, matchDynamically, hlookup, hv']

theorem read_of_binaryExt (hrest : (binaryExt f []).1 = some rest) :
    ∃ b, Binary.read f .empty = (true, rest, b) := by
  have hread : binaryExt f BinaryValueType.empty.value = (some rest, _) := Prod.ext hrest rfl
  refine ⟨⟨0, (binaryExt f []).2⟩, ?_⟩
  rw [Binary.read, binaryToTerm_of_some hread]
  rfl

theorem read_of_bitBinaryExt (hrest : (bitBinaryExt f .empty).1 = some rest) :
    ∃ b, Binary.read f .empty = (true, rest, b) := by
  obtain ⟨f', rfl⟩ := eq_cons_of_seq_lit hrest
  have hother : binaryToTerm binaryExt (TypeTag.bitBinaryExt :: f') BinaryValueType.empty.value =
      (false, TypeTag.bitBinaryExt :: f', []) := rfl
  refine ⟨(bitBinaryExt (TypeTag.bitBinaryExt :: f') .empty).2, ?_⟩
  rw [Binary.read, hother]
  exact binaryToTerm_of_some (Prod.ext hrest rfl)

/-- A term that is not made of others is matched. -/
theorem matchTerm_of_leaf (o : AnyObject σ) (hleaf : Leaf f rest) (depth : ℕ) (v : σ) :
    ∃ v', o.matchTerm ndebug (depth + 1) f v = some (true, rest, v') := by
  cases hleaf with
  | integer hrest =>
    rcases integer_eq_some (Prod.ext hrest rfl) with ⟨c, -, hsmall⟩ | hlarge
    · obtain ⟨f', rfl⟩ : ∃ f', f = TypeTag.smallInteger :: f' := ⟨_, hsmall⟩
      exact matchTerm_of_lookup rfl (matchAny_of_rest o.matchedRawBytes hrest v)
    · obtain ⟨f', rfl⟩ : ∃ f', f = TypeTag.integer :: f' := ⟨_, hlarge⟩
      exact matchTerm_of_lookup rfl (matchAny_of_rest o.matchedRawBytes hrest v)
  | atom hrest =>
    obtain ⟨f', rfl⟩ := eq_cons_of_seq_lit hrest
    exact matchTerm_of_lookup rfl (matchAny_of_rest o.matchedRawBytes hrest v)
  | pid hrest =>
    obtain ⟨f', rfl⟩ := eq_cons_of_seq_lit hrest
    exact matchTerm_of_lookup rfl (matchAny_of_rest o.matchedRawBytes hrest v)
  | ref hrest =>
    obtain ⟨f', rfl⟩ := eq_cons_of_seq_lit hrest
    exact matchTerm_of_lookup rfl (matchAny_of_rest o.matchedRawBytes hrest v)
  | float hrest =>
    obtain ⟨f', rfl⟩ := eq_cons_of_seq_lit hrest
    exact matchTerm_of_lookup rfl (matchAny_of_rest o.matchedRawBytes hrest v)
  | binary hrest =>
    obtain ⟨f', rfl⟩ := eq_cons_of_seq_lit hrest
    obtain ⟨b, hread⟩ := read_of_binaryExt hrest
    exact matchTerm_of_lookup rfl (matchAnyThrough_of_read o.matchedRawBytes hread v)
  | bitBinary hrest =>
    obtain ⟨f', rfl⟩ := eq_cons_of_seq_lit hrest
    obtain ⟨b, hread⟩ := read_of_bitBinaryExt hrest
    exact matchTerm_of_lookup rfl (matchAnyThrough_of_read o.matchedRawBytes hread v)

theorem assignElements_of_length_le {n : ℕ} {f : MsgSeq} (hn : n ≤ f.length) (val : List Int32) :
    ∃ val', assignElements StringMatcher.element 0 n f val = (true, f.drop n, val') := by
  induction n generalizing f val with
  | zero => exact ⟨val, rfl⟩
  | succ n ih =>
    cases f with
    | nil => simp at hn
    | cons c f => exact ih (Nat.le_of_succ_le_succ hn) (val ++ [IntObject.ofElement c])

/-- A string is matched if all its characters are there. -/
theorem assignMatched_of_head {f' : MsgSeq} (head : stringHeadExt f 0 = (some f', n))
    (hall : n ≤ f'.length) : ∃ b, EString.assignMatched f [] = (true, f'.drop n, b) := by
  obtain ⟨val, hval⟩ := assignElements_of_length_le hall []
  refine ⟨[] ++ val.map narrow, ?_⟩
  simp only [EString.assignMatched, StringMatcher.assignList, binaryToTerm_of_some head, hval]

/-- Behind a head, the elements are matched. -/
theorem matchElements_of_head (ndebug : Bool) (o : AnyObject σ) {head : Qi ℕ}
    {instanceMatch : Matcher σ} {f' : MsgSeq} (hhead : head f 0 = (some f', n))
    (helements : ∀ v, ∃ v', matchContained instanceMatch n f' v = some (true, rest, v')) (v : σ) :
    ∃ v', o.matchElements ndebug head instanceMatch f v = some (true, rest, v') := by
  simp only [matchElements, binaryToTerm_of_some hhead]
  exact helements _

mutual

/-- **An `any` eats what it may eat.** -/
theorem matchTerm_of_eats (ndebug : Bool) (o : AnyObject σ) : {wild : Bool} → {f rest : MsgSeq} →
    Eats wild f rest → wild = true → (depth : ℕ) → f.length < depth → (v : σ) →
    ∃ v', o.matchTerm ndebug depth f v = some (true, rest, v')
  | _, _, _, .leaf hleaf, _, depth + 1, _, v => matchTerm_of_leaf o hleaf depth v
  | _, _, _, .string head hall, hwild, depth + 1, _, v => by
    obtain ⟨b, hread⟩ := assignMatched_of_head head (hall hwild)
    obtain ⟨f₀, rfl⟩ := eq_cons_of_seq_lit (congrArg Prod.fst head)
    exact matchTerm_of_lookup rfl (matchAnyThrough_of_read o.matchedRawBytes hread v)
  | _, _, _, .tuple head helements, hwild, depth + 1, hdepth, v => by
    have hlt := (length_lt_of_tuple head).trans_le (Nat.le_of_lt_succ hdepth)
    have hmatch := matchElements_of_head ndebug o head
      (matchContained_of_eats ndebug o helements hwild depth hlt) v
    obtain ⟨f₀, rfl⟩ := eq_cons_of_seq_lit (congrArg Prod.fst head)
    exact matchTerm_of_lookup rfl hmatch
  | _, _, _, .list _ _, hwild, _, _, _ => absurd hwild (by decide)
  | _, _, _, .wildList head helements, hwild, depth + 1, hdepth, v => by
    have hlt := (length_lt_of_list head).trans_le (Nat.le_of_lt_succ hdepth)
    have hmatch := matchElements_of_head ndebug o head
      (matchContained_of_eats ndebug o helements hwild depth hlt) v
    obtain ⟨f₀, rfl⟩ := eq_cons_of_seq_lit (congrArg Prod.fst head)
    exact matchTerm_of_lookup rfl hmatch
  | _, _, _, .any _, hwild, _, _, _ => absurd hwild (by decide)

theorem matchContained_of_eats (ndebug : Bool) (o : AnyObject σ) : {wild : Bool} → {n : ℕ} →
    {f rest : MsgSeq} → EatsAll wild n f rest → wild = true → (depth : ℕ) → f.length < depth →
    (v : σ) → ∃ v', matchContained (o.matchTerm ndebug depth) n f v = some (true, rest, v')
  | _, _, _, _, .zero, _, _, _, v => ⟨v, rfl⟩
  | _, _, _, _, .succ head tail, hwild, depth, hdepth, v => by
    obtain ⟨v', hfirst⟩ := matchTerm_of_eats ndebug o head hwild depth hdepth v
    obtain ⟨v'', hothers⟩ := matchContained_of_eats ndebug o tail hwild depth
      (head.length_lt.trans hdepth) v'
    exact ⟨v'', by simp only [matchContained, hfirst, hothers]⟩

end

end AnyObject

/-! ### A pattern for every place -/

/-- No character is equal to an element that is a character above 127: it is sign-extended. -/
theorem matchStringElement_above (f : MsgSeq) (v : σ) :
    (EString.createInt 128 : IntObject σ).matchStringElement f v = some (false, f.drop 1, v) := by
  cases f with
  | nil => rfl
  | cons c f =>
    have hne : promote 128 ≠ IntObject.ofElement c := by
      intro h
      have hnat : (promote 128).toUInt32.toNat = c.toUInt32.toNat := by
        rw [h, IntObject.ofElement, UInt32.toUInt32_toInt32]
      have hc := c.toNat_lt
      rw [UInt8.toNat_toUInt32] at hnat
      exact absurd (hnat ▸ hc) (by decide)
    have hread : binaryToTerm byte (c :: f) 0 = (true, f, c) := rfl
    show some (true && decide (promote 128 = IntObject.ofElement c), f, v) = _
    rw [decide_eq_false hne]
    rfl

/-- So a string of them goes through to the end. -/
theorem matchNone_above (n : ℕ) (f : MsgSeq) (v : σ) :
    StringMatcher.matchNone (List.replicate n (EString.createInt 128)) f v =
      some (true, f.drop n, v) := by
  induction n generalizing f with
  | zero => rfl
  | succ n ih =>
    rw [List.replicate_succ, StringMatcher.matchNone, matchStringElement_above]
    dsimp only
    rw [ih, List.drop_drop, Nat.add_comm]

theorem string_matches {f' : MsgSeq} (head : stringHeadExt f 0 = (some f', n)) (v : σ) :
    (EString.ofValue (List.replicate n 128)).matchFn f v = some (true, f'.drop n, v) := by
  show StringMatcher.matchFn ((List.replicate n 128).map EString.createInt) f v = _
  rw [List.map_replicate, StringMatcher.matchFn, binaryToTerm_of_some head]
  dsimp only
  rw [List.length_replicate, decide_eq_true rfl, Bool.and_self, if_pos rfl, matchNone_above]

/-- Where the first patterns have matched, the others go on. -/
theorem matchAll_append {objs : List (Object σ)} {v v' : σ}
    (hmatch : ETuple.matchAll objs f v = some (true, h, v')) (objs' : List (Object σ)) :
    ETuple.matchAll (objs ++ objs') f v = ETuple.matchAll objs' h v' := by
  induction objs generalizing f v with
  | nil =>
    simp only [ETuple.matchAll, Option.some.injEq, Prod.mk.injEq, true_and] at hmatch
    rw [List.nil_append, hmatch.1, hmatch.2]
  | cons obj objs ih =>
    rcases hfirst : obj.matchFn f v with _ | ⟨_ | _, f', v''⟩
    · simp [ETuple.matchAll, hfirst] at hmatch
    · simp [ETuple.matchAll, hfirst] at hmatch
    · simp only [ETuple.matchAll, hfirst] at hmatch
      rw [List.cons_append, ETuple.matchAll, hfirst]
      exact ih hmatch

namespace Pattern

mutual

/-- **Whatever can be left behind is left behind by some pattern**, whatever its variables hold. -/
theorem exists_matching (format : FloatFormat) (ndebug : Bool) : {wild : Bool} →
    {f rest : MsgSeq} → Eats wild f rest → ∃ p : Pattern AnyVars, ∀ v, ∃ v',
      (p.toObject format ndebug).matchFn f v = some (true, rest, v')
  | _, f, _, .leaf hleaf => ⟨.any AnyVars.any, fun v =>
      AnyObject.matchTerm_of_leaf AnyVars.any hleaf f.length v⟩
  | _, _, _, @Eats.string _ _ _ n head _ =>
    ⟨.string (.value (List.replicate n 128)), fun v => ⟨v, string_matches head v⟩⟩
  | _, _, _, @Eats.tuple _ f f' rest n head helements => by
    obtain ⟨ps, rfl, hmatch⟩ := exists_matchingAll format ndebug helements
    refine ⟨.tuple ps, fun v => ?_⟩
    obtain ⟨v', hv'⟩ := hmatch v
    refine ⟨v', ?_⟩
    show ETuple.matchFn (toObjects format ndebug ps) f v = some (true, rest, v')
    rw [ETuple.matchFn, binaryToTerm_of_some head]
    simp [length_toObjects, hv']
  | _, _, _, @Eats.list f f' rest n head helements => by
    obtain ⟨ps, rfl, hmatch⟩ := exists_matchingAll format ndebug helements
    refine ⟨.list ps, fun v => ?_⟩
    obtain ⟨v', hv'⟩ := hmatch v
    refine ⟨v', ?_⟩
    show ListMatcher.matchFn (toObjects format ndebug ps) f v = some (true, skipNil rest, v')
    rw [ListMatcher.matchFn, binaryToTerm_of_some head]
    simp [length_toObjects, hv', skipNil]
  | _, f, _, .wildList head helements => ⟨.any AnyVars.any, fun v =>
      AnyObject.matchTerm_of_eats ndebug AnyVars.any (.wildList head helements) rfl
        (f.length + 1) (Nat.lt_succ_self _) v⟩
  | _, f, _, .any h => ⟨.any AnyVars.any, fun v =>
      AnyObject.matchTerm_of_eats ndebug AnyVars.any h rfl (f.length + 1)
        (Nat.lt_succ_self _) v⟩

theorem exists_matchingAll (format : FloatFormat) (ndebug : Bool) : {wild : Bool} → {n : ℕ} →
    {f rest : MsgSeq} → EatsAll wild n f rest →
    ∃ ps : List (Pattern AnyVars), ps.length = n ∧ ∀ v, ∃ v',
      ETuple.matchAll (toObjects format ndebug ps) f v = some (true, rest, v')
  | _, _, _, _, .zero => ⟨[], rfl, fun v => ⟨v, rfl⟩⟩
  | _, _, _, _, .succ head tail => by
    obtain ⟨p, hp⟩ := exists_matching format ndebug head
    obtain ⟨ps, rfl, hps⟩ := exists_matchingAll format ndebug tail
    refine ⟨p :: ps, rfl, fun v => ?_⟩
    obtain ⟨v', hfirst⟩ := hp v
    obtain ⟨v'', hothers⟩ := hps v'
    exact ⟨v'', by simp only [toObjects, ETuple.matchAll, hfirst, hothers]⟩

end

/-- At a bad place, one of three patterns faults. -/
theorem exists_faulting_here (hbad : Bad format ndebug f) : ∃ p : Pattern AnyVars, ∀ v,
    (p.toObject format ndebug).matchFn f v = none := by
  rcases hbad with rfl | ⟨rfl, rfl | ⟨s, hlen, rfl⟩ | ⟨digits, rest, hlen, rfl, hscan⟩⟩
  · exact ⟨.intList [], fun v => rfl⟩
  · exact ⟨.any AnyVars.any, fun v => rfl⟩
  · refine ⟨.any AnyVars.any, fun v => ?_⟩
    rcases s with _ | ⟨b₃, _ | ⟨b₂, _ | ⟨b₁, _ | ⟨b₀, s⟩⟩⟩⟩
    · rfl
    · rfl
    · rfl
    · rfl
    · simp only [List.length_cons] at hlen
      omega
  · refine ⟨.float (.value 0), fun v => ?_⟩
    have hread := binaryToTerm_of_some (floatExt_cons hlen rest [])
    show Float_.matchValue format false 0 (TypeTag.floatExt :: digits ++ rest) v = none
    simp only [Float_.matchValue, hread, Float_.decodeFloat, List.nil_append, hscan]
    rfl

theorem toObjects_append (format : FloatFormat) (ndebug : Bool) (ps qs : List (Pattern σ)) :
    toObjects format ndebug (ps ++ qs) =
      toObjects format ndebug ps ++ toObjects format ndebug qs := by
  rw [toObjects_eq_map, toObjects_eq_map, toObjects_eq_map, List.map_append]

/-- So many patterns, the first of which match up to an element where the next one faults. -/
theorem exists_faultingAll (hk : k < n) (before : EatsAll false k f h) {q : Pattern AnyVars}
    (hq : ∀ v, (q.toObject format ndebug).matchFn h v = none) :
    ∃ ps : List (Pattern AnyVars), ps.length = n ∧
      ∀ v, ETuple.matchAll (toObjects format ndebug ps) f v = none := by
  obtain ⟨ps, hlen, hmatch⟩ := exists_matchingAll format ndebug before
  refine ⟨ps ++ q :: List.replicate (n - k - 1) q, ?_, fun v => ?_⟩
  · rw [List.length_append, List.length_cons, List.length_replicate, hlen]
    omega
  · obtain ⟨v', hv'⟩ := hmatch v
    rw [toObjects_append, matchAll_append hv', toObjects, ETuple.matchAll, hq]

/-- **A bad place that can be reached is reached by some pattern**, whatever its variables hold. -/
theorem exists_faulting (hreaches : Reaches f g) (hbad : Bad format ndebug g) :
    ∃ p : Pattern AnyVars, ∀ v, (p.toObject format ndebug).matchFn f v = none := by
  induction hreaches with
  | here => exact exists_faulting_here hbad
  | @tuple f f' h g n k head hk before _ ih =>
    obtain ⟨q, hq⟩ := ih hbad
    obtain ⟨ps, rfl, hps⟩ := exists_faultingAll hk before hq
    refine ⟨.tuple ps, fun v => ?_⟩
    show ETuple.matchFn (toObjects format ndebug ps) f v = none
    rw [ETuple.matchFn, binaryToTerm_of_some head]
    simp [length_toObjects, hps]
  | @list f f' h g n k head hk before _ ih =>
    obtain ⟨q, hq⟩ := ih hbad
    obtain ⟨ps, rfl, hps⟩ := exists_faultingAll hk before hq
    refine ⟨.list ps, fun v => ?_⟩
    show ListMatcher.matchFn (toObjects format ndebug ps) f v = none
    rw [ListMatcher.matchFn, binaryToTerm_of_some head]
    simp [length_toObjects, hps]

/-! ### The messages that no pattern faults on -/

/-- **A message can be matched against every pattern** exactly if no bad place of it can be
reached. -/
theorem never_faults_iff (format : FloatFormat) (ndebug : Bool) (m : MsgSeq) :
    (∀ (σ : Type) (p : Pattern σ) (v : σ), ∃ success v',
      matchableSeqMatch m (p.toObject format ndebug) v = some (success, v')) ↔
      Harmless format ndebug m := by
  constructor
  · intro hall g hreaches hbad
    obtain ⟨p, hp⟩ := exists_faulting hreaches hbad
    obtain ⟨success, v', hmatch⟩ := hall AnyVars p ⟨[], none⟩
    rw [matchableSeqMatch, hp] at hmatch
    cases hmatch
  · intro hm σ p v
    obtain ⟨⟨success, rest, v'⟩, hmatch⟩ :=
      Option.ne_none_iff_exists'.mp ((sound format ndebug p).safe m v hm)
    exact ⟨success, v', by rw [matchableSeqMatch, hmatch]; rfl⟩

/-- The empty message, against a list of integers; and a tuple that ends behind its head, against a
tuple of such a list. There are no assertions, and every text is a number. -/
theorem faults_on_empty :
    matchableSeqMatch []
      ((intList [] : Pattern Unit).toObject ⟨fun _ => [], fun _ => some 0⟩ true) () = none ∧
    matchableSeqMatch (smallTupleHeadG 1)
      ((tuple [intList []] : Pattern Unit).toObject ⟨fun _ => [], fun _ => some 0⟩ true) () = none :=
  ⟨rfl, rfl⟩

end Pattern

end TinchPp
