import TinchPp.ListMatcher

/-!
# Strings as values in a pattern

An `e_string` made from a value is compared with a string in a message byte by byte, through the
integers that `create_int` makes of its characters. Two things go wrong there. `string_matcher`
stops at the first pair of bytes that *does* match, and takes it for a failure; and a character
above 127 becomes a negative integer, which is never the same as a byte.

So the pattern matches the strings of its length that it agrees with at no position, where bytes
above 127 do not count as agreeing.

## Main results

* `EString.matchFn_ofValue` — what an `e_string` makes of any string
* `EString.matchesExactly_iff` — the strings for which that is right
-/

namespace TinchPp

open Wire

namespace EString

variable {σ : Type}

/-- A byte of a pattern and a byte of a message that `match_string_element` takes for the same. -/
def Agrees (z : UInt8 × UInt8) : Prop := z.1 = z.2 ∧ z.1 < 128

instance (z : UInt8 × UInt8) : Decidable (Agrees z) :=
  inferInstanceAs (Decidable (z.1 = z.2 ∧ z.1 < 128))

/-- Both strings have the same byte somewhere, and it is one below 128. -/
def AgreeSomewhere (s t : Str) : Prop := ∃ z ∈ s.zip t, Agrees z

instance (s t : Str) : Decidable (AgreeSomewhere s t) :=
  inferInstanceAs (Decidable (∃ z ∈ s.zip t, Agrees z))

/-- On the encoding of `t`, whatever follows it, the pattern for `s` succeeds exactly if it is the
same string, and stops right after it then. -/
def MatchesExactly (s t : Str) (v : σ) : Prop :=
  ∀ suffix : MsgSeq, ∃ matched rest,
    (ofValue s).matchFn ((ofValue t : Object σ).serialize ++ suffix) v = some (matched, rest, v) ∧
      (matched = true ↔ s = t) ∧ (matched = true → rest = suffix)

/-! ### One byte -/

theorem toInt_promote (c : UInt8) :
    (promote c).toInt = if 2 * c.toNat < 256 then (c.toNat : ℤ) else c.toNat - 256 := by
  rw [promote, Int8.toInt_toInt32]
  exact BitVec.toInt_eq_toNat_cond c.toBitVec

theorem toInt_ofElement (c : UInt8) : (IntObject.ofElement c).toInt = c.toNat :=
  toInt_toInt32_toUInt32 c

/-- Sign extension and zero extension agree on the characters below 128. -/
theorem promote_eq_ofElement_iff (a b : UInt8) :
    promote a = IntObject.ofElement b ↔ Agrees (a, b) := by
  have ha := a.toNat_lt
  have hb := b.toNat_lt
  have h128 : (128 : UInt8).toNat = 128 := rfl
  rw [← Int32.toInt_inj, toInt_promote, toInt_ofElement, Agrees, ← UInt8.toNat_inj,
    UInt8.lt_iff_toNat_lt, h128]
  dsimp only
  split <;> omega

theorem matchStringElement_createInt (a b : UInt8) (f : MsgSeq) (v : σ) :
    (createInt a).matchStringElement (b :: f) v = some (decide (Agrees (a, b)), f, v) := by
  have hread : binaryToTerm byte (b :: f) 0 = (true, f, b) := rfl
  show some (true && decide (promote a = IntObject.ofElement b), f, v) = _
  rw [Bool.true_and, decide_eq_decide.mpr (promote_eq_ofElement_iff a b)]

/-! ### A whole string -/

/-- The search comes to the end of the string exactly if the two agree nowhere on the way. -/
theorem matchNone_createInt (zs : List (UInt8 × UInt8)) (suffix : MsgSeq) (v : σ) :
    ∃ rest, StringMatcher.matchNone ((zs.map Prod.fst).map createInt)
        (zs.map Prod.snd ++ suffix) v = some (decide (¬ ∃ z ∈ zs, Agrees z), rest, v) ∧
      ((¬ ∃ z ∈ zs, Agrees z) → rest = suffix) := by
  induction zs with
  | nil => exact ⟨suffix, by simp [StringMatcher.matchNone], fun _ => rfl⟩
  | cons z zs ih =>
    simp only [List.map_cons, List.cons_append, StringMatcher.matchNone,
      matchStringElement_createInt, List.exists_mem_cons_iff]
    by_cases hz : Agrees z
    · -- the search has found something, and stops here
      exact ⟨zs.map Prod.snd ++ suffix, by simp [hz], fun h => absurd (.inl hz) h⟩
    · obtain ⟨rest, hmatch, hrest⟩ := ih
      refine ⟨rest, ?_, fun h => hrest fun hlater => h (.inr hlater)⟩
      rw [decide_eq_false hz]
      simp only [hz, false_or]
      exact hmatch

/-- **What an `e_string` matches**: the strings of its length that it agrees with nowhere. -/
theorem matchFn_ofValue (s : Str) {t : Str} (ht : t.length < 65536) (suffix : MsgSeq) (v : σ) :
    ∃ rest, (ofValue s).matchFn ((ofValue t : Object σ).serialize ++ suffix) v =
        some (decide (s.length = t.length ∧ ¬ AgreeSomewhere s t), rest, v) ∧
      (s.length = t.length ∧ ¬ AgreeSomewhere s t → rest = suffix) := by
  have hstart : (ofValue s).matchFn ((ofValue t : Object σ).serialize ++ suffix) v =
      if s.length = t.length then StringMatcher.matchNone (s.map createInt) (t ++ suffix) v
      else some (false, t ++ suffix, v) := by
    show StringMatcher.matchFn (s.map createInt) (stringExtG t ++ suffix) v = _
    simp only [StringMatcher.matchFn, binaryToTerm_of_some (stringHeadExt_stringExtG ht suffix 0),
      Bool.true_and, List.length_map, decide_eq_true_eq]
  by_cases hlen : s.length = t.length
  · obtain ⟨rest, hmatch, hrest⟩ := matchNone_createInt (s.zip t) suffix v
    rw [List.map_fst_zip hlen.le, List.map_snd_zip hlen.ge] at hmatch
    have hagree : (s.length = t.length ∧ ¬ AgreeSomewhere s t) ↔ ¬ ∃ z ∈ s.zip t, Agrees z :=
      and_iff_right hlen
    refine ⟨rest, ?_, fun h => hrest (hagree.mp h)⟩
    rw [hstart, if_pos hlen, hmatch, decide_eq_decide.mpr hagree]
  · refine ⟨t ++ suffix, ?_, fun h => absurd h.1 hlen⟩
    rw [hstart, if_neg hlen, decide_eq_false fun h => hlen h.1]

/-- A string agrees with itself where it has a character below 128. -/
theorem agreeSomewhere_self (s : Str) : AgreeSomewhere s s ↔ ∃ c ∈ s, c < 128 := by
  have hzip : s.zip s = s.map fun c => (c, c) := by
    rw [List.zip_eq_zipWith, List.zipWith_self]
  simp [AgreeSomewhere, Agrees, hzip]

/-- **The pattern is right** about its own string if that has no character below 128, and about
another one if the lengths differ or the two agree somewhere. -/
theorem matchesExactly_iff {s t : Str} (ht : t.length < 65536) (v : σ) : MatchesExactly s t v ↔
    if s = t then ∀ c ∈ s, 128 ≤ c else s.length = t.length → AgreeSomewhere s t := by
  have hmatches : MatchesExactly s t v ↔
      ((s.length = t.length ∧ ¬ AgreeSomewhere s t) ↔ s = t) := by
    constructor
    · intro h
      obtain ⟨matched, rest, hmatch, heq, -⟩ := h []
      obtain ⟨rest', hmatch', -⟩ := matchFn_ofValue s ht [] v
      rw [hmatch', Option.some.injEq, Prod.mk.injEq] at hmatch
      rw [← heq, ← hmatch.1, decide_eq_true_iff]
    · intro h suffix
      obtain ⟨rest, hmatch, hrest⟩ := matchFn_ofValue s ht suffix v
      exact ⟨_, rest, hmatch, by rw [decide_eq_true_iff, h],
        fun hd => hrest (of_decide_eq_true hd)⟩
  rw [hmatches]
  split
  · next heq =>
    subst heq
    have hself : (∀ c ∈ s, 128 ≤ c) ↔ ¬ AgreeSomewhere s s := by
      rw [agreeSomewhere_self]
      simp only [not_exists, not_and, UInt8.not_lt]
    rw [hself]
    simp
  · next hne => simp [hne]

theorem matchesExactly_above : MatchesExactly [0xe5, 0xe4] [0xe5, 0xe4] () :=
  (matchesExactly_iff (by decide) ()).mpr <|
    List.forall_mem_cons.mpr ⟨by decide, List.forall_mem_singleton.mpr (by decide)⟩

/-- A pattern does not match its own string, and matches one that it has nothing to do with. -/
theorem not_matchesExactly :
    (ofValue (bytesOf "hello")).matchFn ((ofValue (bytesOf "hello") : Object Unit).serialize) () =
        some (false, bytesOf "ello", ()) ∧
      (ofValue (bytesOf "hello")).matchFn ((ofValue (bytesOf "chaos") : Object Unit).serialize)
        () = some (true, [], ()) ∧
      ¬ ∀ s t : Str, s.length ≤ 65535 → t.length ≤ 65535 → MatchesExactly s t () := by
  refine ⟨by decide, by decide, fun h => ?_⟩
  obtain ⟨matched, rest, hmatch, heq, -⟩ := h [97] [97] (by decide) (by decide) []
  have hfalse : (ofValue [97]).matchFn ((ofValue [97] : Object Unit).serialize ++ []) () =
      some (false, [], ()) := by decide
  rw [hfalse, Option.some.injEq, Prod.mk.injEq] at hmatch
  exact absurd (heq.mpr rfl) (by rw [← hmatch.1]; decide)

end EString

end TinchPp
