import TinchPp.MatchSafety

/-!
# How far a wildcard goes

An `any` goes into the elements of tuples and lists, and it is up to the sender how many there are
said to be and how deep they are nested. But an element that matches has been read, so there is less
to read behind it; and the loops over elements end with the first that does not match. So it takes
no longer than there are bytes.

Without assertions there are no faults either, not even at the end, and `matchFn` satisfies the
recursive equation of the source: there is no depth in it.

## Main definitions

* `AnyObject.iterations` — how many iterations a loop over elements begins
* `AnyObject.calls` — how often `match` is called in all

## Main results

* `AnyObject.matchFn_eq` — the equation of the source
* `AnyObject.matchFn_bounded` — matching terminates, moves forwards in what there is, and no loop
  goes on for longer than that
* `AnyObject.calls_le` — nor do all loops together
* `StringMatcher.iterations_le` — and nor does the one over the characters of a string
-/

namespace TinchPp

open Wire

variable {σ : Type} {ndebug : Bool} {f g rest : MsgSeq} {v v' : σ} {n k depth depth' : ℕ}
  {success : Bool}

namespace AnyObject

variable {o : AnyObject σ} {instanceMatch instanceMatch' : Matcher σ} {head : Qi ℕ}

/-! ### Forwards -/

theorem suffix_of_matchContained
    (hsuffix : ∀ f v success rest v', instanceMatch f v = some (success, rest, v') → rest <:+ f)
    (h : matchContained instanceMatch n f v = some (success, rest, v')) : rest <:+ f := by
  rw [matchContained_eq_run] at h
  exact CountedLoop.run_rel (R := fun s s' : MsgSeq × σ => s'.1 <:+ s.1)
    (fun s => List.suffix_rfl) (fun s₁ s₂ s₃ h h' => h'.trans h)
    (fun s b s' => hsuffix s.1 s.2 b s'.1 s'.2) h

theorem suffix_of_matchElements (hhead : Regular head)
    (hsuffix : ∀ f v success rest v', instanceMatch f v = some (success, rest, v') → rest <:+ f)
    (h : o.matchElements ndebug head instanceMatch f v = some (success, rest, v')) :
    rest <:+ f := by
  have hread := suffix_binaryToTerm hhead f 0
  rw [matchElements] at h
  generalize binaryToTerm head f 0 = r at hread h
  rcases r with ⟨_ | _, f', n⟩
  · cases ndebug with
    | false => cases h
    | true =>
      cases h
      exact hread
  · exact (suffix_of_matchContained hsuffix h).trans hread

/-- **An `any` does not move beyond the end**, whether it matches or not. -/
theorem suffix_of_matchTerm (h : o.matchTerm ndebug depth f v = some (success, rest, v')) :
    rest <:+ f := by
  induction depth generalizing f v success rest v' with
  | zero => cases h
  | succ depth ih =>
    obtain ⟨w, hmatch, -⟩ := matchTerm_succ_eq_some.mp h
    rcases o.matchDynamically_cases ndebug f with
      ⟨matcher, hleaf, hall⟩ | ⟨tag, content, head, -, htag, hall⟩
    · rw [hall] at hmatch
      exact hleaf.suffix f v success rest w hmatch
    · rw [hall] at hmatch
      exact suffix_of_matchElements htag.regular (fun _ _ _ _ _ => ih) hmatch

/-! ### Termination -/

/-- **Without assertions, an `any` always comes to a result.** -/
theorem matchTerm_total (o : AnyObject σ) (v : σ) (hdepth : f.length < depth) :
    ∃ success rest v', o.matchTerm true depth f v = some (success, rest, v') := by
  obtain ⟨⟨success, rest, v'⟩, hr⟩ := Option.ne_none_iff_exists'.mp
    (matchTerm_ne_none (o := o) (v := v) (P := fun _ => True) (fun _ _ _ => rfl)
      (fun _ _ _ _ _ => trivial) hdepth trivial)
  exact ⟨success, rest, v', hr⟩

/-- What comes to a result comes to it wherever the elements do so, too. -/
theorem matchDynamically_mono
    (hmono : ∀ f v r, instanceMatch f v = some r → instanceMatch' f v = some r)
    {r : Bool × MsgSeq × σ} (h : o.matchDynamically ndebug instanceMatch f v = some r) :
    o.matchDynamically ndebug instanceMatch' f v = some r := by
  rcases o.matchDynamically_cases ndebug f with
    ⟨matcher, -, hall⟩ | ⟨tag, content, head, -, -, hall⟩
  · rw [hall] at h ⊢
    exact h
  · rw [hall, matchElements] at h ⊢
    split at h
    · rw [matchContained_eq_run] at h ⊢
      refine CountedLoop.run_mono ?_ h
      exact fun s => hmono s.1 s.2
    · exact h

theorem matchTerm_mono (hdepth : depth ≤ depth') {r : Bool × MsgSeq × σ}
    (h : o.matchTerm ndebug depth f v = some r) : o.matchTerm ndebug depth' f v = some r := by
  induction depth generalizing depth' f v r with
  | zero => cases h
  | succ depth ih =>
    obtain ⟨depth', rfl⟩ := Nat.exists_eq_add_of_le hdepth
    obtain ⟨success, rest, v'⟩ := r
    obtain ⟨w, hmatch, rfl⟩ := matchTerm_succ_eq_some.mp h
    rw [Nat.add_right_comm]
    have hmono (g : MsgSeq) (u : σ) (r : Bool × MsgSeq × σ) :
        o.matchTerm ndebug depth g u = some r →
          o.matchTerm ndebug (depth + depth') g u = some r := ih (Nat.le_add_right depth depth')
    exact matchTerm_succ_eq_some.mpr ⟨w, matchDynamically_mono hmono hmatch, rfl⟩

/-- It does not matter how deep it may go. -/
theorem matchTerm_eq_matchFn (o : AnyObject σ) (v : σ) (hdepth : f.length < depth) :
    o.matchTerm true depth f v = o.matchFn true f v := by
  obtain ⟨success, rest, v', hr⟩ := o.matchTerm_total v (Nat.lt_succ_self f.length)
  rw [matchFn, hr]
  exact matchTerm_mono hdepth hr

/-- **The equation of the source**: an `any` matches elements as it is matched itself. -/
theorem matchFn_eq (o : AnyObject σ) (f : MsgSeq) (v : σ) :
    o.matchFn true f v =
      match o.matchDynamically true (o.matchFn true) f v with
      | none => none
      | some (res, f, v) => some (res, f, o.toAssign.set (some (o.matchedRawBytes.get v)) v) := by
  have hmono (g : MsgSeq) (u : σ) (r : Bool × MsgSeq × σ)
      (h : o.matchTerm true f.length g u = some r) : o.matchFn true g u = some r := by
    have hdepth := matchTerm_mono (Nat.le_max_left f.length (g.length + 1)) h
    rw [matchTerm_eq_matchFn o u (by omega)] at hdepth
    exact hdepth
  obtain ⟨success, rest, v', hr⟩ := o.matchTerm_total v (Nat.lt_succ_self f.length)
  obtain ⟨w, hmatch, rfl⟩ := matchTerm_succ_eq_some.mp hr
  rw [matchFn, hr, matchDynamically_mono hmono hmatch]

/-! ### Loops -/

/-- How many iterations of the loop over so many elements are begun. -/
def iterations (instanceMatch : Matcher σ) (n : ℕ) (f : MsgSeq) (v : σ) : ℕ :=
  CountedLoop.rounds (Function.uncurry instanceMatch) n (f, v)

/-- An iteration is begun once those in front of it have matched. -/
theorem lt_iterations_iff : k < iterations instanceMatch n f v ↔
    k < n ∧ ∃ g w, matchContained instanceMatch k f v = some (true, g, w) := by
  rw [iterations, CountedLoop.lt_rounds_iff, matchContained_eq_run, Prod.exists]

/-- Each iteration but the last leaves less to read. -/
theorem iterations_le (o : AnyObject σ) (ndebug : Bool) (depth n : ℕ) (f : MsgSeq) (v : σ) :
    iterations (o.matchTerm ndebug depth) n f v ≤ f.length + 1 :=
  CountedLoop.rounds_le (fun s => s.1.length) (fun _ _ h => (eats_of_matchTerm h).length_lt) n
    (f, v)

/-- Of four thousand million elements there is one. -/
example :
    iterations (AnyVars.any.matchFn true) 4294967295 [TypeTag.smallInteger, 1] ⟨[], none⟩ = 2 :=
  rfl

/-- **A match terminates, stays in bounds and moves on**, on any bytes: at every depth that is
larger than their number it comes to the same result, it stops somewhere in them, and behind their
start if it has matched. And a loop over elements that starts at these bytes makes at most one
iteration more than there are bytes, whatever its count. -/
theorem matchFn_bounded (o : AnyObject σ) (f : MsgSeq) (v : σ) :
    (∃ success rest v',
      (∀ depth, f.length < depth → o.matchTerm true depth f v = some (success, rest, v')) ∧
      rest <:+ f ∧ (success = true → rest.length < f.length)) ∧
    ∀ depth n, iterations (o.matchTerm true depth) n f v ≤ f.length + 1 := by
  obtain ⟨success, rest, v', hr⟩ := o.matchTerm_total v (Nat.lt_succ_self f.length)
  refine ⟨⟨success, rest, v', fun depth hdepth => matchTerm_mono hdepth hr, suffix_of_matchTerm hr,
    ?_⟩, fun depth n => iterations_le o true depth n f v⟩
  rintro rfl
  exact (eats_of_matchTerm hr).length_lt

/-! ### All loops together -/

/-- How many elements there are said to be, and the bytes behind the head. -/
def readHead (head : Qi ℕ) (f : MsgSeq) : Option (ℕ × MsgSeq) :=
  (head f 0).1.map fun rest => ((head f 0).2, rest)

/-- The elements that a match goes into, if there is a head. -/
def contained : MsgSeq → Option (ℕ × MsgSeq)
  | [] => none
  | tag :: f =>
    if tag = TypeTag.smallTuple then readHead smallTupleHeadExt (tag :: f)
    else if tag = TypeTag.list then readHead listHeadExt (tag :: f)
    else none

/-- How often `match` is called: once, and for the elements. -/
def calls (o : AnyObject σ) (ndebug : Bool) : ℕ → MsgSeq → σ → ℕ
  | 0, _, _ => 1
  | depth + 1, f, v =>
    match contained f with
    | none => 1
    | some (n, rest) =>
      1 + CountedLoop.total (Function.uncurry (o.matchTerm ndebug depth))
        (Function.uncurry (calls o ndebug depth)) n
        (rest, o.matchedRawBytes.saveMatchedBytes (f.take (f.length - rest.length)) v)

theorem readHead_eq_some (h : readHead head f = some (n, g)) : head f 0 = (some g, n) := by
  obtain ⟨rest, hrest, hpair⟩ := Option.map_eq_some_iff.mp h
  obtain ⟨rfl, rfl⟩ := Prod.mk.inj hpair
  exact Prod.ext hrest rfl

/-- Elements are looked for behind a head. -/
theorem contained_eq_some (o : AnyObject σ) (ndebug : Bool) (h : contained f = some (n, g)) :
    ∃ tag head, IsHead tag head ∧ head f 0 = (some g, n) ∧ ∀ instanceMatch v,
      o.matchDynamically ndebug instanceMatch f v =
        o.matchElements ndebug head instanceMatch f v := by
  cases f with
  | nil => cases h
  | cons tag f =>
    rw [contained] at h
    split at h
    · next htag =>
      subst htag
      exact ⟨_, _, .tuple, readHead_eq_some h, fun _ _ => rfl⟩
    · split at h
      · next htag =>
        subst htag
        exact ⟨_, _, .list, readHead_eq_some h, fun _ _ => rfl⟩
      · cases h

/-- **A match that succeeds makes no more calls than it eats bytes**, and one that does not makes
at most one more than there are. -/
theorem calls_bounded (o : AnyObject σ) (ndebug : Bool) (depth : ℕ) (f : MsgSeq) (v : σ) :
    (∀ rest v', o.matchTerm ndebug depth f v = some (true, rest, v') →
      o.calls ndebug depth f v + rest.length ≤ f.length) ∧
    o.calls ndebug depth f v ≤ f.length + 1 := by
  induction depth generalizing f v with
  | zero =>
    refine ⟨fun rest v' h => ?_, Nat.le_add_left 1 _⟩
    cases h
  | succ depth ih =>
    rw [calls]
    split
    · refine ⟨fun rest v' h => ?_, Nat.le_add_left 1 _⟩
      rw [Nat.add_comm]
      exact (eats_of_matchTerm h).length_lt
    · next n g hcontained =>
      obtain ⟨tag, head, htag, hread, hall⟩ := contained_eq_some o ndebug hcontained
      have hlen := htag.length_add_two_le hread
      have hsucceeds (s s' : MsgSeq × σ)
          (hround : Function.uncurry (o.matchTerm ndebug depth) s = some (true, s')) :
          Function.uncurry (o.calls ndebug depth) s + s'.1.length ≤ s.1.length :=
        (ih s.1 s.2).1 s'.1 s'.2 hround
      constructor
      · intro rest v' h
        obtain ⟨w, hmatch, -⟩ := matchTerm_succ_eq_some.mp h
        rw [hall, matchElements, binaryToTerm_of_some hread] at hmatch
        dsimp only at hmatch
        rw [matchContained_eq_run] at hmatch
        have hloop := CountedLoop.total_add_size_le (fun s => s.1.length) hsucceeds hmatch
        dsimp only at hloop
        omega
      · have hloop := CountedLoop.total_le (fun s => s.1.length) hsucceeds
          (fun s => (ih s.1 s.2).2) n
          (g, o.matchedRawBytes.saveMatchedBytes (f.take (f.length - g.length)) v)
        dsimp only at hloop
        omega

/-- **A match makes at most one call more than there are bytes**, whatever the sender says. -/
theorem calls_le (o : AnyObject σ) (ndebug : Bool) (f : MsgSeq) (v : σ) :
    o.calls ndebug (f.length + 1) f v ≤ f.length + 1 :=
  (calls_bounded o ndebug (f.length + 1) f v).2

end AnyObject

/-! ### Strings -/

/-- A string is read character by character, as far as there are any. -/
theorem StringMatcher.iterations_le (n : ℕ) (f : MsgSeq) (val : List Int32) :
    CountedLoop.rounds (assignElement element 0) n (f, val) ≤ f.length + 1 := by
  refine CountedLoop.rounds_le (fun s => s.1.length) ?_ n (f, val)
  rintro ⟨f, val⟩ s' hround
  cases f with
  | nil => cases hround
  | cons c f =>
    cases hround
    exact Nat.lt_succ_self f.length

end TinchPp
