import Mathlib.Data.Nat.Notation
import Mathlib.Tactic.TypeStar

/-!
# Counted loops

A loop over so many rounds that ends early where a round fails, and ends without a result where a
round comes to none. Each round works on what the one before has left. Where the count comes from
does not matter to how long the loop takes: if a round that succeeds uses up some of what there is
to work on, then at most one more round is begun than there is to use up.

## Main definitions

* `CountedLoop.run` — the loop
* `CountedLoop.total` — what the rounds that are begun cost together
* `CountedLoop.rounds` — how many they are

## Main results

* `CountedLoop.lt_rounds_iff` — a round is begun if those in front of it have succeeded
* `CountedLoop.total_add_size_le`, `CountedLoop.total_le` — a loop whose rounds cost no more than
  they use up, and `CountedLoop.rounds_le`, for their number
* `CountedLoop.run_rel`, `CountedLoop.run_mono` — what carries over from the rounds to the loop
-/

namespace CountedLoop

variable {S : Type*} {round round' : S → Option (Bool × S)} {cost : S → ℕ} {n k : ℕ} {s s' : S}

/-- So many rounds, until one of them does not succeed. -/
def run (round : S → Option (Bool × S)) : ℕ → S → Option (Bool × S)
  | 0, s => some (true, s)
  | n + 1, s =>
    match round s with
    | some (true, s) => run round n s
    | r => r

/-- What the rounds that are begun cost, the last one included. -/
def total (round : S → Option (Bool × S)) (cost : S → ℕ) : ℕ → S → ℕ
  | 0, _ => 0
  | n + 1, s =>
    match round s with
    | some (true, s') => cost s + total round cost n s'
    | _ => cost s

/-- How many rounds are begun. -/
def rounds (round : S → Option (Bool × S)) : ℕ → S → ℕ := total round fun _ => 1

@[simp] theorem run_zero (round : S → Option (Bool × S)) (s : S) :
    run round 0 s = some (true, s) := rfl

theorem run_succ_of_true (h : round s = some (true, s')) :
    run round (n + 1) s = run round n s' := by
  rw [run, h]

theorem run_succ_of_not_true (h : ∀ s', round s ≠ some (true, s')) :
    run round (n + 1) s = round s := by
  rw [run]
  split
  · next s' hround => exact absurd hround (h s')
  · rfl

theorem total_succ_of_true (h : round s = some (true, s')) :
    total round cost (n + 1) s = cost s + total round cost n s' := by
  rw [total, h]

theorem total_succ_of_not_true (h : ∀ s', round s ≠ some (true, s')) :
    total round cost (n + 1) s = cost s := by
  rw [total]
  split
  · next s' hround => exact absurd hround (h s')
  · rfl

/-- A round either succeeds, or it is the last one. -/
theorem succeeds_or_not (round : S → Option (Bool × S)) (s : S) :
    (∃ s', round s = some (true, s')) ∨ ∀ s', round s ≠ some (true, s') := by
  by_cases h : ∃ s', round s = some (true, s')
  · exact .inl h
  · exact .inr (not_exists.mp h)

/-- **A round is begun** if there is one, and those in front of it have succeeded. -/
theorem lt_rounds_iff : k < rounds round n s ↔ k < n ∧ ∃ s', run round k s = some (true, s') := by
  rw [rounds]
  induction n generalizing k s with
  | zero => simp [total]
  | succ n ih =>
    rcases succeeds_or_not round s with ⟨s₁, hround⟩ | hlast
    · rw [total_succ_of_true hround]
      cases k with
      | zero => exact iff_of_true (by omega) ⟨Nat.succ_pos n, s, rfl⟩
      | succ k =>
        rw [run_succ_of_true hround, Nat.succ_lt_succ_iff, ← ih]
        omega
    · rw [total_succ_of_not_true hlast]
      cases k with
      | zero => exact iff_of_true Nat.one_pos ⟨Nat.succ_pos n, s, rfl⟩
      | succ k =>
        rw [run_succ_of_not_true hlast]
        exact iff_of_false (by omega) fun ⟨_, s', hround⟩ => hlast s' hround

/-! ### Cost -/

/-- If the rounds that succeed cost no more than they use up, so does a loop that succeeds. -/
theorem total_add_size_le (size : S → ℕ)
    (hsucceeds : ∀ s s', round s = some (true, s') → cost s + size s' ≤ size s)
    (h : run round n s = some (true, s')) : total round cost n s + size s' ≤ size s := by
  induction n generalizing s with
  | zero =>
    obtain rfl : s = s' := by simpa using h
    exact Nat.le_of_eq (Nat.zero_add _)
  | succ n ih =>
    rcases succeeds_or_not round s with ⟨s₁, hround⟩ | hlast
    · rw [run_succ_of_true hround] at h
      rw [total_succ_of_true hround]
      have hfirst := hsucceeds s s₁ hround
      have hothers := ih h
      omega
    · rw [run_succ_of_not_true hlast] at h
      exact absurd h (hlast s')

/-- **If a round that does not succeed costs at most one more than there is**, so does the loop,
whatever its count. -/
theorem total_le (size : S → ℕ)
    (hsucceeds : ∀ s s', round s = some (true, s') → cost s + size s' ≤ size s)
    (hcost : ∀ s, cost s ≤ size s + 1) (n : ℕ) (s : S) :
    total round cost n s ≤ size s + 1 := by
  induction n generalizing s with
  | zero => exact Nat.zero_le _
  | succ n ih =>
    rcases succeeds_or_not round s with ⟨s₁, hround⟩ | hlast
    · rw [total_succ_of_true hround]
      have hfirst := hsucceeds s s₁ hround
      have hothers := ih s₁
      omega
    · rw [total_succ_of_not_true hlast]
      exact hcost s

/-- **At most one more round is begun than there is to use up**, whatever the count. -/
theorem rounds_le (size : S → ℕ) (hsize : ∀ s s', round s = some (true, s') → size s' < size s)
    (n : ℕ) (s : S) : rounds round n s ≤ size s + 1 := by
  refine total_le size (fun s s' h => ?_) (fun s => Nat.le_add_left 1 (size s)) n s
  rw [Nat.add_comm]
  exact hsize s s' h

/-! ### What carries over to the loop -/

/-- What each round does to what it works on, if it can be put together. -/
theorem run_rel {R : S → S → Prop} (hrefl : ∀ s, R s s)
    (htrans : ∀ s₁ s₂ s₃, R s₁ s₂ → R s₂ s₃ → R s₁ s₃)
    (hround : ∀ s b s', round s = some (b, s') → R s s') {b : Bool}
    (h : run round n s = some (b, s')) : R s s' := by
  induction n generalizing s with
  | zero =>
    obtain ⟨-, rfl⟩ : true = b ∧ s = s' := by simpa using h
    exact hrefl s
  | succ n ih =>
    rcases succeeds_or_not round s with ⟨s₁, hfirst⟩ | hlast
    · rw [run_succ_of_true hfirst] at h
      exact htrans s s₁ s' (hround s true s₁ hfirst) (ih h)
    · rw [run_succ_of_not_true hlast] at h
      exact hround s b s' h

/-- Rounds that come to results more often come to the same loop. -/
theorem run_mono (hround : ∀ s r, round s = some r → round' s = some r) {r : Bool × S}
    (h : run round n s = some r) : run round' n s = some r := by
  induction n generalizing s with
  | zero => exact h
  | succ n ih =>
    rcases succeeds_or_not round s with ⟨s₁, hfirst⟩ | hlast
    · rw [run_succ_of_true hfirst] at h
      rw [run_succ_of_true (hround s _ hfirst)]
      exact ih h
    · rw [run_succ_of_not_true hlast] at h
      have hfirst := hround s r h
      rw [run_succ_of_not_true, hfirst]
      rintro s' hround'
      rw [hround', Option.some_inj] at hfirst
      exact hlast s' (by rw [h, ← hfirst])

end CountedLoop
