import Mathlib.Data.List.Infix
import Mathlib.Tactic.TypeStar

/-!
# Length-prefixed framing of a stream

A peer writes frames one after the other and a reader gets the bytes in pieces of any size. What
makes that work is that the front of a frame says how long the frame is. A `Framing` is just that
function, with the two properties reassembly needs: a frame is never empty, and once the front of
a stream has told its length, more bytes do not change the answer.

`Framing.split` cuts a stream into its complete frames and the incomplete rest, and
`Framing.split_append` is the fact behind every reassembly buffer: only the rest has to be kept.

## Main definitions

* `Framing.IsFrame`, `Framing.Incomplete`, `Framing.IsSplit` — the specification
* `Framing.split` — the one function that meets it (`isSplit_split`, `IsSplit.unique`)
* `Framing.AtBoundaries` — a condition on what follows each complete frame of a stream
-/

/-- How long the frame at the front of a stream is, once enough of it is there to tell. -/
structure Framing (α : Type*) where
  size : List α → Option ℕ
  size_pos : ∀ {s n}, size s = some n → 0 < n
  size_append : ∀ {s n}, size s = some n → ∀ t, size (s ++ t) = some n
  size_take : ∀ {s n}, size s = some n → size (s.take n) = some n

namespace Framing

variable {α : Type*} (F : Framing α)

/-- `f` is one frame, with nothing missing and nothing following. -/
def IsFrame (f : List α) : Prop := F.size f = some f.length

instance (f : List α) : Decidable (F.IsFrame f) :=
  inferInstanceAs (Decidable (F.size f = some f.length))

/-- The frame at the front of `s`, if it has begun, has not ended. -/
def Incomplete (s : List α) : Prop := ∀ n, F.size s = some n → s.length < n

/-- `s` is the frames `fs` followed by the incomplete `tail`. -/
structure IsSplit (s : List α) (fs : List (List α)) (tail : List α) : Prop where
  concat : s = fs.flatten ++ tail
  frames : ∀ f ∈ fs, F.IsFrame f
  incomplete : F.Incomplete tail

variable {F}

theorem IsFrame.size_append {f : List α} (hf : F.IsFrame f) (t : List α) :
    F.size (f ++ t) = some f.length :=
  F.size_append hf t

theorem IsFrame.ne_nil {f : List α} (hf : F.IsFrame f) : f ≠ [] := by
  rintro rfl
  exact absurd (F.size_pos hf) (Nat.lt_irrefl 0)

/-- Nothing is complete in a prefix of something incomplete. -/
theorem Incomplete.of_append {s t : List α} (h : F.Incomplete (s ++ t)) : F.Incomplete s := by
  intro n hn
  have := h n (F.size_append hn t)
  rw [List.length_append] at this
  omega

theorem incomplete_nil : F.Incomplete [] := fun _ hn => F.size_pos hn

/-- A strict prefix of a frame is incomplete. -/
theorem IsFrame.incomplete_of_isPrefix {f s : List α} (hf : F.IsFrame f) (hs : s <+: f)
    (hne : s ≠ f) : F.Incomplete s := by
  obtain ⟨t, rfl⟩ := hs
  intro n hn
  have heq : n = (s ++ t).length := Option.some_inj.mp ((F.size_append hn t).symm.trans hf)
  have ht : 0 < t.length := List.length_pos_of_ne_nil fun h => hne (by rw [h, List.append_nil])
  rw [heq, List.length_append]
  omega

/-! ### Uniqueness -/

/-- A frame at the front of a stream is determined by the stream. -/
theorem IsFrame.eq_of_append_eq {f g s t : List α} (hf : F.IsFrame f) (hg : F.IsFrame g)
    (h : f ++ s = g ++ t) : f = g ∧ s = t := by
  have hlen : f.length = g.length := by
    have := hf.size_append s
    rw [h, hg.size_append t] at this
    exact (Option.some_inj.mp this).symm
  exact List.append_inj h hlen

theorem IsFrame.not_incomplete {f s : List α} (hf : F.IsFrame f) : ¬ F.Incomplete (f ++ s) := by
  intro h
  have := h f.length (hf.size_append s)
  rw [List.length_append] at this
  omega

/-- **There is only one way to split a stream.** -/
theorem IsSplit.unique {fs : List (List α)} : ∀ {s tail gs tail'}, F.IsSplit s fs tail →
    F.IsSplit s gs tail' → fs = gs ∧ tail = tail' := by
  induction fs with
  | nil =>
    rintro s tail gs tail' ⟨hs, -, ht⟩ ⟨h, hg, -⟩
    rw [List.flatten_nil, List.nil_append] at hs
    subst hs
    cases gs with
    | nil => exact ⟨rfl, by simpa using h⟩
    | cons g gs =>
      rw [h, List.flatten_cons, List.append_assoc] at ht
      exact absurd ht (hg g List.mem_cons_self).not_incomplete
  | cons f fs ih =>
    rintro s tail gs tail' ⟨rfl, hf, ht⟩ ⟨h, hg, ht'⟩
    rw [List.flatten_cons, List.append_assoc] at h
    cases gs with
    | nil =>
      rw [List.flatten_nil, List.nil_append] at h
      rw [← h] at ht'
      exact absurd ht' (hf f List.mem_cons_self).not_incomplete
    | cons g gs =>
      rw [List.flatten_cons, List.append_assoc] at h
      obtain ⟨rfl, hrest⟩ :=
        (hf f List.mem_cons_self).eq_of_append_eq (hg g List.mem_cons_self) h
      obtain ⟨rfl, rfl⟩ := ih ⟨rfl, fun x hx => hf x (List.mem_cons_of_mem f hx), ht⟩
        ⟨hrest, fun x hx => hg x (List.mem_cons_of_mem f hx), ht'⟩
      exact ⟨rfl, rfl⟩

/-- More of the stream adds frames that start in the old tail. -/
theorem IsSplit.append {s t tail tail' : List α} {fs gs : List (List α)}
    (hs : F.IsSplit s fs tail) (ht : F.IsSplit (tail ++ t) gs tail') :
    F.IsSplit (s ++ t) (fs ++ gs) tail' where
  concat := by
    rw [hs.concat, List.append_assoc, ht.concat, List.flatten_append, List.append_assoc]
  frames := by
    intro f hf
    rcases List.mem_append.mp hf with hf | hf
    · exact hs.frames f hf
    · exact ht.frames f hf
  incomplete := ht.incomplete

/-! ### The split of a stream -/

variable (F) in
/-- Cut the complete frames off the front of a stream. -/
def split (s : List α) : List (List α) × List α :=
  match _h : F.size s with
  | none => ([], s)
  | some n =>
    if _hle : n ≤ s.length then (s.take n :: (split (s.drop n)).1, (split (s.drop n)).2)
    else ([], s)
termination_by s.length
decreasing_by
  all_goals
    have := F.size_pos _h
    rw [List.length_drop]
    omega

theorem split_of_incomplete {s : List α} (h : F.Incomplete s) : F.split s = ([], s) := by
  rw [split]
  split
  · rfl
  · next n hn =>
    have := h n hn
    rw [dif_neg (by omega)]

theorem split_frame_append {f s : List α} (hf : F.IsFrame f) :
    F.split (f ++ s) = (f :: (F.split s).1, (F.split s).2) := by
  rw [split]
  split
  · next hn => simp [hf.size_append s] at hn
  · next n hn =>
    obtain rfl : n = f.length := Option.some_inj.mp (hn.symm.trans (hf.size_append s))
    rw [dif_pos (by simp), List.take_left, List.drop_left]

theorem isFrame_take {s : List α} {n : ℕ} (hn : F.size s = some n) (hle : n ≤ s.length) :
    F.IsFrame (s.take n) := by
  rw [IsFrame, F.size_take hn, List.length_take, Nat.min_eq_left hle]

/-- A stream is incomplete or starts with a frame. -/
theorem incomplete_or_frame (s : List α) :
    F.Incomplete s ∨ ∃ f t, F.IsFrame f ∧ s = f ++ t ∧ t.length < s.length := by
  rcases hn : F.size s with _ | n
  · exact .inl fun n h => by simp [hn] at h
  rcases Nat.lt_or_ge s.length n with hlt | hle
  · refine .inl fun m hm => ?_
    obtain rfl : n = m := Option.some_inj.mp (hn.symm.trans hm)
    exact hlt
  · refine .inr ⟨s.take n, s.drop n, isFrame_take hn hle, (List.take_append_drop n s).symm, ?_⟩
    have := F.size_pos hn
    rw [List.length_drop]
    omega

/-- **The split of a stream is one.** -/
theorem isSplit_split (s : List α) : F.IsSplit s (F.split s).1 (F.split s).2 := by
  induction hlen : s.length using Nat.strong_induction_on generalizing s with
  | _ k ih =>
    rcases F.incomplete_or_frame s with hs | ⟨f, t, hf, rfl, hlt⟩
    · rw [split_of_incomplete hs]
      exact ⟨by simp, by simp, hs⟩
    · have hrest := ih t.length (by omega) t rfl
      rw [split_frame_append hf]
      refine ⟨?_, ?_, hrest.incomplete⟩
      · rw [List.flatten_cons, List.append_assoc, ← hrest.concat]
      · intro g hg
        rcases List.mem_cons.mp hg with rfl | hg
        · exact hf
        · exact hrest.frames g hg

theorem IsSplit.split_eq {s tail : List α} {fs : List (List α)} (h : F.IsSplit s fs tail) :
    F.split s = (fs, tail) := by
  obtain ⟨h₁, h₂⟩ := (F.isSplit_split s).unique h
  rw [← h₁, ← h₂]

@[simp] theorem split_nil : F.split [] = ([], []) := split_of_incomplete incomplete_nil

/-- **Reassembly.** The frames of a longer stream are the frames found so far and the frames of
what was left over, so the left over bytes are all a reader has to keep. -/
theorem split_append (s t : List α) :
    F.split (s ++ t) = ((F.split s).1 ++ (F.split ((F.split s).2 ++ t)).1,
      (F.split ((F.split s).2 ++ t)).2) :=
  ((F.isSplit_split s).append (F.isSplit_split ((F.split s).2 ++ t))).split_eq

/-- What is in front of the end of a frame is all rest. -/
theorem IsFrame.split_of_isPrefix {f s : List α} (hf : F.IsFrame f) (hs : s <+: f)
    (hne : s ≠ f) : F.split s = ([], s) :=
  split_of_incomplete (hf.incomplete_of_isPrefix hs hne)

/-- A prefix of a stream ends inside its first piece or goes on behind it. -/
theorem prefix_append_cases {s f t : List α} (h : s <+: f ++ t) :
    s <+: f ∧ s ≠ f ∨ ∃ u, s = f ++ u ∧ u <+: t := by
  rcases Nat.lt_or_ge s.length f.length with hlt | hle
  · refine .inl ⟨List.prefix_of_prefix_length_le h (List.prefix_append f t) hlt.le, ?_⟩
    rintro rfl
    exact absurd hlt (Nat.lt_irrefl _)
  · obtain ⟨u, rfl⟩ := List.prefix_of_prefix_length_le (List.prefix_append f t) h hle
    exact .inr ⟨u, rfl, (List.prefix_append_right_inj f).mp h⟩

/-- No stream goes on behind its own end. -/
theorem not_append_isPrefix {s t : List α} (ht : t ≠ []) : ¬ s ++ t <+: s := by
  intro h
  have hnil : t <+: [] := (List.prefix_append_right_inj s).mp (by rwa [List.append_nil])
  exact ht (List.prefix_nil.mp hnil)

/-- A list of frames is split into itself. -/
theorem split_flatten {fs : List (List α)} (hf : ∀ f ∈ fs, F.IsFrame f) {tail : List α}
    (ht : F.Incomplete tail) : F.split (fs.flatten ++ tail) = (fs, tail) :=
  IsSplit.split_eq ⟨rfl, hf, ht⟩

/-- **A reader of a stream of frames** has got some of them, and is in front of another one or inside
it. What it has not read yet makes up the others. -/
theorem exists_split_of_append {fs : List (List α)} (hf : ∀ f ∈ fs, F.IsFrame f) {s t : List α}
    (h : s ++ t = fs.flatten) :
    ∃ gs, fs = (F.split s).1 ++ gs ∧ (F.split s).2 ++ t = gs.flatten := by
  have hsplit : F.split (s ++ t) = (fs, []) := by
    rw [h, ← List.append_nil fs.flatten]
    exact split_flatten hf incomplete_nil
  rw [split_append, Prod.mk.injEq] at hsplit
  refine ⟨(F.split ((F.split s).2 ++ t)).1, hsplit.1.symm, ?_⟩
  have hrest := (F.isSplit_split ((F.split s).2 ++ t)).concat
  rwa [hsplit.2, List.append_nil] at hrest

/-- A reader that is inside a frame, or in front of one, has a part of each frame still to read. -/
theorem length_le_of_append {fs : List (List α)} (hf : ∀ f ∈ fs, F.IsFrame f) {s t : List α}
    (hs : F.Incomplete s) (h : s ++ t = fs.flatten) : fs.length ≤ t.length := by
  induction fs generalizing s t with
  | nil => exact Nat.zero_le _
  | cons f fs ih =>
    have hframe := hf f List.mem_cons_self
    rw [List.flatten_cons] at h
    rcases List.append_eq_append_iff.mp h with ⟨u, rfl, rfl⟩ | ⟨u, rfl, -⟩
    · have hu : u ≠ [] := by
        rintro rfl
        rw [List.append_nil] at hframe
        exact hframe.not_incomplete (s := []) (by rwa [List.append_nil])
      have hrest := ih (fun g hg => hf g (List.mem_cons_of_mem _ hg)) incomplete_nil
        (List.nil_append _)
      have hpos := List.length_pos_of_ne_nil hu
      rw [List.length_cons, List.length_append]
      omega
    · exact absurd hs hframe.not_incomplete

/-! ### Conditions at the frame boundaries -/

variable (F) in
/-- `P` holds of what remains of `s` after any number of its complete frames. -/
def AtBoundaries (P : List α → Prop) (s : List α) : Prop :=
  ∀ (fs : List (List α)) (r : List α), (∀ f ∈ fs, F.IsFrame f) → s = fs.flatten ++ r → P r

variable {P : List α → Prop}

theorem AtBoundaries.here {s : List α} (h : F.AtBoundaries P s) : P s :=
  h [] s (by simp) (by simp)

theorem atBoundaries_frames_append {fs : List (List α)} {s : List α}
    (hf : ∀ f ∈ fs, F.IsFrame f) (h : F.AtBoundaries P (fs.flatten ++ s)) :
    F.AtBoundaries P s := by
  rintro gs r hg rfl
  refine h (fs ++ gs) r (fun f hf' => ?_) (by simp)
  rcases List.mem_append.mp hf' with hf' | hf'
  · exact hf f hf'
  · exact hg f hf'

theorem AtBoundaries.of_frame_append {f s : List α} (hf : F.IsFrame f)
    (h : F.AtBoundaries P (f ++ s)) : F.AtBoundaries P s :=
  have hfs : ∀ g ∈ [f], F.IsFrame g := by simpa using hf
  atBoundaries_frames_append hfs (by simpa using h)

theorem atBoundaries_of_incomplete {s : List α} (hs : F.Incomplete s) :
    F.AtBoundaries P s ↔ P s := by
  refine ⟨AtBoundaries.here, fun h fs r hf hr => ?_⟩
  cases fs with
  | nil => rwa [hr, List.flatten_nil, List.nil_append] at h
  | cons f fs =>
    rw [hr, List.flatten_cons, List.append_assoc] at hs
    exact absurd hs (hf f List.mem_cons_self).not_incomplete

theorem atBoundaries_frame_append {f s : List α} (hf : F.IsFrame f) :
    F.AtBoundaries P (f ++ s) ↔ P (f ++ s) ∧ F.AtBoundaries P s := by
  refine ⟨fun h => ⟨h.here, h.of_frame_append hf⟩, fun h fs r hfs hr => ?_⟩
  cases fs with
  | nil =>
    rw [List.flatten_nil, List.nil_append] at hr
    exact hr ▸ h.1
  | cons g fs =>
    rw [List.flatten_cons, List.append_assoc] at hr
    obtain ⟨-, rfl⟩ := hf.eq_of_append_eq (hfs g List.mem_cons_self) hr
    exact h.2 fs r (fun x hx => hfs x (List.mem_cons_of_mem g hx)) rfl

/-- The left over bytes of a stream, with more bytes, meet what the whole stream meets. -/
theorem AtBoundaries.tail_append {s t : List α} (h : F.AtBoundaries P (s ++ t)) :
    F.AtBoundaries P ((F.split s).2 ++ t) := by
  have hs := F.isSplit_split s
  refine atBoundaries_frames_append hs.frames ?_
  rwa [← List.append_assoc, ← hs.concat]

/-- A condition that only gets harder with more bytes holds of the prefixes of a stream. -/
theorem AtBoundaries.of_append {s t : List α} (hP : ∀ r t, P (r ++ t) → P r)
    (h : F.AtBoundaries P (s ++ t)) : F.AtBoundaries P s := by
  rintro fs r hf rfl
  exact hP r t (h fs (r ++ t) hf (by rw [List.append_assoc]))

theorem AtBoundaries.mono {s : List α} {Q : List α → Prop} (h : F.AtBoundaries P s)
    (hPQ : ∀ r, P r → Q r) : F.AtBoundaries Q s :=
  fun fs r hf hr => hPQ r (h fs r hf hr)

end Framing
