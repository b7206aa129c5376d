import Mathlib.Data.List.Pairwise
import Mathlib.Order.Defs.Unbundled
import Mathlib.Tactic.TypeStar

/-!
# Search trees over a strict weak order

An ordered associative container is a balanced search tree that finds its way with nothing but a
comparison `lt`, two keys being the same when neither is less than the other. This file has the two
walks down the tree, `find` by lower bound and `insert` at a leaf after one look at the predecessor,
and leaves the balancing open: `Built` allows the tree to be replaced by any other tree with the
same, or fewer, entries in the same order, which covers rotations and removals.

`lt` is a strict weak order throughout. That is what an ordered container asks of its comparison,
and without it nothing here is true.

## Main results

* `find_of_mem` — what is in a sorted tree is found, whatever else is in it
* `insert_cases` — an insertion puts the entry in its place, or meets an equivalent key
* `Built.sorted` — every tree made by insertions, removals and rotations is sorted
-/

/-- A binary tree with an entry at each node. -/
inductive SearchTree (κ ν : Type*)
  | leaf
  | node (left : SearchTree κ ν) (key : κ) (val : ν) (right : SearchTree κ ν)

namespace SearchTree

variable {κ ν : Type*}

/-- The entries, from left to right. -/
def inorder : SearchTree κ ν → List (κ × ν)
  | leaf => []
  | node l k v r => l.inorder ++ (k, v) :: r.inorder

variable (lt : κ → κ → Prop)

/-- The keys increase from left to right. -/
def Sorted (t : SearchTree κ ν) : Prop := t.inorder.Pairwise fun a b => lt a.1 b.1

variable {lt} in
theorem sorted_node {l r : SearchTree κ ν} {k : κ} {v : ν} (h : (node l k v r).Sorted lt) :
    l.Sorted lt ∧ r.Sorted lt ∧ (∀ a ∈ l.inorder, lt a.1 k) ∧ ∀ b ∈ r.inorder, lt k b.1 := by
  obtain ⟨hl, hr, hlr⟩ := List.pairwise_append.mp h
  obtain ⟨hk, hr⟩ := List.pairwise_cons.mp hr
  exact ⟨hl, hr, fun a ha => hlr a ha (k, v) List.mem_cons_self, hk⟩

variable [DecidableRel lt]

/-- The entry of the first key that is not less than `k`, or `best` if there is none. -/
def lowerBound (k : κ) : SearchTree κ ν → Option (κ × ν) → Option (κ × ν)
  | leaf, best => best
  | node l k' v' r, best =>
    if lt k' k then r.lowerBound k best else l.lowerBound k (some (k', v'))

/-- The value stored for a key equivalent to `k`. -/
def find (k : κ) (t : SearchTree κ ν) : Option ν :=
  match t.lowerBound lt k none with
  | none => none
  | some (k', v') => if lt k k' then none else some v'

/-- Walk down to a leaf, remembering the last key that was not greater; put the entry there unless
that key is equivalent to `k`. -/
def insertBelow (k : κ) (v : ν) : SearchTree κ ν → Option κ → Option (SearchTree κ ν)
  | leaf, none => some (node leaf k v leaf)
  | leaf, some p => if lt p k then some (node leaf k v leaf) else none
  | node l k' v' r, pred =>
    if lt k k' then (l.insertBelow k v pred).map fun l => node l k' v' r
    else (r.insertBelow k v (some k')).map fun r => node l k' v' r

/-- Insert an entry; `none` when an equivalent key is there. -/
def insert (k : κ) (v : ν) (t : SearchTree κ ν) : Option (SearchTree κ ν) :=
  t.insertBelow lt k v none

/-- The trees a container passes through. -/
inductive Built : SearchTree κ ν → Prop
  | leaf : Built leaf
  /-- An insertion, and the rotations that follow it. -/
  | insert {t t' u : SearchTree κ ν} {k : κ} {v : ν} (ht : Built t)
      (h : t.insert lt k v = some t') (hu : u.inorder = t'.inorder) : Built u
  /-- A removal, and the rotations that follow it. -/
  | remove {t u : SearchTree κ ν} (ht : Built t) (hu : u.inorder.Sublist t.inorder) : Built u

variable {lt}

variable [IsStrictWeakOrder κ lt]

/-- What is below one of two equivalent keys is below the other. -/
theorem lt_of_lt_of_equiv {a b c : κ} (hab : lt a b) (hbc : ¬ lt b c) (hcb : ¬ lt c b) :
    lt a c := by
  by_contra hac
  have hca : ¬ lt c a := fun h => hcb (trans_of lt h hab)
  exact (IsStrictWeakOrder.incomp_trans a c b ⟨hac, hca⟩ ⟨hcb, hbc⟩).1 hab

/-! ### Finding -/

omit [IsStrictWeakOrder κ lt] in
/-- Keys below `k` are passed over. -/
theorem lowerBound_of_forall_lt {k : κ} : ∀ {t : SearchTree κ ν} {best : Option (κ × ν)},
    (∀ a ∈ t.inorder, lt a.1 k) → t.lowerBound lt k best = best
  | leaf, _, _ => rfl
  | node l k' v' r, best, h => by
    have hk' : lt k' k := h (k', v') (by simp [inorder])
    rw [lowerBound, if_pos hk']
    exact lowerBound_of_forall_lt fun a ha => h a (by simp [inorder, ha])

/-- In a sorted tree the walk ends at the key equivalent to `k`. -/
theorem lowerBound_of_mem {k k₀ : κ} {v₀ : ν} (h₁ : ¬ lt k k₀) (h₂ : ¬ lt k₀ k) :
    ∀ {t : SearchTree κ ν} {best : Option (κ × ν)}, t.Sorted lt → (k₀, v₀) ∈ t.inorder →
      t.lowerBound lt k best = some (k₀, v₀)
  | leaf, _, _, hm => by simp [inorder] at hm
  | node l k' v' r, best, hs, hm => by
    obtain ⟨hl, hr, hlk, hkr⟩ := sorted_node hs
    rw [inorder, List.mem_append, List.mem_cons] at hm
    rcases hm with hm | hm | hm
    · -- `k` is as `k₀`, on the left
      have hk : ¬ lt k' k := fun h => h₂ (trans_of lt (hlk _ hm) h)
      rw [lowerBound, if_neg hk]
      exact lowerBound_of_mem h₁ h₂ hl hm
    · obtain ⟨rfl, rfl⟩ := Prod.mk.inj hm
      rw [lowerBound, if_neg h₂]
      exact lowerBound_of_forall_lt fun a ha => lt_of_lt_of_equiv (hlk a ha) h₂ h₁
    · have hk : lt k' k := lt_of_lt_of_equiv (hkr _ hm) h₂ h₁
      rw [lowerBound, if_pos hk]
      exact lowerBound_of_mem h₁ h₂ hr hm

/-- **What is in a sorted tree is found**, under every key equivalent to its own. -/
theorem find_of_mem {t : SearchTree κ ν} (hs : t.Sorted lt) {k k₀ : κ} {v₀ : ν}
    (hm : (k₀, v₀) ∈ t.inorder) (h₁ : ¬ lt k k₀) (h₂ : ¬ lt k₀ k) : t.find lt k = some v₀ := by
  rw [find, lowerBound_of_mem h₁ h₂ hs hm]
  dsimp only
  rw [if_neg h₁]

/-! ### Inserting -/

/-- Where the entry goes: after everything that is less, before everything that is greater. -/
theorem insertBelow_eq_some {k : κ} {v : ν} : ∀ {t t' : SearchTree κ ν} {pred : Option κ},
    t.Sorted lt → (∀ p ∈ pred, ∀ a ∈ t.inorder, lt p a.1) →
    t.insertBelow lt k v pred = some t' →
    (∀ p ∈ pred, lt p k) ∧ ∃ L R, t.inorder = L ++ R ∧ t'.inorder = L ++ (k, v) :: R ∧
      (∀ a ∈ L, lt a.1 k) ∧ ∀ b ∈ R, lt k b.1
  | leaf, t', none, _, _, h => by
    obtain rfl := Option.some_inj.mp h
    exact ⟨by simp, [], [], rfl, rfl, by simp, by simp⟩
  | leaf, t', some p, _, _, h => by
    rw [insertBelow] at h
    split at h
    · next hp =>
      obtain rfl := Option.some_inj.mp h
      exact ⟨by simpa using hp, [], [], rfl, rfl, by simp, by simp⟩
    · simp at h
  | node l k' v' r, t', pred, hs, hpred, h => by
    obtain ⟨hl, hr, hlk, hkr⟩ := sorted_node hs
    rw [insertBelow] at h
    split at h
    · next hlt =>
      obtain ⟨l', hl', rfl⟩ := Option.map_eq_some_iff.mp h
      obtain ⟨hp, L, R, hLR, hL', hL, hR⟩ := insertBelow_eq_some hl
        (fun p hp a ha => hpred p hp a (by simp [inorder, ha])) hl'
      refine ⟨hp, L, R ++ (k', v') :: r.inorder, by simp [inorder, hLR], by simp [inorder, hL'],
        hL, fun b hb => ?_⟩
      rcases List.mem_append.mp hb with hb | hb
      · exact hR b hb
      rcases List.mem_cons.mp hb with rfl | hb
      · exact hlt
      · exact trans_of lt hlt (hkr b hb)
    · obtain ⟨r', hr', rfl⟩ := Option.map_eq_some_iff.mp h
      have hpred' : ∀ p ∈ some k', ∀ a ∈ r.inorder, lt p a.1 := fun p hp a ha => by
        obtain rfl : k' = p := by simpa using hp
        exact hkr a ha
      obtain ⟨hp, L, R, hLR, hL', hL, hR⟩ := insertBelow_eq_some hr hpred' hr'
      have hk'k : lt k' k := hp k' (by simp)
      refine ⟨fun p hp => trans_of lt (hpred p hp (k', v') (by simp [inorder])) hk'k,
        l.inorder ++ (k', v') :: L, R, by simp [inorder, hLR], by simp [inorder, hL'],
        fun a ha => ?_, hR⟩
      rcases List.mem_append.mp ha with ha | ha
      · exact trans_of lt (hlk a ha) hk'k
      rcases List.mem_cons.mp ha with rfl | ha
      · exact hk'k
      · exact hL a ha

omit [IsStrictWeakOrder κ lt] in
/-- An insertion that is refused has met an equivalent key. -/
theorem insertBelow_eq_none {k : κ} {v : ν} : ∀ {t : SearchTree κ ν} {pred : Option κ},
    (∀ p ∈ pred, ¬ lt k p) → t.insertBelow lt k v pred = none →
      ∃ k₀, (k₀ ∈ pred ∨ ∃ v₀, (k₀, v₀) ∈ t.inorder) ∧ ¬ lt k k₀ ∧ ¬ lt k₀ k
  | leaf, none, _, h => by simp [insertBelow] at h
  | leaf, some p, hpred, h => by
    rw [insertBelow] at h
    split at h
    · simp at h
    · next hp => exact ⟨p, .inl rfl, hpred p rfl, hp⟩
  | node l k' v' r, pred, hpred, h => by
    rw [insertBelow] at h
    split at h
    · obtain ⟨k₀, hk₀, he⟩ := insertBelow_eq_none hpred (Option.map_eq_none_iff.mp h)
      exact ⟨k₀, hk₀.imp_right fun hm => hm.imp fun v₀ hm => by simp [inorder, hm], he⟩
    · next hlt =>
      have hpred' : ∀ p ∈ some k', ¬ lt k p := fun p hp => by
        obtain rfl : k' = p := by simpa using hp
        exact hlt
      obtain ⟨k₀, hk₀, he⟩ := insertBelow_eq_none hpred' (Option.map_eq_none_iff.mp h)
      refine ⟨k₀, .inr ?_, he⟩
      rcases hk₀ with hk₀ | ⟨v₀, hm⟩
      · obtain rfl : k' = k₀ := by simpa using hk₀
        exact ⟨v', by simp [inorder]⟩
      · exact ⟨v₀, by simp [inorder, hm]⟩

/-- **An insertion puts the entry in its place, or meets an equivalent key.** -/
theorem insert_cases {t : SearchTree κ ν} (hs : t.Sorted lt) (k : κ) (v : ν) :
    (∃ t' L R, t.insert lt k v = some t' ∧ t.inorder = L ++ R ∧ t'.inorder = L ++ (k, v) :: R ∧
      t'.Sorted lt) ∨
    (t.insert lt k v = none ∧ ∃ k₀ v₀, (k₀, v₀) ∈ t.inorder ∧ ¬ lt k k₀ ∧ ¬ lt k₀ k) := by
  rcases h : t.insert lt k v with _ | t'
  · have hpred : ∀ p ∈ (none : Option κ), ¬ lt k p := by simp
    obtain ⟨k₀, hk₀, he⟩ := insertBelow_eq_none hpred h
    obtain ⟨v₀, hm⟩ := hk₀.resolve_left (by simp)
    exact .inr ⟨rfl, k₀, v₀, hm, he⟩
  · have hpred : ∀ p ∈ (none : Option κ), ∀ a ∈ t.inorder, lt p a.1 := by simp
    obtain ⟨-, L, R, hLR, ht', hL, hR⟩ := insertBelow_eq_some hs hpred h
    refine .inl ⟨t', L, R, rfl, hLR, ht', ?_⟩
    rw [Sorted, hLR] at hs
    obtain ⟨hLs, hRs, hcross⟩ := List.pairwise_append.mp hs
    rw [Sorted, ht', List.pairwise_append]
    refine ⟨hLs, List.pairwise_cons.mpr ⟨hR, hRs⟩, fun a ha b hb => ?_⟩
    rcases List.mem_cons.mp hb with rfl | hb
    · exact hL a ha
    · exact hcross a ha b hb

/-- **Every tree a container passes through is sorted.** -/
theorem Built.sorted {t : SearchTree κ ν} (h : Built lt t) : t.Sorted lt := by
  induction h with
  | leaf => exact List.Pairwise.nil
  | insert _ h hu ih =>
    rcases insert_cases ih _ _ with ⟨t', L, R, h', -, -, hs⟩ | ⟨h', -⟩
    · obtain rfl := Option.some_inj.mp (h.symm.trans h')
      rwa [Sorted, hu]
    · exact absurd (h.symm.trans h') (by simp)
  | remove _ hu ih => exact ih.sublist hu

end SearchTree
