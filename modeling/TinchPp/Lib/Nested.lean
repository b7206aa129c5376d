import Mathlib.Data.List.Forall2

/-!
# Nested sequences

Leaves, and sequences of several kinds that are nested to any depth. A function on them is a `fold`:
it says what it makes of a leaf, and what of a sequence, given what it makes of the elements. A
condition (`All`) is one on the leaves and on the lengths.

The recursion through lists is dealt with here. Elsewhere there is one case for the leaves and one
for the sequences, where the elements are members of a list like any other.

## Main results

* `Nested.induction` — induction, where what is to be shown holds of each element
* `Nested.fold_node`, `Nested.map_node`, `Nested.all_node` — the case of a sequence
* `Nested.Forall₂.induction` — induction over two that are made alike
-/

variable {κ α β γ : Type}

/-- Leaves, and sequences of kinds `κ`. -/
inductive Nested (κ α : Type)
  | leaf (a : α)
  | node (k : κ) (ts : List (Nested κ α))

namespace Nested

/-- What holds of a sequence if it holds of its elements holds of all. -/
@[elab_as_elim]
theorem induction {motive : Nested κ α → Prop} (leaf : ∀ a, motive (.leaf a))
    (node : ∀ k ts, (∀ t ∈ ts, motive t) → motive (.node k ts)) (t : Nested κ α) : motive t := by
  refine @Nested.rec κ α motive (fun ts => ∀ t ∈ ts, motive t) leaf (fun k ts ih => node k ts ih)
    (fun t ht => absurd ht List.not_mem_nil) (fun t ts hhead htail u hu => ?_) t
  rcases List.mem_cons.mp hu with rfl | hu
  · exact hhead
  · exact htail u hu

/-! ### Functions -/

mutual

/-- What is made of a leaf, and of a sequence from what has been made of its elements. -/
def fold (leaf : α → β) (node : κ → List β → β) : Nested κ α → β
  | .leaf a => leaf a
  | .node k ts => node k (foldAll leaf node ts)

def foldAll (leaf : α → β) (node : κ → List β → β) : List (Nested κ α) → List β
  | [] => []
  | t :: ts => fold leaf node t :: foldAll leaf node ts

end

theorem foldAll_eq_map (leaf : α → β) (node : κ → List β → β) (ts : List (Nested κ α)) :
    foldAll leaf node ts = ts.map (fold leaf node) := by
  induction ts with
  | nil => rfl
  | cons t ts ih => rw [foldAll, ih, List.map_cons]

@[simp] theorem fold_leaf (leaf : α → β) (node : κ → List β → β) (a : α) :
    fold leaf node (.leaf a) = leaf a := rfl

@[simp] theorem fold_node (leaf : α → β) (node : κ → List β → β) (k : κ)
    (ts : List (Nested κ α)) :
    fold leaf node (.node k ts) = node k (ts.map (fold leaf node)) := by
  rw [fold, foldAll_eq_map]

/-- Other leaves in the same places. -/
def map (f : α → β) : Nested κ α → Nested κ β := fold (fun a => .leaf (f a)) .node

@[simp] theorem map_leaf (f : α → β) (a : α) : map f (.leaf a : Nested κ α) = .leaf (f a) := rfl

@[simp] theorem map_node (f : α → β) (k : κ) (ts : List (Nested κ α)) :
    map f (.node k ts) = .node k (ts.map (map f)) :=
  fold_node _ _ k ts

/-! ### Conditions -/

mutual

/-- Each leaf has the property, and the length of each sequence is one of those of its kind. -/
def All (P : α → Prop) (lengths : κ → ℕ → Prop) : Nested κ α → Prop
  | .leaf a => P a
  | .node k ts => lengths k ts.length ∧ AllEach P lengths ts

def AllEach (P : α → Prop) (lengths : κ → ℕ → Prop) : List (Nested κ α) → Prop
  | [] => True
  | t :: ts => t.All P lengths ∧ AllEach P lengths ts

end

theorem allEach_iff (P : α → Prop) (lengths : κ → ℕ → Prop) (ts : List (Nested κ α)) :
    AllEach P lengths ts ↔ ∀ t ∈ ts, t.All P lengths := by
  induction ts with
  | nil => exact iff_of_true trivial fun _ ht => absurd ht List.not_mem_nil
  | cons t ts ih => rw [AllEach, ih, List.forall_mem_cons]

@[simp] theorem all_leaf (P : α → Prop) (lengths : κ → ℕ → Prop) (a : α) :
    (leaf a).All P lengths ↔ P a := Iff.rfl

@[simp] theorem all_node (P : α → Prop) (lengths : κ → ℕ → Prop) (k : κ)
    (ts : List (Nested κ α)) :
    (node k ts).All P lengths ↔ lengths k ts.length ∧ ∀ t ∈ ts, t.All P lengths := by
  rw [All, allEach_iff]

/-! ### Two of them -/

/-- They are made alike, and the leaves in the same places are related. -/
inductive Forall₂ (R : α → β → Prop) : Nested κ α → Nested κ β → Prop
  | leaf {a : α} {b : β} (h : R a b) : Forall₂ R (.leaf a) (.leaf b)
  | node {k : κ} {ts : List (Nested κ α)} {us : List (Nested κ β)}
      (h : List.Forall₂ (Forall₂ R) ts us) : Forall₂ R (.node k ts) (.node k us)

@[elab_as_elim]
theorem Forall₂.induction {R : α → β → Prop} {motive : Nested κ α → Nested κ β → Prop}
    (leaf : ∀ a b, R a b → motive (.leaf a) (.leaf b))
    (node : ∀ k ts us, List.Forall₂ motive ts us → motive (.node k ts) (.node k us))
    {t : Nested κ α} {u : Nested κ β} (h : Forall₂ R t u) : motive t u := by
  exact @Forall₂.rec κ α β R (fun t u _ => motive t u) (fun ts us _ => List.Forall₂ motive ts us)
    (fun hab => leaf _ _ hab) (fun _ ih => node _ _ _ ih) .nil (fun _ _ ih ihs => .cons ih ihs) t u h

end Nested
