import Mathlib.Data.List.Nodup
import Mathlib.Data.Prod.Basic
import TinchPp.Types

/-!
# The linker

`linker.cpp` keeps the links of a node, local and remote, in one list of pairs of pids. A link has
no direction, so the list never has two entries for the same two pids (`Distinct`): `link` takes out
an old entry, in either direction, before it adds the new one.

When a process dies, its links are taken out of the list first and their other ends are then
notified one by one.

## Main results

* `Distinct.link`, `Distinct.unlink`, `Distinct.removeLinksFrom` — no pair is ever there twice
* `linkedPids_nodup`, `mem_linkedPids` — `removeLinksFrom` hands out each linked pid exactly once
* `not_mentions_removeLinksFrom` — and leaves no link of the dying process behind
* `linked_link`, `linked_unlink`, `linked_removeLinksFrom` — which pids are linked afterwards
-/

namespace TinchPp

/-- `link_type` -/
abbrev Link := EPid × EPid

structure Linker where
  establishedLinks : List Link
deriving DecidableEq, Repr

namespace Linker

def create : Linker := ⟨[]⟩

def establishLinkBetween (pid₁ pid₂ : EPid) (k : Linker) : Linker :=
  ⟨k.establishedLinks ++ [(pid₁, pid₂)]⟩

def removeLinkBetween (pid₁ pid₂ : EPid) (k : Linker) : Linker :=
  ⟨(k.establishedLinks.filter (· ≠ (pid₁, pid₂))).filter (· ≠ (pid₂, pid₁))⟩

def link (fromPid toPid : EPid) (k : Linker) : Linker :=
  (k.removeLinkBetween fromPid toPid).establishLinkBetween fromPid toPid

def unlink (fromPid toPid : EPid) (k : Linker) : Linker := k.removeLinkBetween fromPid toPid

/-- `remove_links_from`: the loop takes out the links of the dying process and collects their other
ends. -/
def removeFrom (dyingProcess : EPid) : List Link → List EPid × List Link
  | [] => ([], [])
  | i :: links =>
    match removeFrom dyingProcess links with
    | (removedLinks, links) =>
      if dyingProcess = i.1 then (i.2 :: removedLinks, links)
      else if dyingProcess = i.2 then (i.1 :: removedLinks, links)
      else (removedLinks, i :: links)

def removeLinksFrom (dyingProcess : EPid) (k : Linker) : List EPid × Linker :=
  ((removeFrom dyingProcess k.establishedLinks).1,
    ⟨(removeFrom dyingProcess k.establishedLinks).2⟩)

/-! ### What the loop removes -/

/-- The pid is an end of the link. -/
def Mentions (p : EPid) (i : Link) : Prop := p = i.1 ∨ p = i.2

instance (p : EPid) (i : Link) : Decidable (Mentions p i) :=
  inferInstanceAs (Decidable (p = i.1 ∨ p = i.2))

/-- The end of a link that is not the given one. -/
def otherEnd (p : EPid) (i : Link) : EPid := if p = i.1 then i.2 else i.1

theorem removeFrom_eq (p : EPid) (links : List Link) :
    removeFrom p links = ((links.filter (Mentions p)).map (otherEnd p),
      links.filter fun i => ¬ Mentions p i) := by
  induction links with
  | nil => rfl
  | cons i links ih =>
    rw [removeFrom, ih]
    dsimp only
    by_cases h₁ : p = i.1
    · have hm : Mentions p i := .inl h₁
      rw [if_pos h₁, List.filter_cons_of_pos (by simpa using hm),
        List.filter_cons_of_neg (by simpa using hm), List.map_cons, otherEnd, if_pos h₁]
    rw [if_neg h₁]
    by_cases h₂ : p = i.2
    · have hm : Mentions p i := .inr h₂
      rw [if_pos h₂, List.filter_cons_of_pos (by simpa using hm),
        List.filter_cons_of_neg (by simpa using hm), List.map_cons, otherEnd, if_neg h₁]
    · have hm : ¬ Mentions p i := fun h => h.elim h₁ h₂
      rw [if_neg h₂, List.filter_cons_of_neg (by simpa using hm),
        List.filter_cons_of_pos (by simpa using hm)]

/-- The pids linked to a process, in the order the links were made. -/
def linkedPids (p : EPid) (k : Linker) : List EPid := (k.removeLinksFrom p).1

theorem linkedPids_eq (p : EPid) (k : Linker) :
    k.linkedPids p = (k.establishedLinks.filter (Mentions p)).map (otherEnd p) := by
  rw [linkedPids, removeLinksFrom, removeFrom_eq]

theorem removeLinksFrom_snd (p : EPid) (k : Linker) :
    (k.removeLinksFrom p).2.establishedLinks =
      k.establishedLinks.filter fun i => ¬ Mentions p i := by
  rw [removeLinksFrom, removeFrom_eq]

theorem mem_linkedPids {p q : EPid} {k : Linker} :
    q ∈ k.linkedPids p ↔ (p, q) ∈ k.establishedLinks ∨ (q, p) ∈ k.establishedLinks := by
  rw [linkedPids_eq, List.mem_map]
  constructor
  · rintro ⟨⟨a, b⟩, hi, rfl⟩
    obtain ⟨hi, hp⟩ := List.mem_filter.mp hi
    have hp : p = a ∨ p = b := of_decide_eq_true hp
    by_cases ha : p = a
    · subst ha
      exact .inl (by simpa [otherEnd] using hi)
    · obtain rfl := hp.resolve_left ha
      exact .inr (by simpa [otherEnd, ha] using hi)
  · rintro (h | h)
    · refine ⟨(p, q), List.mem_filter.mpr ⟨h, by simp [Mentions]⟩, by simp [otherEnd]⟩
    · refine ⟨(q, p), List.mem_filter.mpr ⟨h, by simp [Mentions]⟩, ?_⟩
      by_cases hpq : p = q
      · simp [otherEnd, hpq]
      · simp [otherEnd, hpq]

theorem not_mentions_removeLinksFrom {p : EPid} {k : Linker} {i : Link}
    (hi : i ∈ (k.removeLinksFrom p).2.establishedLinks) : ¬ Mentions p i := by
  rw [removeLinksFrom_snd] at hi
  simpa using (List.mem_filter.mp hi).2

/-- Where no link mentions the one pid, there is nothing to unlink. -/
theorem unlink_of_not_mentions {p : EPid} {k : Linker}
    (h : ∀ i ∈ k.establishedLinks, ¬ Mentions p i) (q : EPid) : k.unlink p q = k := by
  have hne : ∀ i ∈ k.establishedLinks, i ≠ (q, p) ∧ i ≠ (p, q) := by
    refine fun i hi => ⟨?_, ?_⟩
    · rintro rfl
      exact h _ hi (.inr rfl)
    · rintro rfl
      exact h _ hi (.inl rfl)
  rcases k with ⟨links⟩
  simp only [unlink, removeLinkBetween, Linker.mk.injEq, List.filter_filter]
  exact List.filter_eq_self.mpr fun i hi => by simpa using hne i hi

/-! ### No pair is there twice -/

/-- Links between the same two pids. -/
def SamePair (i j : Link) : Prop := i = j ∨ i = j.swap

instance (i j : Link) : Decidable (SamePair i j) :=
  inferInstanceAs (Decidable (i = j ∨ i = j.swap))

theorem samePair_swap {i j : Link} : SamePair i.swap j ↔ SamePair i j := by
  rw [SamePair, SamePair, Prod.swap_inj, or_comm]
  exact or_congr_right Prod.swap_eq_iff_eq_swap

/-- No two entries of the list link the same two pids. -/
def Distinct (k : Linker) : Prop := k.establishedLinks.Pairwise fun i j => ¬ SamePair i j

theorem distinct_create : create.Distinct := List.Pairwise.nil

theorem Distinct.removeLinkBetween {k : Linker} (h : k.Distinct) (p q : EPid) :
    (k.removeLinkBetween p q).Distinct :=
  (h.filter _).filter _

theorem Distinct.unlink {k : Linker} (h : k.Distinct) (p q : EPid) : (k.unlink p q).Distinct :=
  h.removeLinkBetween p q

theorem Distinct.link {k : Linker} (h : k.Distinct) (p q : EPid) : (k.link p q).Distinct := by
  refine List.pairwise_append.mpr ⟨h.removeLinkBetween p q, List.pairwise_singleton _ _, ?_⟩
  intro i hi j hj
  obtain rfl : j = (p, q) := by simpa using hj
  -- both directions have been taken out
  obtain ⟨hi, hqp⟩ := List.mem_filter.mp hi
  have hpq := (List.mem_filter.mp hi).2
  rintro (rfl | rfl)
  · simp at hpq
  · simp at hqp

theorem Distinct.removeLinksFrom {k : Linker} (h : k.Distinct) (p : EPid) :
    (k.removeLinksFrom p).2.Distinct := by
  rw [Distinct, removeLinksFrom_snd]
  exact h.filter _

/-- Links with a common end and the same other end are links of the same pair. -/
theorem samePair_of_otherEnd_eq {p : EPid} {i j : Link} (hi : Mentions p i) (hj : Mentions p j)
    (h : otherEnd p i = otherEnd p j) : SamePair i j := by
  obtain ⟨a, b⟩ := i
  obtain ⟨c, d⟩ := j
  by_cases ha : p = a
  · by_cases hc : p = c
    · exact .inl (by simp_all [otherEnd])
    · have hd : p = d := hj.resolve_left hc
      exact .inr (by simp_all [otherEnd])
  · have hb : p = b := hi.resolve_left ha
    by_cases hc : p = c
    · exact .inr (by simp_all [otherEnd])
    · have hd : p = d := hj.resolve_left hc
      exact .inl (by simp_all [otherEnd])

/-- **Each linked pid is handed out once.** -/
theorem linkedPids_nodup {k : Linker} (h : k.Distinct) (p : EPid) : (k.linkedPids p).Nodup := by
  rw [linkedPids_eq, List.Nodup, List.pairwise_map]
  refine (h.filter _).imp_of_mem fun {i j} hi hj hij heq => hij ?_
  exact samePair_of_otherEnd_eq (of_decide_eq_true (List.mem_filter.mp hi).2)
    (of_decide_eq_true (List.mem_filter.mp hj).2) heq

/-! ### Which pids are linked -/

/-- There is a link between the two pids. -/
def Linked (p q : EPid) (k : Linker) : Prop :=
  (p, q) ∈ k.establishedLinks ∨ (q, p) ∈ k.establishedLinks

instance (p q : EPid) (k : Linker) : Decidable (k.Linked p q) :=
  inferInstanceAs (Decidable (_ ∨ _))

variable {p q x y : EPid} {k : Linker}

theorem Linked.symm (h : k.Linked p q) : k.Linked q p := Or.symm h

theorem linked_comm : k.Linked p q ↔ k.Linked q p := ⟨Linked.symm, Linked.symm⟩

theorem not_linked_create : ¬ create.Linked p q := by
  rintro (h | h) <;> cases h

theorem linked_iff_mem_linkedPids : k.Linked p q ↔ q ∈ k.linkedPids p := mem_linkedPids.symm

theorem mem_removeLinkBetween {i : Link} : i ∈ (k.removeLinkBetween p q).establishedLinks ↔
    i ∈ k.establishedLinks ∧ i ≠ (p, q) ∧ i ≠ (q, p) := by
  rw [removeLinkBetween, List.mem_filter, List.mem_filter, decide_eq_true_iff, decide_eq_true_iff,
    and_assoc]

theorem linked_unlink :
    (k.unlink p q).Linked x y ↔ k.Linked x y ∧ ¬ SamePair (x, y) (p, q) := by
  rw [Linked, unlink, mem_removeLinkBetween, mem_removeLinkBetween, SamePair, Linked]
  simp only [ne_eq, Prod.swap_prod_mk, Prod.mk.injEq]
  grind

theorem linked_link : (k.link p q).Linked x y ↔ SamePair (x, y) (p, q) ∨ k.Linked x y := by
  rw [Linked, link, establishLinkBetween, List.mem_append, List.mem_append, mem_removeLinkBetween,
    mem_removeLinkBetween, SamePair, Linked]
  simp only [List.mem_singleton, ne_eq, Prod.swap_prod_mk, Prod.mk.injEq]
  grind

theorem linked_removeLinksFrom :
    (k.removeLinksFrom p).2.Linked x y ↔ k.Linked x y ∧ x ≠ p ∧ y ≠ p := by
  rw [Linked, removeLinksFrom_snd, List.mem_filter, List.mem_filter, decide_eq_true_iff,
    decide_eq_true_iff, Linked]
  simp only [Mentions]
  grind

end Linker

end TinchPp
