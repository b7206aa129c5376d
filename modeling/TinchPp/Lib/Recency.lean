import Mathlib.Data.List.Basic
import Mathlib.Data.List.Infix

/-!
# The order of last touches

A history of events, some of which touch some items. An item that has been touched twice counts
from its last touch on. A list that moves an item to its end whenever the item is touched, and
otherwise only loses items, is at any time in the order of last touches.

## Main results

* `Recency.InOrder.sublist`, `Recency.InOrder.touch` — what the next event may do to such a list
-/

namespace TinchPp

namespace Recency

variable {ε ζ : Type} {touches : ε → ζ → Prop} {history : List ε} {e : ε} {z w : ζ} {l l' : List ζ}

/-- An event of the history touches the item. -/
def Touched (touches : ε → ζ → Prop) (history : List ε) (z : ζ) : Prop :=
  ∃ e ∈ history, touches e z

/-- Both have been touched, and the second once more since the last touch of the first. -/
def Before (touches : ε → ζ → Prop) (history : List ε) (z w : ζ) : Prop :=
  Touched touches history z ∧
    ∃ recent, recent <:+ history ∧ Touched touches recent w ∧ ∀ e ∈ recent, ¬ touches e z

/-- The items have all been touched, and are listed in the order of their last touches. -/
structure InOrder (touches : ε → ζ → Prop) (history : List ε) (l : List ζ) : Prop where
  touched : ∀ z ∈ l, Touched touches history z
  ordered : l.Pairwise (Before touches history)

theorem Touched.append (h : Touched touches history z) (rest : List ε) :
    Touched touches (history ++ rest) z := by
  obtain ⟨e, he, ht⟩ := h
  exact ⟨e, List.mem_append_left _ he, ht⟩

theorem touched_append_self (history : List ε) (h : touches e z) :
    Touched touches (history ++ [e]) z :=
  ⟨e, by simp, h⟩

/-- An event that does not touch the first item leaves the order as it is. -/
theorem Before.append (h : Before touches history z w) (he : ¬ touches e z) :
    Before touches (history ++ [e]) z w := by
  obtain ⟨hz, recent, ⟨early, hearly⟩, hw, hnot⟩ := h
  refine ⟨hz.append [e], recent ++ [e], ⟨early, ?_⟩, hw.append [e], fun e' he' => ?_⟩
  · rw [← List.append_assoc, hearly]
  · rcases List.mem_append.mp he' with he' | he'
    · exact hnot e' he'
    · rwa [List.mem_singleton.mp he']

/-- An event that touches the second item makes it the last one. -/
theorem before_of_touch (hz : Touched touches history z) (he : ¬ touches e z)
    (hw : touches e w) : Before touches (history ++ [e]) z w := by
  refine ⟨hz.append [e], [e], List.suffix_append history [e], ⟨e, by simp, hw⟩, fun e' he' => ?_⟩
  rwa [List.mem_singleton.mp he']

theorem inOrder_nil : InOrder touches history [] :=
  ⟨fun _ hz => absurd hz List.not_mem_nil, List.Pairwise.nil⟩

/-- **Losing items** that the next event does not touch. -/
theorem InOrder.sublist (h : InOrder touches history l) (hl : l'.Sublist l)
    (he : ∀ z ∈ l', ¬ touches e z) : InOrder touches (history ++ [e]) l' where
  touched z hz := (h.touched z (hl.subset hz)).append [e]
  ordered := (h.ordered.sublist hl).imp_of_mem fun hz _ hzw => hzw.append (he _ hz)

/-- **Moving an item to the end** with an event that touches it and no other item of the list. -/
theorem InOrder.touch (h : InOrder touches history l) (hl : l'.Sublist l) (hz : touches e z)
    (he : ∀ w ∈ l', ¬ touches e w) : InOrder touches (history ++ [e]) (l' ++ [z]) where
  touched w hw := by
    rcases List.mem_append.mp hw with hw | hw
    · exact (h.touched w (hl.subset hw)).append [e]
    · obtain rfl := List.mem_singleton.mp hw
      exact touched_append_self history hz
  ordered := by
    refine List.pairwise_append.mpr ⟨(h.sublist hl he).ordered, List.pairwise_singleton _ _, ?_⟩
    intro w hw z' hz'
    obtain rfl := List.mem_singleton.mp hz'
    exact before_of_touch (h.touched w (hl.subset hw)) (he w hw) hz

end Recency

end TinchPp
