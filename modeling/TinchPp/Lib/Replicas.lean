import Mathlib.Data.Bool.Basic
import Mathlib.Logic.Function.Basic

/-!
# A register in two replicas

Two parties, `true` and `false`, each have a copy of a value. A party that changes the value changes
its own copy and tells the other one, over a channel that keeps the order of the messages; what
arrives overwrites what is there. Nobody asks the other, so the changes of the two can cross, and
nobody knows whether what is said is heard.

What matters is `settled`, the copy of a party once everything in flight to it has arrived. It is
the last word of the other party if one is in flight. Deliveries do not change it, so the replicas
agree when nothing is in flight any more exactly if they are in step.

## Main results

* `Replicas.settled_deliver` — what is settled stays settled
* `Replicas.inStep_write_iff` — the changes that keep the replicas in step
* `Replicas.value_of_quiet` — when nothing is in flight, the copies are what is settled
-/

/-- The copies, and the words that each of the parties has sent and that have not arrived, the
oldest first. -/
structure Replicas (V : Type*) where
  value : Bool → V
  inFlight : Bool → List V

namespace Replicas

variable {V : Type*} {r : Replicas V} {i : Bool} {v : V}

/-- The copy of `i` when everything in flight to it has arrived. -/
def settled (r : Replicas V) (i : Bool) : V := (r.inFlight (!i)).getLast?.getD (r.value i)

/-- The replicas will agree. -/
def InStep (r : Replicas V) : Prop := r.settled true = r.settled false

/-- `i` changes the value, and tells the other one, which hears it or does not. -/
def write (heard : Bool) (i : Bool) (v : V) (r : Replicas V) : Replicas V where
  value := Function.update r.value i v
  inFlight := if heard then Function.update r.inFlight i (r.inFlight i ++ [v]) else r.inFlight

/-- The oldest word of `i` arrives. -/
def deliver (i : Bool) (r : Replicas V) : Replicas V :=
  match r.inFlight i with
  | [] => r
  | v :: rest =>
    { value := Function.update r.value (!i) v
      inFlight := Function.update r.inFlight i rest }

/-! ### What is settled -/

theorem settled_congr {r' : Replicas V} (hvalue : r'.value i = r.value i)
    (hinFlight : r'.inFlight (!i) = r.inFlight (!i)) : r'.settled i = r.settled i := by
  rw [settled, settled, hvalue, hinFlight]

theorem settled_of_last (h : (r.inFlight (!i)).getLast? = some v) : r.settled i = v := by
  rw [settled, h, Option.getD_some]

/-- The party that has changed the value sees the last word that is in flight to it. -/
theorem settled_write_self (heard : Bool) :
    (r.write heard i v).settled i = (r.inFlight (!i)).getLast?.getD v := by
  rw [settled, write]
  dsimp only
  rw [Function.update_self]
  split
  · rw [Function.update_of_ne (Bool.not_ne_self i)]
  · rfl

/-- The other one sees the change if it hears of it. -/
theorem settled_write_not (heard : Bool) :
    (r.write heard i v).settled (!i) = if heard then v else r.settled (!i) := by
  cases heard with
  | true =>
    rw [if_pos rfl]
    refine settled_of_last ?_
    rw [Bool.not_not, write]
    dsimp only
    rw [if_pos rfl, Function.update_self, List.getLast?_concat]
  | false =>
    refine settled_congr ?_ rfl
    exact Function.update_of_ne (Bool.not_ne_self i) _ _

/-- **What is settled stays settled.** -/
theorem settled_deliver (j : Bool) : (r.deliver i).settled j = r.settled j := by
  rw [deliver]
  split
  · rfl
  · next w rest hflight =>
    by_cases hj : j = i
    · subst hj
      refine settled_congr ?_ ?_
      · exact Function.update_of_ne (Bool.not_ne_self j).symm _ _
      · exact Function.update_of_ne (Bool.not_ne_self j) _ _
    · obtain rfl : j = !i := Bool.eq_not_of_ne hj
      rw [settled, settled, Bool.not_not, hflight]
      dsimp only
      rw [Function.update_self, Function.update_self, List.getLast?_cons, Option.getD_some]

theorem inStep_iff (i : Bool) : r.InStep ↔ r.settled i = r.settled (!i) := by
  cases i
  · exact eq_comm
  · exact Iff.rfl

/-- **When a change keeps the replicas in step.** -/
theorem inStep_write_iff (heard : Bool) : (r.write heard i v).InStep ↔
    (r.inFlight (!i)).getLast?.getD v = if heard then v else r.settled (!i) := by
  rw [inStep_iff i, settled_write_self, settled_write_not]

/-- **When nothing is in flight**, the copies are what is settled. -/
theorem value_of_quiet (h : r.inFlight (!i) = []) : r.settled i = r.value i := by
  rw [settled, h]
  rfl

end Replicas
