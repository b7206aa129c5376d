import TinchPp.ErlangTypes
import TinchPp.Lib.EventSystem

/-!
# Objects made from values

An atom, a pid, a reference or a binary that is made from a value keeps it in a member `val`, and
its `match_fn` is bound to this member by reference (`std::cref(val)`). When the object is copied,
into a tuple or a list or by an assignment, the `match_fn` is copied with it and goes on to refer to
the member of the object that it was made for. So a copy compares with the value of another object:
with its own value only as long as the other one lives and still has it. An integer is bound to its
value, and has no such past.

The objects of one class are numbered in the order in which they come into being. A match sees two
values of an object, the one it holds and the one it compares with, and the second may be gone.

## Main results

* `Objects.seen_of_run` — an object goes on to compare with its own value in every run that leaves
  alone the object and the one it is bound to
* `Objects.seen_of_construct`, `Objects.seen_of_copy` — what is made from a value, and copies of it
-/

namespace TinchPp

open EventSystem

variable {σ α : Type}

/-! ### Objects in memory -/

abbrev ObjectId := ℕ

/-- An object that has been made from a value, or is a copy of one: `val`, and the object whose `val`
its `match_fn` refers to. -/
structure ObjectCell (α : Type) where
  val : α
  bound : ObjectId
deriving DecidableEq, Repr

/-- What happens to objects: one is made from a value, by the copy constructor, is assigned the
object `source`, or is destroyed. -/
inductive ObjectEvent (α : Type)
  | construct (val : α)
  | copy (source : ObjectId)
  | assign (id source : ObjectId)
  | destroy (id : ObjectId)
deriving DecidableEq, Repr

/-- The event does not change the object. -/
def ObjectEvent.Spares (id : ObjectId) : ObjectEvent α → Prop
  | construct _ | copy _ => True
  | assign id' _ | destroy id' => id' ≠ id

/-- The objects of a class, with nothing in the place of those that are gone. -/
abbrev Objects (α : Type) := List (Option (ObjectCell α))

/-- What a match sees of an object: the value it holds, and the one it compares with. -/
structure ValueObject (α : Type) where
  val : α
  compared : Option α
deriving DecidableEq, Repr

namespace ValueObject

/-- The object compares with its own value. -/
def Own (x : ValueObject α) : Prop := x.compared = some x.val

instance [DecidableEq α] (x : ValueObject α) : Decidable x.Own :=
  inferInstanceAs (Decidable (x.compared = some x.val))

/-- An object that has just been made from a value. -/
def ofValue (val : α) : ValueObject α := ⟨val, some val⟩

theorem own_ofValue (val : α) : (ofValue val).Own := rfl

end ValueObject

namespace Objects

def cell (m : Objects α) (id : ObjectId) : Option (ObjectCell α) := m[id]?.join

/-- An object that is gone is not copied and not destroyed any more. -/
def step (m : Objects α) : ObjectEvent α → Option (Objects α)
  | .construct val => some (m ++ [some ⟨val, m.length⟩])
  | .copy source => (m.cell source).map fun c => m ++ [some c]
  | .assign id source =>
    match m.cell id, m.cell source with
    | some _, some c => some (m.set id (some c))
    | _, _ => none
  | .destroy id => (m.cell id).map fun _ => m.set id none

def seen (m : Objects α) (id : ObjectId) : Option (ValueObject α) :=
  (m.cell id).map fun c => ⟨c.val, (m.cell c.bound).map ObjectCell.val⟩

variable {m m' : Objects α} {id source : ObjectId} {c : ObjectCell α} {x : ValueObject α}

theorem lt_of_cell (hc : m.cell id = some c) : id < m.length := by
  by_contra hle
  rw [cell, List.getElem?_eq_none (Nat.le_of_not_lt hle)] at hc
  cases hc

theorem cell_append_of_lt (hlt : id < m.length) (new : Objects α) :
    cell (m ++ new) id = m.cell id := by
  rw [cell, List.getElem?_append_left hlt, cell]

theorem cell_append_self (c : ObjectCell α) : cell (m ++ [some c]) m.length = some c := by
  rw [cell, List.getElem?_concat_length, Option.join_some]

theorem cell_set_of_ne (hne : source ≠ id) (new : Option (ObjectCell α)) :
    cell (m.set source new) id = m.cell id := by
  rw [cell, List.getElem?_set_ne hne, cell]

/-- **What is not assigned to and not destroyed** stays as it is. -/
theorem cell_step {e : ObjectEvent α} (he : e.Spares id) (hc : m.cell id = some c)
    (hm : m.step e = some m') : m'.cell id = some c := by
  cases e with
  | construct val =>
    obtain rfl := Option.some_inj.mp hm
    rw [cell_append_of_lt (lt_of_cell hc), hc]
  | copy source =>
    obtain ⟨c', -, rfl⟩ := Option.map_eq_some_iff.mp hm
    rw [cell_append_of_lt (lt_of_cell hc), hc]
  | assign id' source =>
    rw [step] at hm
    split at hm
    · obtain rfl := Option.some_inj.mp hm
      rw [cell_set_of_ne he, hc]
    · cases hm
  | destroy id' =>
    obtain ⟨c', -, rfl⟩ := Option.map_eq_some_iff.mp hm
    rw [cell_set_of_ne he, hc]

theorem cell_of_run {es : List (ObjectEvent α)} (hes : ∀ e ∈ es, e.Spares id)
    (hc : m.cell id = some c) (hm : run step m es = some m') : m'.cell id = some c := by
  induction es generalizing m with
  | nil =>
    obtain rfl := Option.some_inj.mp hm
    exact hc
  | cons e es ih =>
    obtain ⟨m₁, hm₁, hm⟩ := Option.bind_eq_some_iff.mp hm
    rw [List.forall_mem_cons] at hes
    exact ih hes.2 (cell_step hes.1 hc hm₁) hm

/-! ### What a match sees -/

theorem seen_eq_some : m.seen id = some x ↔ ∃ c, m.cell id = some c ∧ c.val = x.val ∧
    (m.cell c.bound).map ObjectCell.val = x.compared := by
  rw [seen, Option.map_eq_some_iff]
  refine exists_congr fun c => and_congr_right fun _ => ?_
  cases x
  rw [ValueObject.mk.injEq]

/-- An object that has just been made compares with its own value. -/
theorem seen_construct {val : α} (hm : m.step (.construct val) = some m') :
    m'.seen m.length = some (.ofValue val) := by
  obtain rfl := Option.some_inj.mp hm
  have hcell := cell_append_self (m := m) ⟨val, m.length⟩
  exact seen_eq_some.mpr ⟨_, hcell, rfl, by rw [hcell]; rfl⟩

/-- A copy is seen as the object that has been copied, if this one compares with its own value. -/
theorem seen_copy (hx : m.seen source = some x) (hown : x.Own)
    (hm : m.step (.copy source) = some m') : m'.seen m.length = some x := by
  obtain ⟨c, hc, hval, hcompared⟩ := seen_eq_some.mp hx
  obtain ⟨c', hc', rfl⟩ := Option.map_eq_some_iff.mp hm
  obtain rfl := Option.some_inj.mp (hc'.symm.trans hc)
  obtain ⟨o, ho, -⟩ := Option.map_eq_some_iff.mp (hcompared.trans hown)
  refine seen_eq_some.mpr ⟨c', cell_append_self c', hval, ?_⟩
  rw [cell_append_of_lt (lt_of_cell ho), hcompared]

/-- **An object goes on to compare with its own value** in every run that neither assigns to it nor
to the object it is bound to, and destroys neither of them. -/
theorem seen_of_run {es : List (ObjectEvent α)} (hc : m.cell id = some c)
    (hx : m.seen id = some x) (hown : x.Own)
    (hes : ∀ e ∈ es, e.Spares id ∧ e.Spares c.bound) (hm : run step m es = some m') :
    m'.seen id = some x := by
  obtain ⟨c', hc', hval, hcompared⟩ := seen_eq_some.mp hx
  obtain rfl := Option.some_inj.mp (hc'.symm.trans hc)
  obtain ⟨o, ho, hoval⟩ := Option.map_eq_some_iff.mp (hcompared.trans hown)
  refine seen_eq_some.mpr ⟨c', cell_of_run (fun e he => (hes e he).1) hc' hm, hval, ?_⟩
  rw [cell_of_run (fun e he => (hes e he).2) ho hm, hown, ← hoval]
  rfl

/-- **An object that is made from a value** compares with it as long as nothing is assigned to it. -/
theorem seen_of_construct {val : α} {es : List (ObjectEvent α)}
    (hes : ∀ e ∈ es, e.Spares m.length) (hm : run step m (.construct val :: es) = some m') :
    m'.seen m.length = some (.ofValue val) := by
  obtain ⟨m₁, hm₁, hm⟩ := Option.bind_eq_some_iff.mp hm
  have hseen := seen_construct hm₁
  obtain rfl := Option.some_inj.mp hm₁
  exact seen_of_run (cell_append_self _) hseen (ValueObject.own_ofValue val)
    (fun e he => ⟨hes e he, hes e he⟩) hm

/-- **A copy** does so as long as the object that it has been copied from, or the one this has been
copied from, is left alone as well. -/
theorem seen_of_copy {es : List (ObjectEvent α)} (hc : m.cell source = some c)
    (hx : m.seen source = some x) (hown : x.Own)
    (hes : ∀ e ∈ es, e.Spares m.length ∧ e.Spares c.bound)
    (hm : run step m (.copy source :: es) = some m') : m'.seen m.length = some x := by
  obtain ⟨m₁, hm₁, hm⟩ := Option.bind_eq_some_iff.mp hm
  have hseen := seen_copy hx hown hm₁
  obtain ⟨c', hc', rfl⟩ := Option.map_eq_some_iff.mp hm₁
  obtain rfl := Option.some_inj.mp (hc'.symm.trans hc)
  exact seen_of_run (cell_append_self c') hseen hown hes hm

/-- Two atoms, a copy of the first one, and the second one assigned to the first. -/
def assignedOver : List (ObjectEvent Str) :=
  [.construct [120], .construct [121], .copy 0, .assign 0 1]

/-- A copy of an atom that is gone. -/
def copyOfTemporary : List (ObjectEvent Str) := [.construct [120], .copy 0, .destroy 0]

end Objects

/-! ### The patterns -/

/-- `match_xxx_value`, with the value that the match function refers to. Nobody knows what a
comparison does when this is gone. -/
def matchCompared [DecidableEq α] (read : MsgSeq → α → Bool × MsgSeq × α) (res : α)
    (compared : Option α) : Matcher σ := fun f v =>
  match read f res with
  | (true, f, res) => compared.map fun val => (decide (val = res), f, v)
  | (false, f, _) => some (false, f, v)

def Atom.ofObject (x : ValueObject Str) : Object σ :=
  ⟨atomExtG x.val, matchCompared (binaryToTerm atomExt) [] x.compared⟩

def Pid.ofObject (x : ValueObject EPid) : Object σ :=
  ⟨pidExtG x.val, matchCompared (binaryToTerm pidExt) .invalid x.compared⟩

def Ref.ofObject (x : ValueObject NewReferenceType) : Object σ :=
  ⟨newReferenceExtG x.val, matchCompared (binaryToTerm newReferenceExtP) .invalid x.compared⟩

def Binary.ofObject (x : ValueObject BinaryValueType) : Object σ :=
  ⟨serialize x.val, matchCompared read .empty x.compared⟩

theorem matchCompared_some [DecidableEq α] (p : Wire.Qi α) (res val : α) :
    (matchCompared (binaryToTerm p) res (some val) : Matcher σ) = matchValue p res val := by
  funext f v
  rw [matchCompared, matchValue]
  rcases binaryToTerm p f res with ⟨_ | _, rest, res'⟩
  · rfl
  · rfl

/-! An object that compares with its own value is a pattern of this value. -/

theorem Atom.ofObject_of_own {x : ValueObject Str} (hx : x.Own) :
    (Atom.ofObject x : Object σ) = Atom.ofValue x.val := by
  rw [ofObject, hx, matchCompared_some, ofValue]

theorem Pid.ofObject_of_own {x : ValueObject EPid} (hx : x.Own) :
    (Pid.ofObject x : Object σ) = Pid.ofValue x.val := by
  rw [ofObject, hx, matchCompared_some, ofValue]

theorem Ref.ofObject_of_own {x : ValueObject NewReferenceType} (hx : x.Own) :
    (Ref.ofObject x : Object σ) = Ref.ofValue x.val := by
  rw [ofObject, hx, matchCompared_some, ofValue]

theorem Binary.ofObject_of_own {x : ValueObject BinaryValueType} (hx : x.Own) :
    (Binary.ofObject x : Object σ) = Binary.ofValue x.val := by
  rw [ofObject, hx, ofValue, Object.mk.injEq]
  refine ⟨rfl, ?_⟩
  funext f v
  rw [matchCompared]
  rcases read f .empty with ⟨_ | _, rest, res⟩
  · rfl
  · exact congrArg (fun b => some (b, rest, v)) (decide_eq_decide.mpr eq_comm)

/-- A pattern that matches a value compares with this value. -/
theorem matchCompared_eq_true [DecidableEq α] {read : MsgSeq → α → Bool × MsgSeq × α} {res val : α}
    {compared : Option α} {f rest rest' : MsgSeq} {v v' : σ} (hread : read f res = (true, rest, val))
    (h : matchCompared read res compared f v = some (true, rest', v')) : compared = some val := by
  rw [matchCompared, hread] at h
  obtain ⟨val', hval, heq⟩ := Option.map_eq_some_iff.mp h
  rw [hval, of_decide_eq_true (Prod.mk.inj heq).1]

end TinchPp
