import Mathlib.Logic.Function.Basic
import TinchPp.Values

/-!
# Reading back what has been written

Every kind of term can be written from a value and read into a variable, and so can tuples and lists
of them, nested to any depth. A `Value` is what such a pattern is made from, a `VarPattern` a
pattern made from pointers, and `SameShape` says that the one is made like the other. The variables
of a pattern are cells of memory, which are fresh if they are as their default constructors have
made them.

`Reads` says that a pattern with fresh variables of its own takes the bytes of the value, whatever
follows them, leaves exactly the value in its variables and does not touch anything else. The proof
goes along the shape: the leaves are the round trips of the grammars, and what has elements is read
element by element, with the elements that have been read left alone by the ones that follow.

## Main results

* `SameShape.reads` — the induction
* `decode_encode` — serialized and matched, a value is what the variables of the pattern are bound
  to
-/

namespace TinchPp

/-! ### Variables -/

/-- The memory of one variable, whatever its type. -/
structure Cell where
  int : Int32
  str : Str
  pid : EPid
  ref : NewReferenceType
  binary : BinaryValueType
  ints : List Int32
  strs : List Str
  pids : List EPid
  refs : List NewReferenceType

/-- As the default constructors make a variable. An `int` is not initialized. -/
structure Cell.Fresh (c : Cell) : Prop where
  str : c.str = []
  pid : c.pid = .invalid
  ref : c.ref = .invalid
  binary : c.binary = .empty
  ints : c.ints = []
  strs : c.strs = []
  pids : c.pids = []
  refs : c.refs = []

/-- A variable that has just been made. -/
def Cell.new : Cell := ⟨0, [], .invalid, .invalid, .empty, [], [], [], []⟩

theorem Cell.fresh_new : Cell.new.Fresh := ⟨rfl, rfl, rfl, rfl, rfl, rfl, rfl, rfl⟩

/-- The variables of a pattern, by their addresses. -/
abbrev Heap := ℕ → Cell

/-- A pointer to a variable of one of the types. -/
def Heap.pointer {α : Type} (get : Cell → α) (set : α → Cell → Cell)
    (get_set : ∀ a c, get (set a c) = a) (x : ℕ) : Pointer Heap α where
  get h := get (h x)
  set a h := Function.update h x (set a (h x))
  get_set a h := by rw [Function.update_self, get_set]

/-- A pointer to a variable, given by its address. -/
inductive Variable
  | int (x : ℕ)
  | atom (x : ℕ)
  | string (x : ℕ)
  | pid (x : ℕ)
  | ref (x : ℕ)
  | binary (x : ℕ)
  | intList (x : ℕ)
  | atomList (x : ℕ)
  | pidList (x : ℕ)
  | refList (x : ℕ)

namespace Variable

open Heap

/-- The object that is made from the pointer. -/
def toObject : Variable → Object Heap
  | int x => (IntObject.ofPointer (pointer Cell.int (fun n c => { c with int := n })
      (fun _ _ => rfl) x)).toObject
  | atom x => Atom.ofPointer (pointer Cell.str (fun s c => { c with str := s }) (fun _ _ => rfl) x)
  | string x =>
    EString.ofPointer (pointer Cell.str (fun s c => { c with str := s }) (fun _ _ => rfl) x)
  | pid x => Pid.ofPointer (pointer Cell.pid (fun p c => { c with pid := p }) (fun _ _ => rfl) x)
  | ref x => Ref.ofPointer (pointer Cell.ref (fun r c => { c with ref := r }) (fun _ _ => rfl) x)
  | binary x =>
    Binary.ofPointer (pointer Cell.binary (fun b c => { c with binary := b }) (fun _ _ => rfl) x)
  | intList x =>
    IntList.ofPointer (pointer Cell.ints (fun ns c => { c with ints := ns }) (fun _ _ => rfl) x)
  | atomList x => ErlList.ofPointer atomExt []
      (pointer Cell.strs (fun ss c => { c with strs := ss }) (fun _ _ => rfl) x)
  | pidList x => ErlList.ofPointer pidExt .invalid
      (pointer Cell.pids (fun ps c => { c with pids := ps }) (fun _ _ => rfl) x)
  | refList x => ErlList.ofPointer newReferenceExtP .invalid
      (pointer Cell.refs (fun rs c => { c with refs := rs }) (fun _ _ => rfl) x)

def address : Variable → ℕ
  | int x | atom x | string x | pid x | ref x | binary x
  | intList x | atomList x | pidList x | refList x => x

/-- The variable is of the type of the value. -/
inductive SameType : Variable → LeafValue → Prop
  | int (x : ℕ) (n : Int32) : SameType (.int x) (.int n)
  | atom (x : ℕ) (name : Str) : SameType (.atom x) (.atom name)
  | string (x : ℕ) (str : Str) : SameType (.string x) (.string str)
  | pid (x : ℕ) (p : EPid) : SameType (.pid x) (.pid p)
  | ref (x : ℕ) (r : NewReferenceType) : SameType (.ref x) (.ref r)
  | binary (x : ℕ) (b : BinaryValueType) : SameType (.binary x) (.binary b)
  | intList (x : ℕ) (ns : List Int32) : SameType (.intList x) (.intList ns)
  | atomList (x : ℕ) (names : List Str) : SameType (.atomList x) (.atomList names)
  | pidList (x : ℕ) (ps : List EPid) : SameType (.pidList x) (.pidList ps)
  | refList (x : ℕ) (rs : List NewReferenceType) : SameType (.refList x) (.refList rs)

/-- The variable, of the type that its pointer has, is exactly the value. -/
def Holds (h : Heap) : Variable → LeafValue → Prop
  | int x, .int n => (h x).int = n
  | atom x, .atom name => (h x).str = name
  | string x, .string str => (h x).str = str
  | pid x, .pid p => (h x).pid = p
  | ref x, .ref r => (h x).ref = r
  | binary x, .binary b => (h x).binary = b
  | intList x, .intList ns => (h x).ints = ns
  | atomList x, .atomList names => (h x).strs = names
  | pidList x, .pidList ps => (h x).pids = ps
  | refList x, .refList rs => (h x).refs = rs
  | _, _ => False

end Variable

/-- A pattern of variables. -/
abbrev VarPattern := Nested Compound Variable

namespace VarPattern

/-- The object that is made from the pointers. -/
def toObject (p : VarPattern) : Object Heap := p.fold Variable.toObject Compound.toObject

/-- The addresses of the variables. -/
def addresses (p : VarPattern) : List ℕ :=
  p.fold (fun x => [x.address]) fun _ xs => xs.flatten

/-- The variables of the pattern hold exactly the value. -/
def Holds (p : VarPattern) (v : Value) (h : Heap) : Prop := p.Forall₂ (Variable.Holds h) v

theorem addresses_node (k : Compound) (ps : List VarPattern) :
    addresses (.node k ps) = (ps.map addresses).flatten :=
  Nested.fold_node _ _ k ps

theorem toObject_node (k : Compound) (ps : List VarPattern) :
    toObject (.node k ps) = k.toObject (ps.map toObject) :=
  Nested.fold_node _ _ k ps

end VarPattern

/-- The pattern is made like the value. -/
abbrev SameShape : VarPattern → Value → Prop := Nested.Forall₂ Variable.SameType

/-! ### One variable -/

/-- Only the variables at these addresses have changed. -/
def OnlyAt (xs : List ℕ) (h h' : Heap) : Prop := ∀ x ∉ xs, h' x = h x

theorem OnlyAt.trans {xs ys : List ℕ} {h h' h'' : Heap} (h₁ : OnlyAt xs h h')
    (h₂ : OnlyAt ys h' h'') : OnlyAt (xs ++ ys) h h'' := by
  intro x hx
  rw [List.mem_append, not_or] at hx
  rw [h₂ x hx.2, h₁ x hx.1]

theorem onlyAt_update (x : ℕ) (c : Cell) (h : Heap) : OnlyAt [x] h (Function.update h x c) :=
  fun _ hy => Function.update_of_ne (by simpa using hy) _ _

/-- What a pattern holds is in its own variables. -/
theorem Variable.Holds.congr {x : Variable} {a : LeafValue} {h h' : Heap}
    (hx : h' x.address = h x.address) (hholds : x.Holds h a) : x.Holds h' a := by
  cases x <;> cases a <;> try exact hholds.elim
  all_goals
    rw [Variable.Holds] at hholds ⊢
    rw [← hholds]
    exact congrArg _ hx

/-- A list of terms, read into a variable that is empty. -/
theorem ErlList.reads_ofPointer {α σ : Type} {p : Wire.Qi α} {toAssign : α} {make : α → Object Unit}
    {xs : List α} (hread : ∀ x ∈ xs, ∀ s, p ((make x).serialize ++ s) toAssign = (some s, x))
    (hlen : xs.length < 4294967296) {contained : Pointer σ (List α)} {v : σ}
    (hv : contained.get v = []) :
    (ErlList.ofPointer p toAssign contained).Reads (ErlList.serialize (xs.map make)) v
      (contained.set xs v) := by
  refine reads_assignThrough (fun s => ?_) _
  have hlist := ListMatcher.assignList_of_reads hread hlen s []
  rw [hv, serialize, List.length_map, List.map_map]
  exact hlist

theorem IntList.reads_ofPointer {σ : Type} {ns : List Int32} (hlen : ns.length < 4294967296)
    {contained : Pointer σ (List Int32)} {v : σ} (hv : contained.get v = []) :
    (IntList.ofPointer contained).Reads
      (ErlList.serialize (ns.map fun n => (IntObject.ofValue n : IntObject Unit).toObject)) v
      (contained.set ns v) := by
  have hread : ∀ n ∈ ns, ∀ s, integer
      ((IntObject.ofValue n : IntObject Unit).serialize ++ s) 0 = (some s, n) :=
    fun n _ s => integer_serialize n s 0
  intro s
  have hunpacked : (ofPointer contained).matchFn
      (ErlList.serialize (ns.map fun n => (IntObject.ofValue n : IntObject Unit).toObject) ++ s) v =
      (ErlList.ofPointer integer 0 contained).matchFn
        (ErlList.serialize (ns.map fun n => (IntObject.ofValue n : IntObject Unit).toObject) ++ s) v
    := dispatchOnTag_list (assignThrough StringMatcher.assignList contained) _ _ v
  rw [hunpacked]
  exact ErlList.reads_ofPointer hread hlen hv s

/-- **A variable of its type reads what a value writes**, and other variables are left alone. -/
theorem Variable.SameType.reads {x : Variable} {a : LeafValue} (hsame : x.SameType a)
    (ha : a.InWireRange) {h : Heap} (hfresh : (h x.address).Fresh) :
    ∃ h', x.toObject.Reads (a.toObject : Object Unit).serialize h h' ∧ x.Holds h' a ∧
      OnlyAt [x.address] h h' := by
  cases hsame with
  | int x n =>
    exact ⟨_, reads_assignMatched (fun s => integer_serialize n s _) _,
      by simp [Holds, Heap.pointer], onlyAt_update x _ h⟩
  | atom x name =>
    exact ⟨_, Atom.reads_ofPointer ha hfresh.str, by simp [Holds, Heap.pointer],
      onlyAt_update x _ h⟩
  | string x str =>
    exact ⟨_, EString.reads_ofPointer ha hfresh.str, by simp [Holds, Heap.pointer],
      onlyAt_update x _ h⟩
  | pid x p =>
    exact ⟨_, Pid.reads_ofPointer ha hfresh.pid, by simp [Holds, Heap.pointer],
      onlyAt_update x _ h⟩
  | ref x r =>
    exact ⟨_, Ref.reads_ofPointer ha hfresh.ref, by simp [Holds, Heap.pointer],
      onlyAt_update x _ h⟩
  | binary x b =>
    exact ⟨_, Binary.reads_ofPointer ha.2 ha.1.padding hfresh.binary, by simp [Holds, Heap.pointer],
      onlyAt_update x _ h⟩
  | intList x ns =>
    have hget : (Heap.pointer Cell.ints (fun ns c => { c with ints := ns })
        (fun _ _ => rfl) x).get h = [] := hfresh.ints
    have hreads := IntList.reads_ofPointer ha hget
    refine ⟨_, ?_, ?_, onlyAt_update x { h x with ints := ns } h⟩
    · simp only [toObject, LeafValue.toObject, IntList.ofValue, List.map_map]
      exact hreads
    · simp [Holds]
  | atomList x names =>
    exact ⟨_, ErlList.reads_ofPointer (fun name hname s => atomExt_atomExtG (ha.2 name hname) s [])
      ha.1 hfresh.strs, by simp [Holds, Heap.pointer], onlyAt_update x _ h⟩
  | pidList x ps =>
    exact ⟨_, ErlList.reads_ofPointer (fun p hp s => pidExt_pidExtG (ha.2 p hp) s) ha.1
      hfresh.pids, by simp [Holds, Heap.pointer], onlyAt_update x _ h⟩
  | refList x rs =>
    exact ⟨_, ErlList.reads_ofPointer
      (fun r hr s => newReferenceExtP_newReferenceExtG (ha.2 r hr) s) ha.1 hfresh.refs,
      by simp [Holds, Heap.pointer], onlyAt_update x _ h⟩

/-! ### Patterns -/

/-- A list is read like a tuple, and then its nil. -/
theorem ReadsAll.list {σ : Type} {objs : List (Object σ)} {encs : List MsgSeq} {v v' : σ}
    (h : ReadsAll objs encs v v') (hlen : encs.length < 4294967296) :
    (ErlList.ofValue objs).Reads (listHeadG encs.length ++ encs.flatten ++ nilExtG) v v' := by
  intro s
  have hhead := listHeadExt_listHeadG hlen (encs.flatten ++ (nilExtG ++ s)) 0
  have hnil : binaryToTerm nilExt (nilExtG ++ s) () = (true, s, ()) :=
    binaryToTerm_of_some (Wire.lit_cons_self _ _ _)
  simp only [ErlList.ofValue, ListMatcher.matchFn, List.append_assoc, binaryToTerm_of_some hhead,
    h.length_eq, decide_true, Bool.true_and, if_true, h.matchAll, hnil]

/-- What has elements is read element by element. -/
theorem ReadsAll.compound {σ : Type} {objs : List (Object σ)} {encs : List MsgSeq} {v v' : σ}
    (h : ReadsAll objs encs v v') (k : Compound) (hlen : k.Fits encs.length) :
    (k.toObject objs).Reads (k.head encs.length ++ encs.flatten ++ k.tail) v v' := by
  cases k with
  | tuple =>
    rw [Compound.tail, List.append_nil]
    exact h.tuple hlen
  | list => exact h.list hlen

/-- What a pattern holds is in its own variables. -/
theorem VarPattern.Holds.congr {p : VarPattern} {v : Value} {h h' : Heap} (hholds : p.Holds v h)
    (hx : ∀ x ∈ p.addresses, h' x = h x) : p.Holds v h' := by
  revert hx
  refine Nested.Forall₂.induction ?leaf ?node hholds
  case leaf =>
    intro x a hholds hx
    exact .leaf (hholds.congr (hx x.address (List.mem_singleton_self _)))
  case node =>
    intro k ps vs ih hx
    rw [addresses_node] at hx
    have hown : ∀ p ∈ ps, ∀ x ∈ addresses p, h' x = h x := fun p hp x hmem =>
      hx x (List.mem_flatten_of_mem (List.mem_map_of_mem hp) hmem)
    exact .node (((List.forall₂_and_left ps vs).mpr ⟨hown, ih⟩).imp fun p v hpv => hpv.2 hpv.1)

/-- With fresh variables of its own, the pattern reads what the value writes, and leaves the
variables of others alone. -/
def VarPattern.ReadsBack (p : VarPattern) (v : Value) : Prop :=
  v.InWireRange → p.addresses.Nodup → ∀ h : Heap, (∀ x ∈ p.addresses, (h x).Fresh) →
    ∃ h', p.toObject.Reads v.serialize h h' ∧ p.Holds v h' ∧ OnlyAt p.addresses h h'

/-- Element by element: what an element has been read into stays as it is while the following ones
are read. -/
theorem VarPattern.readsAll {ps : List VarPattern} {vs : List Value}
    (hall : List.Forall₂ ReadsBack ps vs) :
    (∀ v ∈ vs, v.InWireRange) → (ps.map addresses).flatten.Nodup →
      ∀ h : Heap, (∀ x ∈ (ps.map addresses).flatten, (h x).Fresh) →
        ∃ h', ReadsAll (ps.map toObject) (vs.map Value.serialize) h h' ∧
          List.Forall₂ (fun p v => Holds p v h') ps vs ∧
          OnlyAt (ps.map addresses).flatten h h' := by
  induction hall with
  | nil => exact fun _ _ h _ => ⟨h, .nil, .nil, fun _ _ => rfl⟩
  | @cons p v ps vs hread _ ih =>
    intro hv hnodup h hfresh
    obtain ⟨hhead, htail⟩ := List.forall_mem_cons.mp hv
    rw [List.map_cons, List.flatten_cons] at hnodup hfresh
    obtain ⟨hnodup₁, hnodup₂, hdisjoint⟩ := List.nodup_append.mp hnodup
    obtain ⟨h₁, hreads₁, hholds₁, honly₁⟩ := hread hhead hnodup₁ h
      fun x hx => hfresh x (List.mem_append_left _ hx)
    have hfresh₂ : ∀ x ∈ (ps.map addresses).flatten, (h₁ x).Fresh := by
      intro x hx
      rw [honly₁ x fun hx' => hdisjoint x hx' x hx rfl]
      exact hfresh x (List.mem_append_right _ hx)
    obtain ⟨h₂, hreads₂, hholds₂, honly₂⟩ := ih htail hnodup₂ h₁ hfresh₂
    have hkept : p.Holds v h₂ :=
      hholds₁.congr fun x hx => honly₂ x fun hx' => hdisjoint x hx x hx' rfl
    exact ⟨h₂, .cons hreads₁ hreads₂, .cons hkept hholds₂, honly₁.trans honly₂⟩

/-- **A pattern reads what a value of its shape writes.** -/
theorem SameShape.reads {p : VarPattern} {v : Value} (hshape : SameShape p v) : p.ReadsBack v := by
  refine Nested.Forall₂.induction ?leaf ?node hshape
  case leaf =>
    intro x a hsame ha _ h hfresh
    obtain ⟨h', hreads, hholds, honly⟩ := hsame.reads ha (hfresh _ (List.mem_singleton_self _))
    exact ⟨h', hreads, .leaf hholds, honly⟩
  case node =>
    intro k ps vs ih hv hnodup h hfresh
    obtain ⟨hlen, hall⟩ := Value.inWireRange_node.mp hv
    rw [VarPattern.addresses_node] at hnodup hfresh ⊢
    obtain ⟨h', hreads, hholds, honly⟩ := VarPattern.readsAll ih hall hnodup h hfresh
    rw [← List.length_map Value.serialize] at hlen
    refine ⟨h', ?_, .node hholds, honly⟩
    rw [VarPattern.toObject_node, Value.serialize_node, ← List.length_map Value.serialize]
    exact hreads.compound k hlen

/-! ### Decode undoes encode -/

/-- **Decode undoes encode**: matched against a serialized value and whatever follows it, the
pattern of the same shape succeeds, has its variables bound to exactly that value and stops where
the value ends. -/
theorem decode_encode {p : VarPattern} {v : Value} (hshape : SameShape p v) (hv : v.InWireRange)
    (hnodup : p.addresses.Nodup) {h : Heap} (hfresh : ∀ x ∈ p.addresses, (h x).Fresh)
    (s : MsgSeq) :
    ∃ h', p.toObject.matchFn (v.serialize ++ s) h = some (true, s, h') ∧ p.Holds v h' ∧
      OnlyAt p.addresses h h' := by
  obtain ⟨h', hreads, hholds, honly⟩ := hshape.reads hv hnodup h hfresh
  exact ⟨h', hreads s, hholds, honly⟩

/-- The tuple `{7, [a]}`, with a list of pointers, followed by a byte. -/
theorem decode_encode_pair :
    ∃ h', Object.matchFn
        (VarPattern.toObject (.node .tuple [.leaf (.int 0), .node .list [.leaf (.atom 1)]]))
        (Value.serialize (.node .tuple [.leaf (.int 7), .node .list [.leaf (.atom [97])]]) ++ [1])
        (fun _ => Cell.new) = some (true, [1], h') ∧
      VarPattern.Holds (.node .tuple [.leaf (.int 0), .node .list [.leaf (.atom 1)]])
        (.node .tuple [.leaf (.int 7), .node .list [.leaf (.atom [97])]]) h' ∧
      OnlyAt [0, 1] (fun _ => Cell.new) h' := by
  have hshape : SameShape (.node .tuple [.leaf (.int 0), .node .list [.leaf (.atom 1)]])
      (.node .tuple [.leaf (.int 7), .node .list [.leaf (.atom [97])]]) :=
    .node (.cons (.leaf (.int 0 7)) (.cons (.node (.cons (.leaf (.atom 1 [97])) .nil)) .nil))
  refine decode_encode hshape ?_ (by decide) (fun _ _ => Cell.fresh_new) [1]
  simp [Value.InWireRange, Compound.Fits, LeafValue.InWireRange]

end TinchPp
