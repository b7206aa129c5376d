import TinchPp.ValueObjects
import TinchPp.Values

/-!
# Patterns made from values

A pattern that is made from a value compares: it reads a term of its own kind off the message and
succeeds if that is the very value it holds. The terms here are the ones that values can be made
of, nested to any depth, with lists in the form with a head and a nil (lists of mixed types are
lists of pointers to objects). A list of integers can be made in two ways, as a `list<int_>` and as
a list of mixed types, which write the same bytes; `plain` forgets about the difference.

The first byte of a term tells its kind, and a pattern of another kind does not get past it. So the
proof compares terms of one kind, element by element: `Compares` says that a pattern decides whether
what it is given is its own value, and stops right after it if so.

So much for patterns whose objects compare with their own values. The objects in a tuple or a list
are copies, though, and what a copy compares with is up to the object it has been copied from. A
`ValuePattern` is made of any objects.

## Main results

* `NestedValue.compares` — the induction, over two terms at once
* `ValuePattern.own_of_matches` — a pattern that matches its value has objects that compare with
  theirs
* `ValuePattern.matchesValue_of_run` — how long a list of copies goes on to match its values
* `ValuePattern.matchesValue_iff` — which patterns match their value and no other
-/

namespace TinchPp

variable {σ : Type}

/-! ### Values that are compared -/

/-- The leaves of what is compared. A list of anything but integers is one with elements, and
strings are left to the patterns that know them. -/
inductive ComparedLeaf
  | int (n : Int32)
  | atom (name : Str)
  | pid (p : EPid)
  | ref (r : NewReferenceType)
  | binary (b : BinaryValueType)
  | intList (ns : List Int32)

def ComparedLeaf.toLeaf : ComparedLeaf → LeafValue
  | int n => .int n
  | atom name => .atom name
  | pid p => .pid p
  | ref r => .ref r
  | binary b => .binary b
  | intList ns => .intList ns

/-- A term, as the values it is made from. -/
abbrev NestedValue := Nested Compound ComparedLeaf

/-- A `list<int_>` is a list like any other. -/
def ComparedLeaf.plain : ComparedLeaf → NestedValue
  | intList ns => .node .list (ns.map fun n => .leaf (.int n))
  | a => .leaf a

namespace NestedValue

def toValue (v : NestedValue) : Value := v.map ComparedLeaf.toLeaf

/-- The object that is made from the value. -/
def toObject (v : NestedValue) : Object σ := v.toValue.toObject

def serialize (v : NestedValue) : MsgSeq := v.toValue.serialize

/-- The values that fit the wire. -/
def InWireRange (v : NestedValue) : Prop := v.toValue.InWireRange

/-- The term itself, whatever it has been made from. -/
def plain (v : NestedValue) : NestedValue := v.fold ComparedLeaf.plain .node

def kind (v : NestedValue) : TermKind := v.toValue.kind

theorem toObject_node (k : Compound) (vs : List NestedValue) :
    (toObject (.node k vs) : Object σ) = k.toObject (vs.map toObject) := by
  rw [toObject, toValue, Nested.map_node, Value.toObject_node, List.map_map]
  rfl

theorem serialize_node (k : Compound) (vs : List NestedValue) : serialize (.node k vs) =
    k.head vs.length ++ (vs.map serialize).flatten ++ k.tail := by
  rw [serialize, toValue, Nested.map_node, Value.serialize_node, List.length_map, List.map_map]
  rfl

theorem inWireRange_node {k : Compound} {vs : List NestedValue} :
    InWireRange (.node k vs) ↔ k.Fits vs.length ∧ ∀ v ∈ vs, InWireRange v := by
  rw [InWireRange, toValue, Nested.map_node, Value.inWireRange_node, List.length_map,
    List.forall_mem_map]
  rfl

theorem plain_node (k : Compound) (vs : List NestedValue) :
    plain (.node k vs) = .node k (vs.map plain) :=
  Nested.fold_node _ _ k vs

/-! ### Lists of integers -/

/-- The integers, one by one. -/
def ofInts (ns : List Int32) : List NestedValue := ns.map fun n => .leaf (.int n)

theorem toObject_ofInts (ns : List Int32) : ((ofInts ns).map toObject : List (Object σ)) =
    (ns.map IntObject.ofValue).map IntObject.toObject := by
  rw [ofInts, List.map_map, List.map_map]
  rfl

/-- A `list<int_>` is written like any other list of these integers. -/
theorem serialize_intList (ns : List Int32) :
    serialize (.leaf (.intList ns)) = serialize (.node .list (ofInts ns)) := by
  have hobjects := toObject_ofInts (σ := Unit) ns
  show ErlList.serialize _ = _
  rw [← hobjects, ErlList.serialize, serialize_node, List.length_map, List.map_map]
  rfl

theorem plain_intList (ns : List Int32) :
    plain (.leaf (.intList ns)) = plain (.node .list (ofInts ns)) := by
  rw [plain_node, ofInts, List.map_map]
  rfl

/-- Whatever it has been made from, a list is one with elements. -/
theorem exists_elements {w : NestedValue} (hw : w.InWireRange) (hkind : w.kind = .list) :
    ∃ ws, InWireRange (.node .list ws) ∧ w.serialize = serialize (.node .list ws) ∧
      w.plain = plain (.node .list ws) := by
  cases w with
  | leaf a =>
    cases a with
    | intList ns =>
      refine ⟨ofInts ns, inWireRange_node.mpr ⟨?_, ?_⟩, serialize_intList ns, plain_intList ns⟩
      · rw [ofInts, List.length_map]
        exact hw
      · rw [ofInts, List.forall_mem_map]
        exact fun _ _ => trivial
    | _ => cases hkind
  | node k ws =>
    cases k with
    | tuple => cases hkind
    | list => exact ⟨ws, hw, rfl, rfl⟩

/-! ### Kinds -/

/-- The tags that a pattern of this kind goes past. -/
def patternTags : TermKind → List UInt8
  | .list => TypeTag.stringExt :: TermKind.list.tags
  | kind => kind.tags

theorem not_mem_patternTags {k : TermKind} {w : NestedValue} (hne : k ≠ w.kind) :
    ∀ tag ∈ w.kind.tags, tag ∉ patternTags k := by
  have hstring : w.kind ≠ .string := by
    cases w with
    | leaf a => cases a <;> exact TermKind.noConfusion
    | node k ws => cases k <;> exact TermKind.noConfusion
  cases k with
  | list =>
    intro tag htag hmem
    rcases List.mem_cons.mp hmem with rfl | hmem
    · exact TermKind.not_mem_tags hstring.symm _ htag List.mem_cons_self
    · exact TermKind.not_mem_tags hne tag htag hmem
  | _ => exact TermKind.not_mem_tags hne

theorem kind_plain (v : NestedValue) : v.plain.kind = v.kind := by
  cases v with
  | leaf a => cases a <;> rfl
  | node k vs =>
    rw [plain_node]
    cases k <;> rfl

/-! ### What a pattern does with other kinds -/

/-- A parser that wants another tag. -/
theorem matchValue_of_ne {α : Type} [DecidableEq α] {tag c : UInt8} (hne : c ≠ tag)
    (p : Wire.Qi α) (res val : α) (f : MsgSeq) (vars : σ) :
    matchValue (Wire.seq (Wire.lit tag) p) res val (c :: f) vars =
      some (false, c :: f, vars) := by
  simp only [matchValue, binaryToTerm, Wire.seq_of_none (Wire.lit_cons_of_ne hne f res),
    Bool.false_and]

theorem integer_of_ne {c : UInt8} (hsmall : c ≠ TypeTag.smallInteger)
    (hlarge : c ≠ TypeTag.integer) (f : MsgSeq) (a : Int32) : integer (c :: f) a = (none, a) := by
  have hfirst : smallInteger (c :: f) 0 = (none, 0) :=
    Wire.seq_of_none (Wire.lit_cons_of_ne hsmall f 0)
  rw [integer, Wire.alt_of_none (Wire.assign_of_none hfirst)]
  exact Wire.seq_of_none (Wire.lit_cons_of_ne hlarge f a)

/-- A list pattern looks for a nil, even so. -/
theorem listMatcher_of_ne {c : UInt8} (hne : c ≠ TypeTag.list) (val : List (Object σ))
    (f : MsgSeq) (vars : σ) :
    ∃ rest, ListMatcher.matchFn val (c :: f) vars = some (false, rest, vars) := by
  have hhead : listHeadExt (c :: f) 0 = (none, 0) :=
    Wire.seq_of_none (Wire.lit_cons_of_ne hne f 0)
  refine ⟨(binaryToTerm nilExt (c :: f) ()).2.1, ?_⟩
  simp only [ListMatcher.matchFn, binaryToTerm_of_none hhead, Bool.false_and,
    if_neg Bool.false_ne_true]

/-- **A pattern does not get past a tag of another kind.** -/
theorem matchFn_of_not_mem_tags (v : NestedValue) {c : UInt8} (hc : c ∉ patternTags v.kind)
    (f : MsgSeq) (vars : σ) :
    ∃ rest, (v.toObject : Object σ).matchFn (c :: f) vars = some (false, rest, vars) := by
  have hne : ∀ tag ∈ patternTags v.kind, c ≠ tag := fun tag htag heq => hc (heq ▸ htag)
  cases v with
  | leaf a =>
    cases a with
    | int n =>
      have hparse := integer_of_ne (hne TypeTag.smallInteger List.mem_cons_self)
        (hne TypeTag.integer (.tail _ List.mem_cons_self)) f 0
      refine ⟨c :: f, ?_⟩
      show matchValue integer 0 n (c :: f) vars = _
      simp only [matchValue, binaryToTerm, hparse, Bool.false_and]
    | atom => exact ⟨_, matchValue_of_ne (hne TypeTag.atomExt List.mem_cons_self) _ _ _ f vars⟩
    | pid => exact ⟨_, matchValue_of_ne (hne TypeTag.pid List.mem_cons_self) _ _ _ f vars⟩
    | ref =>
      exact ⟨_, matchValue_of_ne (hne TypeTag.newReferenceExt List.mem_cons_self) _ _ _ f vars⟩
    | binary b =>
      have hbinary := hne TypeTag.binaryExt List.mem_cons_self
      have hbits := hne TypeTag.bitBinaryExt (.tail _ List.mem_cons_self)
      have hread : Binary.read (c :: f) .empty = (false, c :: f, .empty) := by
        simp only [Binary.read, binaryToTerm, binaryExt, bitBinaryExt,
          Wire.seq_of_none (Wire.lit_cons_of_ne hbinary f _),
          Wire.seq_of_none (Wire.lit_cons_of_ne hbits f _)]
      refine ⟨c :: f, ?_⟩
      show (Binary.ofValue b).matchFn (c :: f) vars = _
      simp only [Binary.ofValue, hread, Bool.false_and]
    | intList ns =>
      have hlist := hne TypeTag.list (.tail _ List.mem_cons_self)
      obtain ⟨rest, hrest⟩ := listMatcher_of_ne (σ := σ) hlist
        ((ns.map IntObject.ofValue).map IntObject.toObject) f vars
      refine ⟨rest, ?_⟩
      show (IntList.ofValue (ns.map IntObject.ofValue)).matchFn (c :: f) vars = _
      simp only [IntList.ofValue, IntList.dispatchOnTag]
      rw [if_neg (hne TypeTag.stringExt List.mem_cons_self), hrest]
  | node k vs =>
    rw [toObject_node]
    cases k with
    | tuple =>
      have hhead : smallTupleHeadExt (c :: f) 0 = (none, 0) :=
        Wire.seq_of_none (Wire.lit_cons_of_ne (hne TypeTag.smallTuple List.mem_cons_self) f 0)
      exact ⟨c :: f, by simp [Compound.toObject, makeETuple, ETuple.matchFn, binaryToTerm, hhead]⟩
    | list => exact listMatcher_of_ne (hne TypeTag.list (.tail _ List.mem_cons_self)) _ f vars

/-! ### Comparing -/

/-- The pattern decides whether `P`, and if so it stops right behind the bytes `enc`. Its variables,
if there are any around it, are left alone. -/
def Compares (obj : Object σ) (enc : MsgSeq) (P : Prop) : Prop :=
  ∀ s vars, ∃ success rest, obj.matchFn (enc ++ s) vars = some (success, rest, vars) ∧
    (success = true ↔ P) ∧ (success = true → rest = s)

/-- And so do the patterns `objs`, one after the other. -/
def CompareAll (objs : List (Object σ)) (encs : List MsgSeq) (P : Prop) : Prop :=
  ∀ s vars, ∃ success rest,
    ETuple.matchAll objs (encs.flatten ++ s) vars = some (success, rest, vars) ∧
      (success = true ↔ P) ∧ (success = true → rest = s)

theorem Compares.congr {obj : Object σ} {enc : MsgSeq} {P Q : Prop} (h : Compares obj enc P)
    (hPQ : P ↔ Q) : Compares obj enc Q :=
  propext hPQ ▸ h

theorem CompareAll.congr {objs : List (Object σ)} {encs : List MsgSeq} {P Q : Prop}
    (h : CompareAll objs encs P) (hPQ : P ↔ Q) : CompareAll objs encs Q :=
  propext hPQ ▸ h

theorem compares_of_decides {obj : Object σ} {enc : MsgSeq} {P : Prop} [Decidable P]
    (h : ∀ s vars, obj.matchFn (enc ++ s) vars = some (decide P, s, vars)) :
    Compares obj enc P :=
  fun s vars => ⟨decide P, s, h s vars, decide_eq_true_iff, fun _ => rfl⟩

theorem compareAll_nil : CompareAll ([] : List (Object σ)) [] True :=
  fun s _ => ⟨true, s, rfl, iff_of_true rfl trivial, fun _ => rfl⟩

theorem Compares.cons {obj : Object σ} {objs : List (Object σ)} {enc : MsgSeq}
    {encs : List MsgSeq} {P Q : Prop} (head : Compares obj enc P)
    (tail : CompareAll objs encs Q) : CompareAll (obj :: objs) (enc :: encs) (P ∧ Q) := by
  intro s vars
  obtain ⟨success, rest, hmatch, hiff, hrest⟩ := head (encs.flatten ++ s) vars
  rw [List.flatten_cons, List.append_assoc, ETuple.matchAll, hmatch]
  cases success with
  | false =>
    have hP : ¬ P := fun hP => Bool.false_ne_true (hiff.mpr hP)
    exact ⟨false, rest, rfl, iff_of_false Bool.false_ne_true fun h => hP h.1,
      fun h => absurd h Bool.false_ne_true⟩
  | true =>
    rw [hrest rfl]
    obtain ⟨success, rest, hmatch, hiff', hrest'⟩ := tail s vars
    exact ⟨success, rest, hmatch, hiff'.trans (and_iff_right (hiff.mp rfl)).symm, hrest'⟩

/-- **A tuple is compared by its length, and then element by element.** -/
theorem CompareAll.tuple {objs : List (Object σ)} {encs : List MsgSeq} {P : Prop}
    (hlen : encs.length < 256) (h : objs.length = encs.length → CompareAll objs encs P) :
    Compares (makeETuple objs) (smallTupleHeadG encs.length ++ encs.flatten)
      (objs.length = encs.length ∧ P) := by
  intro s vars
  have hhead := smallTupleHeadExt_smallTupleHeadG hlen (encs.flatten ++ s) 0
  simp only [makeETuple, ETuple.matchFn, List.append_assoc, binaryToTerm_of_some hhead,
    Bool.true_and, decide_eq_true_eq]
  by_cases hobjs : objs.length = encs.length
  · rw [if_pos hobjs, and_iff_right hobjs]
    exact h hobjs s vars
  · rw [if_neg hobjs]
    exact ⟨false, _, rfl, iff_of_false Bool.false_ne_true fun h => hobjs h.1,
      fun h => absurd h Bool.false_ne_true⟩

/-- So is a list, up to its nil. -/
theorem CompareAll.list {objs : List (Object σ)} {encs : List MsgSeq} {P : Prop}
    (hlen : encs.length < 4294967296) (h : objs.length = encs.length → CompareAll objs encs P) :
    Compares (ErlList.ofValue objs) (listHeadG encs.length ++ encs.flatten ++ nilExtG)
      (objs.length = encs.length ∧ P) := by
  intro s vars
  have hhead := listHeadExt_listHeadG hlen (encs.flatten ++ (nilExtG ++ s)) 0
  have hnil : binaryToTerm nilExt (nilExtG ++ s) () = (true, s, ()) :=
    binaryToTerm_of_some (Wire.lit_cons_self _ _ _)
  simp only [ErlList.ofValue, ListMatcher.matchFn, List.append_assoc, binaryToTerm_of_some hhead,
    Bool.true_and, decide_eq_true_eq]
  by_cases hobjs : objs.length = encs.length
  · obtain ⟨success, rest, hmatch, hiff, hrest⟩ := h hobjs (nilExtG ++ s) vars
    rw [if_pos hobjs, and_iff_right hobjs, hmatch]
    refine ⟨success, _, rfl, hiff, fun hsuccess => ?_⟩
    rw [hrest hsuccess, hnil]
  · rw [if_neg hobjs]
    exact ⟨false, _, rfl, iff_of_false Bool.false_ne_true fun h => hobjs h.1,
      fun h => absurd h Bool.false_ne_true⟩

/-- **What has elements is compared by their number, and then element by element.** -/
theorem CompareAll.compound (k : Compound) {objs : List (Object σ)} {encs : List MsgSeq} {P : Prop}
    (hlen : k.Fits encs.length) (h : objs.length = encs.length → CompareAll objs encs P) :
    Compares (k.toObject objs) (k.head encs.length ++ encs.flatten ++ k.tail)
      (objs.length = encs.length ∧ P) := by
  cases k with
  | tuple =>
    rw [Compound.tail, List.append_nil]
    exact CompareAll.tuple hlen h
  | list => exact CompareAll.list hlen h

/-! ### Two terms -/

/-- Terms of different kinds are different, and the pattern sees it. -/
theorem compares_of_kind_ne {v w : NestedValue} (hne : v.kind ≠ w.kind) :
    Compares (v.toObject : Object σ) w.serialize (v.plain = w.plain) := by
  intro s vars
  obtain ⟨tag, htag, f, hserialize⟩ := w.toValue.exists_serialize_eq
  obtain ⟨rest, hmatch⟩ := matchFn_of_not_mem_tags v (not_mem_patternTags hne tag htag) (f ++ s)
    vars
  refine ⟨false, rest, ?_, iff_of_false Bool.false_ne_true fun heq => hne ?_,
    fun h => absurd h Bool.false_ne_true⟩
  · rw [serialize, hserialize, List.cons_append, hmatch]
  · rw [← kind_plain v, heq, kind_plain]

/-- One element after the other. -/
theorem compareAll {vs : List NestedValue} (ih : ∀ v ∈ vs, ∀ w : NestedValue, w.InWireRange →
      Compares (toObject v : Object σ) w.serialize (plain v = w.plain)) :
    ∀ {ws : List NestedValue}, vs.length = ws.length → (∀ w ∈ ws, InWireRange w) →
      CompareAll (vs.map toObject : List (Object σ)) (ws.map serialize)
        (vs.map plain = ws.map plain) := by
  induction vs with
  | nil =>
    intro ws hlen _
    obtain rfl := List.length_eq_zero_iff.mp hlen.symm
    exact compareAll_nil.congr (iff_of_true trivial rfl)
  | cons v vs ihs =>
    intro ws hlen hw
    cases ws with
    | nil => cases hlen
    | cons w ws =>
      obtain ⟨hhead, htail⟩ := List.forall_mem_cons.mp hw
      have hfirst := ih v List.mem_cons_self w hhead
      have hrest := ihs (fun u hu => ih u (List.mem_cons_of_mem v hu)) (Nat.succ.inj hlen) htail
      refine (hfirst.cons hrest).congr ?_
      rw [List.map_cons, List.map_cons, List.cons.injEq]

/-- Two tuples, or two lists. -/
theorem compares_node (k : Compound) {vs ws : List NestedValue} (hlen : k.Fits ws.length)
    (h : vs.length = ws.length → CompareAll (vs.map toObject : List (Object σ)) (ws.map serialize)
      (vs.map plain = ws.map plain)) :
    Compares (toObject (.node k vs) : Object σ) (serialize (.node k ws))
      (plain (.node k vs) = plain (.node k ws)) := by
  rw [← List.length_map serialize] at hlen
  rw [toObject_node, serialize_node, ← List.length_map serialize]
  refine (CompareAll.compound k hlen fun hobjs => h ?_).congr ?_
  · rwa [List.length_map, List.length_map] at hobjs
  · have hlength : vs.map plain = ws.map plain → vs.length = ws.length := fun heq => by
      rw [← List.length_map plain, heq, List.length_map]
    rw [List.length_map, List.length_map, and_iff_right_of_imp hlength, plain_node, plain_node,
      Nested.node.injEq, and_iff_right rfl]

theorem compares_int (n : Int32) (w : NestedValue) :
    Compares (toObject (.leaf (.int n)) : Object σ) w.serialize
      (plain (.leaf (.int n)) = w.plain) := by
  by_cases hkind : TermKind.int = w.kind
  · cases w with
    | leaf a =>
      cases a with
      | int m =>
        have hdecides : Compares (Int_.ofValue n : Object σ) (Int_.serialize m) (n = m) :=
          compares_of_decides fun s vars => Int_.matchFn_ofValue n m s vars
        exact hdecides.congr (by simp [plain, ComparedLeaf.plain])
      | _ => cases hkind
    | node k ws => cases k <;> cases hkind
  · exact compares_of_kind_ne hkind

/-- A `list<int_>` is read like any other list: there is no string to be seen. -/
theorem compares_intList (ns : List Int32) (ws : List NestedValue)
    (hws : InWireRange (.node .list ws)) :
    Compares (toObject (.leaf (.intList ns)) : Object σ) (serialize (.node .list ws))
      (plain (.leaf (.intList ns)) = plain (.node .list ws)) := by
  obtain ⟨hlen, hw⟩ := inWireRange_node.mp hws
  have hints : ∀ v ∈ ofInts ns, ∀ w : NestedValue, w.InWireRange →
      Compares (toObject v : Object σ) w.serialize (plain v = w.plain) := by
    rw [ofInts, List.forall_mem_map]
    exact fun n _ w _ => compares_int n w
  have hlist : Compares (toObject (.node .list (ofInts ns)) : Object σ) (serialize (.node .list ws))
      (plain (.node .list (ofInts ns)) = plain (.node .list ws)) :=
    compares_node .list hlen fun heq => compareAll hints heq hw
  rw [plain_intList]
  intro s vars
  obtain ⟨success, rest, hmatch, hP⟩ := hlist s vars
  refine ⟨success, rest, ?_, hP⟩
  rw [toObject_node, toObject_ofInts, serialize_node] at hmatch
  rw [serialize_node]
  exact (IntList.dispatchOnTag_list (StringMatcher.matchFn (ns.map IntObject.ofValue)) _ _
    vars).trans hmatch

/-- Two leaves of one kind. -/
theorem compares_leaves {a b : ComparedLeaf} (hkind : kind (.leaf a) = kind (.leaf b))
    (hb : InWireRange (.leaf b)) :
    Compares (toObject (.leaf a) : Object σ) (serialize (.leaf b))
      (plain (.leaf a) = plain (.leaf b)) := by
  cases a with
  | int n => exact compares_int n _
  | atom name =>
    cases b with
    | atom name' =>
      have hdecides : Compares (Atom.ofValue name : Object σ) (atomExtG name') (name = name') :=
        compares_of_decides fun s vars => Atom.matchFn_ofValue hb name s vars
      exact hdecides.congr (by simp [plain, ComparedLeaf.plain])
    | _ => cases hkind
  | pid p =>
    cases b with
    | pid p' =>
      have hdecides : Compares (Pid.ofValue p : Object σ) (pidExtG p') (p = p') :=
        compares_of_decides fun s vars => Pid.matchFn_ofValue hb p s vars
      exact hdecides.congr (by simp [plain, ComparedLeaf.plain])
    | _ => cases hkind
  | ref r =>
    cases b with
    | ref r' =>
      have hdecides : Compares (Ref.ofValue r : Object σ) (newReferenceExtG r') (r = r') :=
        compares_of_decides fun s vars => Ref.matchFn_ofValue hb r s vars
      exact hdecides.congr (by simp [plain, ComparedLeaf.plain])
    | _ => cases hkind
  | binary d =>
    cases b with
    | binary d' =>
      have hdecides : Compares (Binary.ofValue d : Object σ) (Binary.serialize d') (d' = d) :=
        compares_of_decides fun s vars => Binary.matchFn_ofValue hb.2 hb.1.padding d s vars
      exact hdecides.congr (by simp [plain, ComparedLeaf.plain, eq_comm])
    | _ => cases hkind
  | intList ns =>
    obtain ⟨ws, hws, hserialize, hplain⟩ := exists_elements hb hkind.symm
    rw [hserialize, hplain]
    exact compares_intList ns ws hws

theorem compares_leaf (a : ComparedLeaf) (w : NestedValue) (hw : w.InWireRange) :
    Compares (toObject (.leaf a) : Object σ) w.serialize (plain (.leaf a) = w.plain) := by
  by_cases hkind : kind (.leaf a) = w.kind
  · cases w with
    | leaf b => exact compares_leaves hkind hw
    | node k ws =>
      cases a with
      | intList ns =>
        cases k with
        | tuple => cases hkind
        | list => exact compares_intList ns ws hw
      | _ => cases k <;> cases hkind
  · exact compares_of_kind_ne hkind

/-- **A pattern decides whether a term is the value it was made from.** -/
theorem compares (v : NestedValue) : ∀ w : NestedValue, w.InWireRange →
    Compares (v.toObject : Object σ) w.serialize (v.plain = w.plain) := by
  induction v using Nested.induction with
  | leaf a => exact compares_leaf a
  | node k vs ih =>
    intro w hw
    by_cases hkind : kind (.node k vs) = w.kind
    · cases k with
      | tuple =>
        cases w with
        | leaf b => cases b <;> cases hkind
        | node k ws =>
          cases k with
          | list => cases hkind
          | tuple =>
            obtain ⟨hlen, hall⟩ := inWireRange_node.mp hw
            exact compares_node .tuple hlen fun heq => compareAll ih heq hall
      | list =>
        obtain ⟨ws, hws, hserialize, hplain⟩ := exists_elements hw hkind.symm
        obtain ⟨hlen, hall⟩ := inWireRange_node.mp hws
        rw [hserialize, hplain]
        exact compares_node .list hlen fun heq => compareAll ih heq hall
    · exact compares_of_kind_ne hkind

end NestedValue

/-! ### Patterns made of objects -/

/-- The leaves of a pattern, made of objects as a match sees them. -/
inductive PatternLeaf
  | int (n : Int32)
  | atom (x : ValueObject Str)
  | pid (x : ValueObject EPid)
  | ref (x : ValueObject NewReferenceType)
  | binary (x : ValueObject BinaryValueType)
  | intList (ns : List Int32)

namespace PatternLeaf

def toObject : PatternLeaf → Object σ
  | int n => Int_.ofValue n
  | atom x => Atom.ofObject x
  | pid x => Pid.ofObject x
  | ref x => Ref.ofObject x
  | binary x => Binary.ofObject x
  | intList ns => IntList.ofValue (ns.map IntObject.ofValue)

/-- The value that the object holds. -/
def value : PatternLeaf → ComparedLeaf
  | int n => .int n
  | atom x => .atom x.val
  | pid x => .pid x.val
  | ref x => .ref x.val
  | binary x => .binary x.val
  | intList ns => .intList ns

/-- The object compares with its own value. -/
def Own : PatternLeaf → Prop
  | int _ | intList _ => True
  | atom x => x.Own
  | pid x => x.Own
  | ref x => x.Own
  | binary x => x.Own

theorem toObject_of_own {a : PatternLeaf} (ha : a.Own) :
    (a.toObject : Object σ) = NestedValue.toObject (.leaf a.value) := by
  cases a with
  | int | intList => rfl
  | atom => exact Atom.ofObject_of_own ha
  | pid => exact Pid.ofObject_of_own ha
  | ref => exact Ref.ofObject_of_own ha
  | binary => exact Binary.ofObject_of_own ha

/-- An object that matches its value compares with it. -/
theorem own_of_matches {a : PatternLeaf} (ha : NestedValue.InWireRange (.leaf a.value))
    {s rest : MsgSeq} {vars vars' : σ}
    (h : a.toObject.matchFn (NestedValue.serialize (.leaf a.value) ++ s) vars =
      some (true, rest, vars')) : a.Own := by
  cases a with
  | int | intList => trivial
  | atom => exact matchCompared_eq_true (binaryToTerm_of_some (atomExt_atomExtG ha s [])) h
  | pid => exact matchCompared_eq_true (binaryToTerm_of_some (pidExt_pidExtG ha s)) h
  | ref =>
    exact matchCompared_eq_true (binaryToTerm_of_some (newReferenceExtP_newReferenceExtG ha s)) h
  | binary => exact matchCompared_eq_true (Binary.read_serialize ha.2 ha.1.padding s) h

end PatternLeaf

/-- A pattern, made of objects as a match sees them. Tuples and lists hold copies, or pointers. -/
abbrev ValuePattern := Nested Compound PatternLeaf

namespace ValuePattern

def toObject (p : ValuePattern) : Object σ := p.fold PatternLeaf.toObject Compound.toObject

/-- The value that the objects hold. -/
def value (p : ValuePattern) : NestedValue := p.map PatternLeaf.value

/-- Every object of the pattern compares with its own value. -/
def Own (p : ValuePattern) : Prop := p.All PatternLeaf.Own fun _ _ => True

/-- **The pattern matches its value and no other**, whatever follows it, and leaves the iterator
right behind it. -/
def MatchesValue (p : ValuePattern) (vars : σ) : Prop :=
  ∀ w : NestedValue, w.InWireRange → ∀ s, ∃ success rest,
    p.toObject.matchFn (w.serialize ++ s) vars = some (success, rest, vars) ∧
      (success = true ↔ p.value.plain = w.plain) ∧ (success = true → rest = s)

theorem toObject_node (k : Compound) (ps : List ValuePattern) :
    (toObject (.node k ps) : Object σ) = k.toObject (ps.map toObject) :=
  Nested.fold_node _ _ k ps

theorem value_node (k : Compound) (ps : List ValuePattern) :
    value (.node k ps) = .node k (ps.map value) :=
  Nested.map_node _ k ps

theorem own_node {k : Compound} {ps : List ValuePattern} :
    Own (.node k ps) ↔ ∀ p ∈ ps, Own p :=
  (Nested.all_node _ _ k ps).trans (and_iff_right trivial)

/-- What is made of objects that compare with their own values is the pattern of these values. -/
theorem toObject_of_own (p : ValuePattern) :
    p.Own → (p.toObject : Object σ) = p.value.toObject := by
  induction p using Nested.induction with
  | leaf a => exact PatternLeaf.toObject_of_own
  | node k ps ih =>
    intro hown
    have hall := own_node.mp hown
    rw [toObject_node, value_node, NestedValue.toObject_node, List.map_map]
    exact congrArg k.toObject (List.map_congr_left fun p hp => ih p hp (hall p hp))

/-- A pattern whose objects compare with their own values stops right behind its value. -/
theorem rest_of_own {p : ValuePattern} (hp : p.value.InWireRange) (hown : p.Own) {s rest : MsgSeq}
    {vars vars' : σ}
    (h : p.toObject.matchFn (p.value.serialize ++ s) vars = some (true, rest, vars')) :
    rest = s ∧ vars' = vars := by
  obtain ⟨success, rest', hmatch, -, hrest⟩ := NestedValue.compares p.value p.value hp s vars
  rw [toObject_of_own p hown, hmatch, Option.some_inj, Prod.mk.injEq, Prod.mk.injEq] at h
  obtain ⟨rfl, rfl, rfl⟩ := h
  exact ⟨hrest rfl, rfl⟩

/-- What has elements is matched by matching them. -/
theorem matchAll_of_matches (k : Compound) {objs : List (Object σ)} {encs : List MsgSeq}
    (hfits : k.Fits encs.length) (hlen : objs.length = encs.length) {s rest : MsgSeq}
    {vars vars' : σ}
    (h : (k.toObject objs).matchFn (k.head encs.length ++ encs.flatten ++ k.tail ++ s) vars =
      some (true, rest, vars')) :
    ∃ rest' vars'', ETuple.matchAll objs (encs.flatten ++ (k.tail ++ s)) vars =
      some (true, rest', vars'') := by
  simp only [List.append_assoc] at h
  cases k with
  | tuple =>
    have hhead := smallTupleHeadExt_smallTupleHeadG hfits (encs.flatten ++ ([] ++ s)) 0
    simp only [Compound.toObject, Compound.head, Compound.tail, makeETuple, ETuple.matchFn,
      binaryToTerm_of_some hhead] at h
    rw [if_pos (by simp [hlen])] at h
    exact ⟨_, _, h⟩
  | list =>
    have hhead := listHeadExt_listHeadG hfits (encs.flatten ++ (nilExtG ++ s)) 0
    simp only [Compound.toObject, Compound.head, Compound.tail, ErlList.ofValue,
      ListMatcher.matchFn, binaryToTerm_of_some hhead] at h
    rw [if_pos (by simp [hlen])] at h
    split at h
    · cases h
    · next matched after vars₁ hall =>
      obtain rfl : matched = true := (Prod.mk.inj (Option.some_inj.mp h)).1
      exact ⟨_, _, hall⟩

/-- Element by element: the ones that have matched have left the iterator at the next one. -/
theorem own_of_matchAll {ps : List ValuePattern} (hps : ∀ p ∈ ps, (value p).InWireRange)
    (ih : ∀ p ∈ ps, (value p).InWireRange → ∀ {s rest : MsgSeq} {vars vars' : σ},
      (toObject p).matchFn ((value p).serialize ++ s) vars = some (true, rest, vars') → Own p) :
    ∀ {s rest : MsgSeq} {vars vars' : σ}, ETuple.matchAll (ps.map toObject)
      ((ps.map fun p => (value p).serialize).flatten ++ s) vars = some (true, rest, vars') →
        ∀ p ∈ ps, Own p := by
  induction ps with
  | nil => exact fun _ _ hp => absurd hp List.not_mem_nil
  | cons p ps ihs =>
    intro s rest vars vars' h
    rw [List.map_cons, List.map_cons, List.flatten_cons, List.append_assoc, ETuple.matchAll] at h
    obtain ⟨hp, htail⟩ := List.forall_mem_cons.mp hps
    split at h
    · cases h
    · cases h
    · next rest₁ vars₁ hmatch =>
      have hown := ih p List.mem_cons_self hp hmatch
      obtain ⟨rfl, rfl⟩ := rest_of_own hp hown hmatch
      have hrest := ihs htail (fun q hq => ih q (List.mem_cons_of_mem p hq)) h
      exact List.forall_mem_cons.mpr ⟨hown, hrest⟩

/-- **A pattern that matches its value compares with it**, in each of its objects. -/
theorem own_of_matches (p : ValuePattern) : p.value.InWireRange → ∀ {s rest : MsgSeq}
    {vars vars' : σ},
    p.toObject.matchFn (p.value.serialize ++ s) vars = some (true, rest, vars') → p.Own := by
  induction p using Nested.induction with
  | leaf a => exact fun ha => PatternLeaf.own_of_matches ha
  | node k ps ih =>
    intro hp s rest vars vars' h
    rw [value_node] at hp h
    obtain ⟨hlen, hps⟩ := NestedValue.inWireRange_node.mp hp
    rw [List.forall_mem_map] at hps
    rw [← List.length_map NestedValue.serialize] at hlen
    rw [toObject_node, NestedValue.serialize_node, ← List.length_map NestedValue.serialize] at h
    obtain ⟨rest', vars'', hall⟩ := matchAll_of_matches k hlen (by simp) h
    rw [List.map_map] at hall
    exact own_node.mpr (own_of_matchAll hps ih hall)

/-! ### Value patterns that match exactly their value -/

theorem matchesValue_of_own {p : ValuePattern} (hown : p.Own) (vars : σ) :
    p.MatchesValue vars := by
  intro w hw s
  rw [toObject_of_own p hown]
  exact NestedValue.compares p.value w hw s vars

/-- **A list of objects of one class** goes on to match its values in every run that leaves alone
these objects and the ones that they are bound to. -/
theorem matchesValue_of_run {α : Type} {mk : ValueObject α → ValuePattern}
    (hmk : ∀ x, x.Own → (mk x).Own) {m m' : Objects α} {es : List (ObjectEvent α)}
    {ids : List ObjectId} (hids : ∀ id ∈ ids, ∃ c x, m.cell id = some c ∧ m.seen id = some x ∧
      x.Own ∧ ∀ e ∈ es, e.Spares id ∧ e.Spares c.bound)
    (hm : EventSystem.run Objects.step m es = some m') (vars : σ) :
    MatchesValue (.node .list ((ids.filterMap m'.seen).map mk)) vars := by
  have hall : ∀ p ∈ (ids.filterMap m'.seen).map mk, p.Own := by
    intro p hp
    obtain ⟨y, hy, rfl⟩ := List.mem_map.mp hp
    obtain ⟨id, hid, hseen⟩ := List.mem_filterMap.mp hy
    obtain ⟨c, x, hc, hx, hown, hes⟩ := hids id hid
    rw [Objects.seen_of_run hc hx hown hes hm] at hseen
    rw [← Option.some_inj.mp hseen]
    exact hmk x hown
  exact matchesValue_of_own (own_node.mpr hall) vars

/-- **Which patterns match their value and no other**: those whose objects all compare with their
own values. -/
theorem matchesValue_iff {p : ValuePattern} (hp : p.value.InWireRange) (vars : σ) :
    p.MatchesValue vars ↔ p.Own := by
  constructor
  · intro h
    obtain ⟨success, rest, hmatch, hiff, -⟩ := h p.value hp []
    rw [hiff.mpr rfl] at hmatch
    exact own_of_matches p hp hmatch
  · intro hown
    exact matchesValue_of_own hown vars

/-- The pattern `{7, [a, 1]}`. -/
theorem matchesValue_iff_tuple :
    MatchesValue (.node .tuple [.leaf (.int 7),
      .node .list [.leaf (.atom (.ofValue [97])), .leaf (.int 1)]]) () := by
  refine (matchesValue_iff ?_ ()).mpr ?_
  · simp [value, NestedValue.InWireRange, NestedValue.toValue, Value.InWireRange, Compound.Fits,
      LeafValue.InWireRange, PatternLeaf.value, ComparedLeaf.toLeaf, ValueObject.ofValue]
  · simp [Own, PatternLeaf.Own, ValueObject.Own, ValueObject.ofValue]

/-- **A list with a copy** of an atom that is assigned another value afterwards is sent as `[x]` and
matches `[y]`; and nobody knows what a copy of a temporary matches. -/
theorem not_matchesValue_copied :
    (∃ m x, EventSystem.run Objects.step [] Objects.assignedOver = some m ∧
      m.seen 2 = some x ∧
      value (.node .list [.leaf (.atom x)]) = .node .list [.leaf (.atom [120])] ∧
      (toObject (.node .list [.leaf (.atom x)])).matchFn
        (NestedValue.serialize (.node .list [.leaf (.atom [121])])) () = some (true, [], ()) ∧
      ¬ MatchesValue (.node .list [.leaf (.atom x)]) ()) ∧
    ∃ m x, EventSystem.run Objects.step [] Objects.copyOfTemporary = some m ∧
      m.seen 1 = some x ∧
      (toObject (.node .tuple [.leaf (.atom x)])).matchFn
        (NestedValue.serialize (.node .tuple [.leaf (.atom [120])])) () = none ∧
      ¬ MatchesValue (.node .tuple [.leaf (.atom x)]) () := by
  refine ⟨⟨_, _, rfl, rfl, rfl, rfl, fun h => ?_⟩, _, _, rfl, rfl, rfl, fun h => ?_⟩
  · obtain ⟨success, rest, hmatch, hiff, -⟩ := h (.node .list [.leaf (.atom [120])])
      (by simp [NestedValue.InWireRange, NestedValue.toValue, Value.InWireRange, Compound.Fits,
        LeafValue.InWireRange, ComparedLeaf.toLeaf]) []
    rw [hiff.mpr rfl] at hmatch
    cases hmatch
  · obtain ⟨success, rest, hmatch, -⟩ := h (.node .tuple [.leaf (.atom [120])])
      (by simp [NestedValue.InWireRange, NestedValue.toValue, Value.InWireRange, Compound.Fits,
        LeafValue.InWireRange, ComparedLeaf.toLeaf]) []
    cases hmatch

end ValuePattern

end TinchPp
