import TinchPp.Values

/-!
# Lengths, counts and creation numbers

A generator writes the length of a name, the number of the words of an id or a creation number into
a field of its own width, and what does not fit is cut off without a word: `serialize` never fails.
`Exact` says that the bytes are what Erlang's format has for the term, with every such field read
as a number and equal to what it stands for. Terms whose bytes are exact are told apart by them, and
so are the bytes from what follows.

## Main results

* `exact_iff` — the bytes that are exact are those that are written, for a term that fits
* `delimits` — the induction over two terms
* `exact_fields_iff` — exactly which terms are written with exact fields
-/

namespace TinchPp

open Wire

/-! ### Terms -/

/-- The leaves of what is sent. A binary is a complete number of bytes. -/
inductive SentLeaf
  | int (n : Int32)
  | atom (name : Str)
  | string (str : Str)
  | pid (p : EPid)
  | ref (r : NewReferenceType)
  | binary (data : MsgSeq)

def SentLeaf.toLeaf : SentLeaf → LeafValue
  | int n => .int n
  | atom name => .atom name
  | string str => .string str
  | pid p => .pid p
  | ref r => .ref r
  | binary data => .binary (.ofData data)

/-- What is sent, as the values it is made from. The elements of a list are of any types, as they
are with pointers to objects; the ones of `list<int_>` and so on are of one type. -/
abbrev SentTerm := Nested Compound SentLeaf

namespace SentTerm

def toValue (t : SentTerm) : Value := t.map SentLeaf.toLeaf

def serialize (t : SentTerm) : MsgSeq := t.toValue.serialize

/-- The terms that fit their fields. -/
def Fits (t : SentTerm) : Prop := t.toValue.InWireRange

theorem serialize_node (k : Compound) (ts : List SentTerm) : serialize (.node k ts) =
    k.head ts.length ++ (ts.map serialize).flatten ++ k.tail := by
  rw [serialize, toValue, Nested.map_node, Value.serialize_node, List.length_map, List.map_map]
  rfl

theorem fits_node {k : Compound} {ts : List SentTerm} :
    Fits (.node k ts) ↔ k.Fits ts.length ∧ ∀ t ∈ ts, Fits t := by
  rw [Fits, toValue, Nested.map_node, Value.inWireRange_node, List.length_map,
    List.forall_mem_map]
  rfl

theorem fits_binary {data : MsgSeq} : Fits (.leaf (.binary data)) ↔ data.length < 4294967296 :=
  and_iff_right (.inl ⟨data, rfl⟩)

/-- A `list<int_>` is written like any other list of these integers. -/
theorem serialize_intList (ns : List Int32) :
    (IntList.ofValue (ns.map IntObject.ofValue) : Object Unit).serialize =
      serialize (.node .list (ns.map fun n => .leaf (.int n))) := by
  have hobjects : (ns.map IntObject.ofValue).map IntObject.toObject =
      (ns.map fun n => (Int_.ofValue n : Object Unit)) := by
    rw [List.map_map]
    rfl
  rw [IntList.ofValue, hobjects, ErlList.serialize, serialize_node, List.length_map,
    List.length_map, List.map_map, List.map_map]
  rfl

end SentTerm

/-! ### Fields read as numbers -/

/-- An atom: its length is two bytes. -/
def ExactAtom (name : Str) (enc : MsgSeq) : Prop :=
  ∃ b₁ b₀, (word b₁ b₀).toNat = name.length ∧ enc = TypeTag.atomExt :: b₁ :: b₀ :: name

/-- Erlang's format for a leaf, where the fields are read as numbers. An integer has none, and
neither are the id and the serial of a pid cut off. -/
def SentLeaf.Exact : SentLeaf → MsgSeq → Prop
  | int n, enc => enc = Int_.serialize n
  | atom name, enc => ExactAtom name enc
  | string str, enc =>
    ∃ b₁ b₀, (word b₁ b₀).toNat = str.length ∧ enc = TypeTag.stringExt :: b₁ :: b₀ :: str
  | pid p, enc => ∃ nodeName creation, ExactAtom p.nodeName nodeName ∧
    creation.toNat = p.creation.toNat ∧ enc = TypeTag.pid ::
      (nodeName ++ bigDwordG p.id.toNat ++ bigDwordG p.serial.toNat ++ [creation])
  | ref r, enc => ∃ b₁ b₀ nodeName creation, 4 * (word b₁ b₀).toNat = r.id.length ∧
    ExactAtom r.nodeName nodeName ∧ creation.toNat = r.creation.toNat ∧
      enc = TypeTag.newReferenceExt :: b₁ :: b₀ :: (nodeName ++ [creation] ++ r.id)
  | binary data, enc => ∃ b₃ b₂ b₁ b₀, (dword b₃ b₂ b₁ b₀).toNat = data.length ∧
    enc = TypeTag.binaryExt :: b₃ :: b₂ :: b₁ :: b₀ :: data

/-- The formats of the elements, one after the other. -/
def ExactAll : List (MsgSeq → Prop) → MsgSeq → Prop
  | [], enc => enc = []
  | exact :: exacts, enc => ∃ first rest, exact first ∧ ExactAll exacts rest ∧ enc = first ++ rest

/-- Erlang's format for what has elements. -/
def Compound.Exact : Compound → List (MsgSeq → Prop) → MsgSeq → Prop
  | tuple, exacts, enc => ∃ arity elements, arity.toNat = exacts.length ∧
    ExactAll exacts elements ∧ enc = TypeTag.smallTuple :: arity :: elements
  | list, exacts, enc => ∃ b₃ b₂ b₁ b₀ elements, (dword b₃ b₂ b₁ b₀).toNat = exacts.length ∧
    ExactAll exacts elements ∧
      enc = TypeTag.list :: b₃ :: b₂ :: b₁ :: b₀ :: (elements ++ [TypeTag.nilExt])

namespace SentTerm

/-- Erlang's format for the term, where the fields are read as numbers. -/
def Exact (t : SentTerm) : MsgSeq → Prop := t.fold SentLeaf.Exact Compound.Exact

theorem exactAtom_iff {name : Str} {enc : MsgSeq} :
    ExactAtom name enc ↔ name.length < 65536 ∧ enc = atomExtG name := by
  constructor
  · rintro ⟨b₁, b₀, hlen, rfl⟩
    obtain ⟨hfits, hbytes⟩ := toNat_word_eq_iff.mp hlen
    exact ⟨hfits, by rw [atomExtG, ← hbytes]; rfl⟩
  · rintro ⟨hfits, rfl⟩
    exact ⟨_, _, toNat_word_eq_iff.mpr ⟨hfits, rfl⟩, rfl⟩

theorem exact_string_iff {str : Str} {enc : MsgSeq} :
    (SentLeaf.string str).Exact enc ↔ str.length < 65536 ∧ enc = stringExtG str := by
  rw [SentLeaf.Exact]
  constructor
  · rintro ⟨b₁, b₀, hlen, rfl⟩
    obtain ⟨hfits, hbytes⟩ := toNat_word_eq_iff.mp hlen
    exact ⟨hfits, by rw [stringExtG, ← hbytes]; rfl⟩
  · rintro ⟨hfits, rfl⟩
    exact ⟨_, _, toNat_word_eq_iff.mpr ⟨hfits, rfl⟩, rfl⟩

theorem exact_pid_iff {p : EPid} {enc : MsgSeq} :
    (SentLeaf.pid p).Exact enc ↔ p.InWireRange ∧ enc = pidExtG p := by
  rw [SentLeaf.Exact]
  constructor
  · rintro ⟨nodeName, creation, hname, hcreation, rfl⟩
    obtain ⟨hfits, rfl⟩ := exactAtom_iff.mp hname
    obtain ⟨hlt, hbytes⟩ := toNat_byte_eq_iff.mp hcreation
    exact ⟨⟨hfits, hlt⟩, by rw [pidExtG, ← hbytes]⟩
  · rintro ⟨hfits, rfl⟩
    exact ⟨_, _, exactAtom_iff.mpr ⟨hfits.nodeName, rfl⟩,
      toNat_byte_eq_iff.mpr ⟨hfits.creation, rfl⟩, rfl⟩

/-- The words are counted by a division, which is exact for an id of whole words. -/
theorem exact_ref_iff {r : NewReferenceType} {enc : MsgSeq} :
    (SentLeaf.ref r).Exact enc ↔ r.InWireRange ∧ enc = newReferenceExtG r := by
  rw [SentLeaf.Exact]
  constructor
  · rintro ⟨b₁, b₀, nodeName, creation, hwords, hname, hcreation, rfl⟩
    obtain ⟨hfits, rfl⟩ := exactAtom_iff.mp hname
    obtain ⟨hlt, hbytes⟩ := toNat_byte_eq_iff.mp hcreation
    have hcount : (word b₁ b₀).toNat = r.id.length / 4 := by omega
    obtain ⟨hid, hcountBytes⟩ := toNat_word_eq_iff.mp hcount
    refine ⟨⟨hfits, hlt, hid, by omega⟩, ?_⟩
    rw [newReferenceExtG, ← hbytes, ← hcountBytes]
    rfl
  · rintro ⟨hfits, rfl⟩
    have hcount := toNat_word_eq_iff.mpr ⟨hfits.idLength, rfl⟩
    have hid : 4 * (r.id.length / 4) = r.id.length :=
      Nat.mul_div_cancel' (Nat.dvd_of_mod_eq_zero hfits.idWords)
    rw [← hcount] at hid
    exact ⟨_, _, _, _, hid, exactAtom_iff.mpr ⟨hfits.nodeName, rfl⟩,
      toNat_byte_eq_iff.mpr ⟨hfits.creation, rfl⟩, rfl⟩

theorem exact_binary_iff {data : MsgSeq} {enc : MsgSeq} :
    (SentLeaf.binary data).Exact enc ↔ data.length < 4294967296 ∧ enc = binaryExtG data := by
  rw [SentLeaf.Exact]
  constructor
  · rintro ⟨b₃, b₂, b₁, b₀, hlen, rfl⟩
    obtain ⟨hfits, hbytes⟩ := toNat_dword_eq_iff.mp hlen
    exact ⟨hfits, by rw [binaryExtG, ← hbytes]; rfl⟩
  · rintro ⟨hfits, rfl⟩
    exact ⟨_, _, _, _, toNat_dword_eq_iff.mpr ⟨hfits, rfl⟩, rfl⟩

theorem exact_leaf_iff (a : SentLeaf) (enc : MsgSeq) :
    a.Exact enc ↔ Fits (.leaf a) ∧ enc = serialize (.leaf a) := by
  cases a with
  | int n => exact (and_iff_right trivial).symm
  | atom name => exact exactAtom_iff
  | string str => exact exact_string_iff
  | pid p => exact exact_pid_iff
  | ref r => exact exact_ref_iff
  | binary data =>
    rw [fits_binary]
    exact exact_binary_iff

/-- Element by element. -/
theorem exactAll_iff {ts : List SentTerm}
    (h : ∀ t ∈ ts, ∀ enc, Exact t enc ↔ Fits t ∧ enc = serialize t) (enc : MsgSeq) :
    ExactAll (ts.map Exact) enc ↔ (∀ t ∈ ts, Fits t) ∧ enc = (ts.map serialize).flatten := by
  induction ts generalizing enc with
  | nil => exact (and_iff_right fun _ ht => absurd ht List.not_mem_nil).symm
  | cons t ts ih =>
    have hall := ih fun u hu => h u (List.mem_cons_of_mem t hu)
    rw [List.map_cons, ExactAll, List.forall_mem_cons, List.map_cons, List.flatten_cons]
    constructor
    · rintro ⟨first, rest, hfirst, hrest, rfl⟩
      obtain ⟨hfits, rfl⟩ := (h t List.mem_cons_self _).mp hfirst
      obtain ⟨hfit, rfl⟩ := (hall _).mp hrest
      exact ⟨⟨hfits, hfit⟩, rfl⟩
    · rintro ⟨⟨hfits, hfit⟩, rfl⟩
      exact ⟨_, _, (h t List.mem_cons_self _).mpr ⟨hfits, rfl⟩, (hall _).mpr ⟨hfit, rfl⟩, rfl⟩

/-- **The bytes that are exact are those that are written, for a term that fits.** -/
theorem exact_iff (t : SentTerm) : ∀ enc, t.Exact enc ↔ t.Fits ∧ enc = t.serialize := by
  induction t using Nested.induction with
  | leaf a => exact exact_leaf_iff a
  | node k ts ih =>
    intro enc
    have hall := exactAll_iff ih
    rw [Exact, Nested.fold_node, fits_node, serialize_node]
    cases k with
    | tuple =>
      constructor
      · rintro ⟨arity, elements, hlen, helements, rfl⟩
        rw [List.length_map] at hlen
        obtain ⟨hlt, hbytes⟩ := toNat_byte_eq_iff.mp hlen
        obtain ⟨hfit, rfl⟩ := (hall _).mp helements
        refine ⟨⟨hlt, hfit⟩, ?_⟩
        rw [Compound.head, smallTupleHeadG, ← hbytes, Compound.tail, List.append_nil]
        rfl
      · rintro ⟨⟨hlt, hfit⟩, rfl⟩
        refine ⟨_, _, ?_, (hall _).mpr ⟨hfit, rfl⟩, List.append_nil _⟩
        rw [List.length_map]
        exact toNat_byte_eq_iff.mpr ⟨hlt, rfl⟩
    | list =>
      constructor
      · rintro ⟨b₃, b₂, b₁, b₀, elements, hlen, helements, rfl⟩
        rw [List.length_map] at hlen
        obtain ⟨hlt, hbytes⟩ := toNat_dword_eq_iff.mp hlen
        obtain ⟨hfit, rfl⟩ := (hall _).mp helements
        refine ⟨⟨hlt, hfit⟩, ?_⟩
        rw [Compound.head, listHeadG, ← hbytes]
        rfl
      · rintro ⟨⟨hlt, hfit⟩, rfl⟩
        refine ⟨_, _, _, _, _, ?_, (hall _).mpr ⟨hfit, rfl⟩, rfl⟩
        rw [List.length_map]
        exact toNat_dword_eq_iff.mpr ⟨hlt, rfl⟩

/-! ### Terms are told apart -/

theorem kind_eq {t t' : SentTerm} {s s' : MsgSeq} (h : t.serialize ++ s = t'.serialize ++ s') :
    t.toValue.kind = t'.toValue.kind := by
  obtain ⟨tag, htag, f, ht⟩ := t.toValue.exists_serialize_eq
  obtain ⟨tag', htag', f', ht'⟩ := t'.toValue.exists_serialize_eq
  rw [serialize, serialize, ht, ht', List.cons_append, List.cons_append] at h
  rw [← (List.cons.inj h).1] at htag'
  by_contra hne
  exact TermKind.not_mem_tags hne tag htag' htag

/-- A parser reads one value off the same bytes. -/
theorem eq_of_reads {α : Type} {p : Qi α} {a b b' : α} {f f' s s' : MsgSeq}
    (hread : p f a = (some s, b)) (hread' : p f' a = (some s', b')) (h : f = f') :
    b = b' ∧ s = s' := by
  rw [← h, hread, Prod.mk.injEq, Option.some_inj] at hread'
  exact ⟨hread'.2, hread'.1⟩

theorem delimits_string {str str' : Str} (hstr : str.length < 65536) (hstr' : str'.length < 65536)
    {s s' : MsgSeq} (h : stringExtG str ++ s = stringExtG str' ++ s') : str = str' ∧ s = s' := by
  obtain ⟨hlen, hrest⟩ :=
    eq_of_reads (stringHeadExt_stringExtG hstr s 0) (stringHeadExt_stringExtG hstr' s' 0) h
  exact List.append_inj hrest hlen

theorem delimits_pid {p p' : EPid} (hp : p.InWireRange) (hp' : p'.InWireRange) {s s' : MsgSeq}
    (h : pidExtG p ++ s = pidExtG p' ++ s') : p = p' ∧ s = s' :=
  eq_of_reads (pidExt_pidExtG hp s) (pidExt_pidExtG hp' s') h

theorem delimits_leaf {a a' : SentLeaf} (ha : Fits (.leaf a)) (ha' : Fits (.leaf a'))
    {s s' : MsgSeq} (h : serialize (.leaf a) ++ s = serialize (.leaf a') ++ s') :
    a = a' ∧ s = s' := by
  have hkind := kind_eq h
  cases a <;> cases a' <;> try cases hkind
  case int.int n n' =>
    obtain ⟨rfl, rfl⟩ := eq_of_reads (integer_serialize n s 0) (integer_serialize n' s' 0) h
    exact ⟨rfl, rfl⟩
  case atom.atom name name' =>
    obtain ⟨hname, rfl⟩ := eq_of_reads (atomExt_atomExtG ha s []) (atomExt_atomExtG ha' s' []) h
    exact ⟨congrArg SentLeaf.atom hname, rfl⟩
  case string.string str str' =>
    obtain ⟨rfl, rfl⟩ := delimits_string ha ha' h
    exact ⟨rfl, rfl⟩
  case pid.pid p p' =>
    obtain ⟨rfl, rfl⟩ := delimits_pid ha ha' h
    exact ⟨rfl, rfl⟩
  case ref.ref r r' =>
    obtain ⟨rfl, rfl⟩ := eq_of_reads (newReferenceExtP_newReferenceExtG ha s)
      (newReferenceExtP_newReferenceExtG ha' s') h
    exact ⟨rfl, rfl⟩
  case binary.binary data data' =>
    obtain ⟨hdata, rfl⟩ := eq_of_reads (binaryExt_binaryExtG (fits_binary.mp ha) s [])
      (binaryExt_binaryExtG (fits_binary.mp ha') s' []) h
    exact ⟨congrArg SentLeaf.binary hdata, rfl⟩

/-- As many elements on one side as on the other. -/
theorem delimits_all {ts : List SentTerm} (ih : ∀ t ∈ ts, ∀ t', Fits t → Fits t' →
      ∀ {s s'}, serialize t ++ s = serialize t' ++ s' → t = t' ∧ s = s') :
    ∀ {ts' : List SentTerm}, ts.length = ts'.length → (∀ t ∈ ts, Fits t) → (∀ t ∈ ts', Fits t) →
      ∀ {s s' : MsgSeq}, (ts.map serialize).flatten ++ s = (ts'.map serialize).flatten ++ s' →
        ts = ts' ∧ s = s' := by
  induction ts with
  | nil =>
    intro ts' hlen _ _ s s' h
    obtain rfl := List.length_eq_zero_iff.mp hlen.symm
    exact ⟨rfl, h⟩
  | cons t ts ihs =>
    intro ts' hlen hts hts' s s' h
    cases ts' with
    | nil => cases hlen
    | cons t' ts' =>
      rw [List.map_cons, List.map_cons, List.flatten_cons, List.flatten_cons, List.append_assoc,
        List.append_assoc] at h
      obtain ⟨ht, htail⟩ := List.forall_mem_cons.mp hts
      obtain ⟨ht', htail'⟩ := List.forall_mem_cons.mp hts'
      obtain ⟨rfl, hrest⟩ := ih t List.mem_cons_self t' ht ht' h
      obtain ⟨rfl, rfl⟩ := ihs (fun u hu => ih u (List.mem_cons_of_mem t hu)) (Nat.succ.inj hlen)
        htail htail' hrest
      exact ⟨rfl, rfl⟩

/-- **Terms that fit are told apart by their bytes, and the bytes from what follows.** -/
theorem delimits (t : SentTerm) : ∀ t', t.Fits → Fits t' → ∀ {s s' : MsgSeq},
    t.serialize ++ s = serialize t' ++ s' → t = t' ∧ s = s' := by
  induction t using Nested.induction with
  | leaf a =>
    intro t' ha ht' s s' h
    cases t' with
    | leaf a' =>
      obtain ⟨rfl, rfl⟩ := delimits_leaf ha ht' h
      exact ⟨rfl, rfl⟩
    | node k' ts' =>
      have hkind := kind_eq h
      cases a <;> cases k' <;> cases hkind
  | node k ts ih =>
    intro t' ht ht' s s' h
    cases t' with
    | leaf a' =>
      have hkind := kind_eq h
      cases k <;> cases a' <;> cases hkind
    | node k' ts' =>
      have hkind := kind_eq h
      obtain ⟨hlt, hfit⟩ := fits_node.mp ht
      obtain ⟨hlt', hfit'⟩ := fits_node.mp ht'
      rw [serialize_node, serialize_node] at h
      simp only [List.append_assoc] at h
      cases k with
      | tuple =>
        cases k' with
        | list => cases hkind
        | tuple =>
          obtain ⟨hlen, hrest⟩ := eq_of_reads (smallTupleHeadExt_smallTupleHeadG hlt _ 0)
            (smallTupleHeadExt_smallTupleHeadG hlt' _ 0) h
          obtain ⟨rfl, rfl⟩ := delimits_all ih hlen hfit hfit' hrest
          exact ⟨rfl, rfl⟩
      | list =>
        cases k' with
        | tuple => cases hkind
        | list =>
          obtain ⟨hlen, hrest⟩ := eq_of_reads (listHeadExt_listHeadG hlt _ 0)
            (listHeadExt_listHeadG hlt' _ 0) h
          obtain ⟨rfl, hnil⟩ := delimits_all ih hlen hfit hfit' hrest
          exact ⟨rfl, List.append_cancel_left hnil⟩

/-- **Which terms are written with exact fields.** Nothing is reported where a field is too narrow,
so the bytes are what Erlang's format has for the term exactly when all its fields fit. No two terms
with exact bytes have the same ones, and none of them ends before or after the others do, whatever
follows. -/
theorem exact_fields_iff (t : SentTerm) : (t.Exact t.serialize ↔ t.Fits) ∧
    ∀ (t' : SentTerm) (enc enc' s s' : MsgSeq), t.Exact enc → t'.Exact enc' →
      enc ++ s = enc' ++ s' → t = t' ∧ s = s' := by
  refine ⟨(exact_iff t _).trans (and_iff_left rfl), ?_⟩
  intro t' enc enc' s s' henc henc' h
  obtain ⟨hfits, rfl⟩ := (exact_iff t _).mp henc
  obtain ⟨hfits', rfl⟩ := (exact_iff t' _).mp henc'
  exact delimits t t' hfits hfits' h

/-- The creation number 256 is written as zero. -/
theorem creation_is_truncated : (¬ ∀ t : SentTerm, t.Exact t.serialize) ∧
    ¬ ∀ t t' : SentTerm, t.serialize = t'.serialize → t = t' := by
  constructor
  · intro h
    have hfits := ((exact_iff _ _).mp (h (.leaf (.pid ⟨bytesOf "n@h", 1, 0, 256⟩)))).1
    exact absurd hfits.creation (by decide)
  · intro h
    have hpid := h (.leaf (.pid ⟨bytesOf "n@h", 1, 0, 256⟩))
      (.leaf (.pid ⟨bytesOf "n@h", 1, 0, 0⟩)) rfl
    injection hpid with hleaf
    injection hleaf with hp
    exact absurd (congrArg EPid.creation hp) (by decide)

end SentTerm

end TinchPp
