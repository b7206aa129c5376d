import TinchPp.TermPatterns
import TinchPp.ValuePatterns

/-!
# Reading the bytes of a term

What a pattern does on the bytes of a term is to be what it does on the term, whatever follows the
bytes. For a class that reads its terms, this is a fact about the grammar alone: the terms that the
class knows are read to their end and change the variable as they should, and all the others are
told by their tags. The three patterns of the class follow from that in the same way for all of
them, and so do the lists of its terms that are variables.

## Main definitions

* `Takes` — a matcher does on bytes what a pattern does on the term
* `Decodes` — a class reads its terms and no others

## Main results

* `Decodes.takes_value`, `Decodes.takes_pointer`, `Decodes.takes_any` — the patterns of a class
* `decodes_int`, `decodes_atom`, `decodes_pid`, `decodes_ref`, `decodes_binary`, `decodes_string`
* `decodes_list`, `decodes_intList` — the variables that are lists
-/

namespace TinchPp

open Wire TermMatcher

variable {σ α : Type}

/-! ### On bytes and on terms -/

/-- What an element has left in front of what follows the term. -/
def leftNils (n : ℕ) : MsgSeq := List.replicate n TypeTag.nilExt

theorem leftNils_append_nilExt (n : ℕ) (s : MsgSeq) :
    leftNils n ++ (nilExtG ++ s) = leftNils (n + 1) ++ s := by
  rw [leftNils, leftNils, List.replicate_succ', List.append_assoc, nilExtG]

theorem nilExt_leftNils (n : ℕ) (s : MsgSeq) :
    (binaryToTerm nilExt (leftNils n ++ (nilExtG ++ s)) ()).2.1 = leftNils n ++ s := by
  have hnil : nilExt (TypeTag.nilExt :: (leftNils n ++ s)) () = (some (leftNils n ++ s), ()) :=
    lit_cons_self _ _ _
  rw [leftNils_append_nilExt, leftNils, List.replicate_succ, List.cons_append]
  exact congrArg (fun r => r.2.1) (binaryToTerm_of_some hnil)

/-- On the bytes `enc`, whatever follows them, the one matcher does what the other one does on the
term. -/
def Takes (matcher : Matcher σ) (enc : MsgSeq) (d : TermMatcher σ) : Prop :=
  ∀ s v rest v', matcher (enc ++ s) v = some (true, rest, v') ↔
    ∃ n, d v = some (n, v') ∧ rest = leftNils n ++ s

/-- Nothing is matched that starts with a nil. -/
def StopsAtNil (matcher : Matcher σ) : Prop :=
  ∀ f v rest v', matcher (TypeTag.nilExt :: f) v ≠ some (true, rest, v')

section

variable {matcher : Matcher σ} {enc : MsgSeq} {d : TermMatcher σ} {s rest : MsgSeq} {v v' : σ}
  {n : ℕ} {b : Bool} {bind : σ → σ}

theorem Takes.eq_some (h : Takes matcher enc d) (hd : d v = some (n, v')) (s : MsgSeq) :
    matcher (enc ++ s) v = some (true, leftNils n ++ s, v') :=
  (h s v _ v').mpr ⟨n, hd, rfl⟩

theorem Takes.ne_some (h : Takes matcher enc d) (hd : d v = none) :
    matcher (enc ++ s) v ≠ some (true, rest, v') := by
  intro hmatch
  obtain ⟨n, hd', -⟩ := (h s v rest v').mp hmatch
  rw [hd] at hd'
  cases hd'

theorem takes_fails (h : ∀ s v rest v', matcher (enc ++ s) v ≠ some (true, rest, v')) :
    Takes matcher enc fails := by
  refine fun s v rest v' => iff_of_false (h s v rest v') ?_
  rintro ⟨n, hd, -⟩
  cases hd

theorem takes_takesIf (htrue : b = true → ∀ s v, matcher (enc ++ s) v = some (true, s, bind v))
    (hfalse : b = false → ∀ s v rest v', matcher (enc ++ s) v ≠ some (true, rest, v')) :
    Takes matcher enc (takesIf b bind) := by
  cases b with
  | false => exact takes_fails (hfalse rfl)
  | true =>
    intro s v rest v'
    rw [htrue rfl s v]
    constructor
    · intro h
      cases h
      exact ⟨0, rfl, rfl⟩
    · rintro ⟨n, hd, rfl⟩
      cases hd
      rfl

end

/-! ### Classes that read their terms -/

/-- The terms that the class knows are read as `into` says, and others are not. -/
structure Decodes (read : MsgSeq → α → Bool × MsgSeq × α) (into : Term → Option (α → α)) :
    Prop where
  of_some : ∀ {t : Term} {change : α → α}, t.InWireRange → into t = some change →
    ∀ s a, read (t.enc ++ s) a = (true, s, change a)
  of_none : ∀ {t : Term}, t.InWireRange → into t = none → ∀ s a, (read (t.enc ++ s) a).1 = false

namespace Decodes

variable {read : MsgSeq → α → Bool × MsgSeq × α} {into : Term → Option (α → α)} {t : Term}

theorem takes_pointer (h : Decodes read into) (ht : t.InWireRange) (toAssign : Pointer σ α) :
    Takes (assignThrough read toAssign) t.enc (toAssign.on (into t)) := by
  rcases hinto : into t with _ | change
  · refine takes_fails fun s v rest v' hmatch => ?_
    have hread := h.of_none ht hinto s (toAssign.get v)
    rcases hr : read (t.enc ++ s) (toAssign.get v) with ⟨success, f, a⟩
    rw [hr] at hread
    simp only [assignThrough, hr, Option.some.injEq, Prod.mk.injEq] at hmatch
    exact absurd (hread.symm.trans hmatch.1) Bool.false_ne_true
  · show Takes _ _ (takesIf true fun v => toAssign.set (change (toAssign.get v)) v)
    refine takes_takesIf (fun _ s v => ?_) fun hfalse => absurd hfalse.symm Bool.false_ne_true
    simp only [assignThrough, h.of_some ht hinto s]

theorem takes_any (h : Decodes read into) (ht : t.InWireRange) (init : α) (any : Any σ) :
    Takes (matchAnyThrough read init any) t.enc
      (takesIf (into t).isSome (any.saveMatchedBytes t.enc)) := by
  refine takes_takesIf (fun hsome s v => ?_) fun hnone s v rest v' hmatch => ?_
  · obtain ⟨change, hinto⟩ := Option.isSome_iff_exists.mp hsome
    exact reads_matchAnyThrough (fun s => h.of_some ht hinto s init) [] v s
  · obtain ⟨a, hread⟩ := rest_of_matchAnyThrough hmatch
    have hfalse := h.of_none ht (Option.isNone_iff_eq_none.mp (by simpa using hnone)) s init
    rw [hread] at hfalse
    cases hfalse

/-- A value is compared with what is read into a fresh variable. -/
theorem takes_value [DecidableEq α] (h : Decodes read into) (ht : t.InWireRange) {init val : α}
    {matcher : Matcher σ} (hmatcher : ∀ f v, matcher f v =
      some ((read f init).1 && decide ((read f init).2.2 = val), (read f init).2.1, v)) :
    Takes matcher t.enc
      (takesIf (decide ((into t).map (fun change => change init) = some val)) fun v => v) := by
  refine takes_takesIf (fun htrue s v => ?_) fun hfalse s v rest v' hmatch => ?_
  · obtain ⟨change, hinto, hval⟩ := Option.map_eq_some_iff.mp (of_decide_eq_true htrue)
    rw [hmatcher, h.of_some ht hinto s init, hval, decide_eq_true rfl, Bool.and_self]
  · rw [hmatcher, Option.some_inj, Prod.mk.injEq, Bool.and_eq_true, decide_eq_true_iff] at hmatch
    refine of_decide_eq_false hfalse ?_
    rcases hinto : into t with _ | change
    · rw [h.of_none ht hinto s init] at hmatch
      exact absurd hmatch.1.1 Bool.false_ne_true
    · rw [h.of_some ht hinto s init] at hmatch
      exact congrArg some hmatch.1.2

/-- The three patterns of the class. -/
theorem takes_from [DecidableEq α] (h : Decodes read into) (ht : t.InWireRange) {init : α}
    {ofValue : α → Object σ} {ofPointer : Pointer σ α → Object σ} {ofAny : Any σ → Object σ}
    (hvalue : ∀ val f v, (ofValue val).matchFn f v =
      some ((read f init).1 && decide ((read f init).2.2 = val), (read f init).2.1, v))
    (hpointer : ∀ toAssign, (ofPointer toAssign).matchFn = assignThrough read toAssign)
    (hany : ∀ any, (ofAny any).matchFn = matchAnyThrough read init any) (arg : From σ α) :
    Takes (arg.toObject ofValue ofPointer ofAny).matchFn t.enc (arg.on init (into t) t.enc) := by
  cases arg with
  | value val => exact h.takes_value ht (hvalue val)
  | pointer toAssign => exact hpointer toAssign ▸ h.takes_pointer ht toAssign
  | any o => exact hany o ▸ h.takes_any ht init o

end Decodes

/-! ### The classes -/

/-- The tag that a term starts with. -/
def Term.tag : Term → UInt8
  | smallInteger _ => TypeTag.smallInteger
  | integer _ => TypeTag.integer
  | float _ => TypeTag.floatExt
  | atom _ => TypeTag.atomExt
  | pid _ => TypeTag.pid
  | ref _ => TypeTag.newReferenceExt
  | string _ => TypeTag.stringExt
  | binary _ => TypeTag.binaryExt
  | bitBinary _ => TypeTag.bitBinaryExt
  | tuple _ => TypeTag.smallTuple
  | list [] => TypeTag.nilExt
  | list (_ :: _) => TypeTag.list

theorem Term.exists_enc_eq (t : Term) : ∃ f, t.enc = t.tag :: f := by
  cases t using Term.cases with
  | list ts => cases ts <;> exact ⟨_, rfl⟩
  | _ => exact ⟨_, rfl⟩

/-- A class of terms with tags of its own. -/
theorem Decodes.of_tags {read : MsgSeq → α → Bool × MsgSeq × α} {into : Term → Option (α → α)}
    (tags : List UInt8) (hstop : ∀ c ∉ tags, ∀ f a, (read (c :: f) a).1 = false)
    (htags : ∀ t : Term, t.tag ∈ tags → (into t).isSome)
    (hsome : ∀ {t : Term} {change : α → α}, t.InWireRange → into t = some change →
      ∀ s a, read (t.enc ++ s) a = (true, s, change a)) : Decodes read into where
  of_some := hsome
  of_none {t} _ hinto s a := by
    obtain ⟨f, henc⟩ := t.exists_enc_eq
    have htag : t.tag ∉ tags := fun hmem => by simpa [hinto] using htags t hmem
    rw [henc]
    exact hstop t.tag htag (f ++ s) a

/-- A class with a single tag. -/
theorem Decodes.of_seq_lit {tag : UInt8} {p : Qi α} {into : Term → Option (α → α)}
    (htag : ∀ t : Term, t.tag = tag → (into t).isSome)
    (hsome : ∀ {t : Term} {change : α → α}, t.InWireRange → into t = some change →
      ∀ s a, seq (lit tag) p (t.enc ++ s) a = (some s, change a)) :
    Decodes (binaryToTerm (seq (lit tag) p)) into := by
  refine .of_tags [tag] (fun c hc f a => ?_)
    (fun t ht => htag t (List.mem_singleton.mp ht))
    fun ht hinto s a => binaryToTerm_of_some (hsome ht hinto s a)
  rw [binaryToTerm_of_none (seq_of_none (lit_cons_of_ne (List.ne_of_not_mem_cons hc) f a))]

theorem decodes_int : Decodes (binaryToTerm integer) Term.intoInt := by
  refine .of_tags [TypeTag.smallInteger, TypeTag.integer] (fun c hc f a => ?_)
    (fun t => ?_) fun {t change} _ hinto s a => ?_
  · rw [List.mem_cons, List.mem_singleton, not_or] at hc
    rw [binaryToTerm_of_none (NestedValue.integer_of_ne hc.1 hc.2 f a)]
  · cases t using Term.cases with
    | list ts => cases ts <;> exact of_decide_eq_true rfl
    | _ => exact of_decide_eq_true rfl
  · cases t using Term.cases with
    | smallInteger n =>
      cases hinto
      rw [Term.enc, TermLeaf.enc, binaryToTerm_of_some (integer_of_smallInteger n.toNat s a),
        UInt8.ofNat_toNat]
      rfl
    | integer n =>
      cases hinto
      exact binaryToTerm_of_some (integer_of_integerExt n s a)
    | _ => cases hinto

theorem decodes_atom : Decodes (binaryToTerm atomExt) Term.intoAtom := by
  refine .of_seq_lit (fun t => ?_) fun {t change} ht hinto s a => ?_
  · cases t using Term.cases with
    | list ts => cases ts <;> exact of_decide_eq_true rfl
    | _ => exact of_decide_eq_true rfl
  · cases t using Term.cases with
    | atom name =>
      cases hinto
      exact atomExt_atomExtG ht s a
    | _ => cases hinto

theorem decodes_pid : Decodes (binaryToTerm pidExt) Term.intoPid := by
  refine .of_seq_lit (fun t => ?_) fun {t change} ht hinto s a => ?_
  · cases t using Term.cases with
    | list ts => cases ts <;> exact of_decide_eq_true rfl
    | _ => exact of_decide_eq_true rfl
  · cases t using Term.cases with
    | pid p =>
      cases hinto
      exact pidExt_append ht s a
    | _ => cases hinto

/-- The id goes behind the id that is there, like the name. -/
theorem newReferenceExtP_append {r : NewReferenceType} (h : r.InWireRange) (s : MsgSeq)
    (a : NewReferenceType) : newReferenceExtP (newReferenceExtG r ++ s) a =
      (some s, ⟨a.nodeName ++ r.nodeName, r.creation, a.id ++ r.id⟩) := by
  have hlen : (UInt16.ofNat (r.id.length / 4)).toNat * 4 = r.id.length := by
    rw [UInt16.toNat_ofNat_of_lt' h.idLength]
    have := h.idWords
    omega
  simp only [newReferenceExtP, newReferenceExtG, List.cons_append, List.append_assoc]
  rw [seq_of_some (lit_cons_self _ _ _), andThen_of_some (bigWord_bigWordG h.idLength _ _), hlen,
    seq_of_some (field_of_some (atomExt_atomExtG h.nodeName _ _)),
    seq_of_some (assign_of_some (byte_byteG _ _ _)), toUInt32_ofNat_toNat h.creation,
    field_of_some (chars_append rfl _ _)]

theorem decodes_ref : Decodes (binaryToTerm newReferenceExtP) Term.intoRef := by
  refine .of_seq_lit (fun t => ?_) fun {t change} ht hinto s a => ?_
  · cases t using Term.cases with
    | list ts => cases ts <;> exact of_decide_eq_true rfl
    | _ => exact of_decide_eq_true rfl
  · cases t using Term.cases with
    | ref r =>
      cases hinto
      exact newReferenceExtP_append ht s a
    | _ => cases hinto

theorem decodes_binary : Decodes Binary.read Term.intoBinary := by
  refine .of_tags [TypeTag.binaryExt, TypeTag.bitBinaryExt] (fun c hc f a => ?_)
    (fun t => ?_) fun {t change} ht hinto s a => ?_
  · rw [List.mem_cons, List.mem_singleton, not_or] at hc
    have hbinary : binaryExt (c :: f) a.value = (none, a.value) :=
      seq_of_none (lit_cons_of_ne hc.1 f a.value)
    have hbits : bitBinaryExt (c :: f) a = (none, a) := seq_of_none (lit_cons_of_ne hc.2 f a)
    simp only [Binary.read, binaryToTerm, hbinary, hbits]
  · cases t using Term.cases with
    | list ts => cases ts <;> exact of_decide_eq_true rfl
    | _ => exact of_decide_eq_true rfl
  · cases t using Term.cases with
    | binary value =>
      cases hinto
      rw [Term.enc, TermLeaf.enc, Binary.read,
        binaryToTerm_of_some (binaryExt_binaryExtG ht s a.value)]
    | bitBinary b =>
      cases hinto
      rw [Term.enc, TermLeaf.enc, Binary.read, Binary.binaryToTerm_binaryExt_bitBinaryExtG]
      exact binaryToTerm_of_some (bitBinaryExt_append ht s a)
    | _ => cases hinto

theorem decodes_string : Decodes EString.assignMatched Term.intoString := by
  refine .of_tags [TypeTag.stringExt] (fun c hc f a => ?_)
    (fun t => ?_) fun {t change} ht hinto s a => ?_
  · have hhead : stringHeadExt (c :: f) 0 = (none, 0) :=
      seq_of_none (lit_cons_of_ne (List.ne_of_not_mem_cons hc) f 0)
    simp only [EString.assignMatched, StringMatcher.assignList, binaryToTerm, hhead]
  · cases t using Term.cases with
    | list ts => cases ts <;> exact of_decide_eq_true rfl
    | _ => exact of_decide_eq_true rfl
  · cases t using Term.cases with
    | string str =>
      cases hinto
      exact EString.assignMatched_stringExtG ht s a
    | _ => cases hinto

/-! ### Lists that are variables -/

section

variable {p : Qi α} {into : Term → Option (α → α)} {init : α}

/-- The elements are read one by one. -/
theorem assignElements_encAll (h : Decodes (binaryToTerm p) into) (s : MsgSeq) :
    (ts : List Term) → Term.AllInWireRange ts → (val xs : List α) →
    Term.readEach (fun t => (into t).map fun change => change init) ts = some xs →
      assignElements p init ts.length (Term.encAll ts ++ s) val = (true, s, val ++ xs)
  | [], _, val, xs, hxs => by
    cases hxs
    rw [List.append_nil]
    rfl
  | t :: ts, hts, val, xs, hxs => by
    obtain ⟨x, hx, hmap⟩ := Option.bind_eq_some_iff.mp hxs
    obtain ⟨change, hinto, rfl⟩ := Option.map_eq_some_iff.mp hx
    obtain ⟨xs', hxs', rfl⟩ := Option.map_eq_some_iff.mp hmap
    rw [Term.encAll, List.append_assoc, List.length_cons, assignElements,
      h.of_some hts.1 hinto]
    dsimp only
    rw [assignElements_encAll h s ts hts.2 _ xs' hxs', List.append_assoc, List.singleton_append]

theorem assignElements_encAll_of_none (h : Decodes (binaryToTerm p) into) (s : MsgSeq) :
    (ts : List Term) → Term.AllInWireRange ts → (val : List α) →
    Term.readEach (fun t => (into t).map fun change => change init) ts = none →
      (assignElements p init ts.length (Term.encAll ts ++ s) val).1 = false
  | [], _, _, hxs => by cases hxs
  | t :: ts, hts, val, hxs => by
    rw [Term.encAll, List.append_assoc, List.length_cons, assignElements]
    rcases hinto : into t with _ | change
    · have hread := h.of_none hts.1 hinto (Term.encAll ts ++ s) init
      rcases hr : binaryToTerm p (t.enc ++ (Term.encAll ts ++ s)) init with ⟨success, f, a⟩
      rw [hr] at hread
      cases hread
      rfl
    · rw [h.of_some hts.1 hinto]
      refine assignElements_encAll_of_none h s ts hts.2 _ ?_
      simpa [Term.readEach, hinto] using hxs

/-- Behind the head of a list. -/
theorem assignList_enc {t : Term} {ts : List Term} (hlen : (t :: ts).length < 4294967296)
    {s f : MsgSeq} {val val' : List α} {success : Bool}
    (helements : assignElements p init (t :: ts).length
      (Term.encAll (t :: ts) ++ (nilExtG ++ s)) val = (success, f, val')) :
    ListMatcher.assignList p init ((Term.list (t :: ts)).enc ++ s) val =
      if success then ((binaryToTerm nilExt f ()).1, (binaryToTerm nilExt f ()).2.1, val')
      else (false, f, val') := by
  rw [Term.enc, List.append_assoc, List.append_assoc, ListMatcher.assignList,
    binaryToTerm_of_some (listHeadExt_listHeadG hlen _ 0)]
  dsimp only
  rw [helements]
  cases success with
  | true => rfl
  | false => rfl

/-- What does not start with the tag of a list is no list. -/
theorem assignList_of_ne {c : UInt8} (hc : c ≠ TypeTag.list) (f : MsgSeq) (val : List α) :
    (ListMatcher.assignList p init (c :: f) val).1 = false := by
  have hhead : listHeadExt (c :: f) 0 = (none, 0) := seq_of_none (lit_cons_of_ne hc f 0)
  rw [ListMatcher.assignList, binaryToTerm_of_none hhead]

theorem decodes_list (h : Decodes (binaryToTerm p) into) :
    Decodes (ListMatcher.assignList p init) (Term.intoList into init) where
  of_some {t change} ht hinto s a := by
    obtain ⟨ts, hts, hchange⟩ := Option.bind_eq_some_iff.mp hinto
    obtain ⟨xs, hxs, rfl⟩ := Option.map_eq_some_iff.mp hchange
    cases t using Term.cases with
    | list ts' =>
      cases ts' with
      | nil => cases hts
      | cons t ts' =>
        cases hts
        have hnil : binaryToTerm nilExt (nilExtG ++ s) () = (true, s, ()) :=
          binaryToTerm_of_some (lit_cons_self _ _ _)
        have hall := assignElements_encAll h (nilExtG ++ s) (t :: ts') ht.2 a xs hxs
        rw [assignList_enc ht.1 hall, if_pos rfl, hnil]
    | _ => cases hts
  of_none {t} ht hinto s a := by
    cases t using Term.cases with
    | list ts' =>
      cases ts' with
      | nil => exact assignList_of_ne (by decide) s a
      | cons t ts' =>
        have hnone : (assignElements p init (t :: ts').length
            (Term.encAll (t :: ts') ++ (nilExtG ++ s)) a).1 = false :=
          assignElements_encAll_of_none h (nilExtG ++ s) (t :: ts') ht.2 a
            (by simpa [Term.intoList, Term.listElements] using hinto)
        rcases hr : assignElements p init (t :: ts').length
          (Term.encAll (t :: ts') ++ (nilExtG ++ s)) a with ⟨success, f, val⟩
        rw [hr] at hnone
        cases hnone
        rw [assignList_enc ht.1 hr, if_neg Bool.false_ne_true]
    | _ => exact assignList_of_ne (by decide) _ a

end

/-- A `list<int_>` that is a variable reads lists in both forms. -/
def IntList.read : MsgSeq → List Int32 → Bool × MsgSeq × List Int32
  | [], val => (false, [], val)
  | c :: f, val =>
    if c = TypeTag.stringExt then StringMatcher.assignList (c :: f) val
    else ListMatcher.assignList integer 0 (c :: f) val

theorem Term.exists_list_or (t : Term) :
    (∃ t' ts, t = .list (t' :: ts)) ∨ t.tag ≠ TypeTag.list ∧ t.listElements = none := by
  cases t using Term.cases with
  | list ts =>
    cases ts with
    | nil => exact .inr ⟨of_decide_eq_true rfl, rfl⟩
    | cons t' ts => exact .inl ⟨t', ts, rfl⟩
  | _ => exact .inr ⟨of_decide_eq_true rfl, rfl⟩

theorem IntList.read_of_ne {c : UInt8} (hc : c ≠ TypeTag.stringExt) (f : MsgSeq)
    (val : List Int32) :
    IntList.read (c :: f) val = ListMatcher.assignList integer 0 (c :: f) val :=
  if_neg hc

theorem IntList.read_stringExtG (str : Str) (s : MsgSeq) (val : List Int32) :
    IntList.read (stringExtG str ++ s) val =
      StringMatcher.assignList (stringExtG str ++ s) val := by
  rw [stringExtG, List.cons_append, IntList.read, if_pos rfl]

theorem Term.exists_string_or (t : Term) :
    (∃ str, t = .string str) ∨
      t.tag ≠ TypeTag.stringExt ∧ t.intoIntList = t.intoList intoInt 0 := by
  cases t using Term.cases with
  | string str => exact .inl ⟨str, rfl⟩
  | list ts => cases ts <;> exact .inr ⟨of_decide_eq_true rfl, rfl⟩
  | _ => exact .inr ⟨of_decide_eq_true rfl, rfl⟩

theorem decodes_intList : Decodes IntList.read Term.intoIntList where
  of_some {t change} ht hinto s a := by
    rcases t.exists_string_or with ⟨str, rfl⟩ | ⟨htag, hlist⟩
    · cases hinto
      rw [Term.enc, TermLeaf.enc, IntList.read_stringExtG,
        StringMatcher.assignList_stringExtG ht s a]
    · obtain ⟨f, henc⟩ := t.exists_enc_eq
      have hread := (decodes_list decodes_int).of_some ht (hlist ▸ hinto) s a
      rw [henc, List.cons_append] at hread ⊢
      rw [IntList.read_of_ne htag, hread]
  of_none {t} ht hinto s a := by
    rcases t.exists_string_or with ⟨str, rfl⟩ | ⟨htag, hlist⟩
    · cases hinto
    · obtain ⟨f, henc⟩ := t.exists_enc_eq
      have hread := (decodes_list decodes_int).of_none ht (hlist ▸ hinto) s a
      rw [henc, List.cons_append] at hread ⊢
      rw [IntList.read_of_ne htag, hread]

end TinchPp
