import TinchPp.Values

/-!
# The wildcard

`erl_any.cpp`. An `any` looks at the tag of what it is matched against to find out what is there,
has a pattern of that kind match it, and collects the bytes. Of a tuple and of a list it saves the
head and then matches itself against each of the elements. In the end what has been collected
becomes a matchable of its own, which can be matched against other patterns.

The nil at the end of a list is not part of what is matched, and a nil is not one of the terms that
an `any` knows. So it captures exactly the terms in which there are no lists at any depth, packed
ones excepted.

## Main results

* `AnyObject.matchTerm_enc` — what an `any` makes of an encoded term, whatever follows it
* `AnyObject.captures_iff` — exactly the terms without lists are captured
-/

namespace TinchPp

open Wire

variable {σ : Type}

/-! ### The pattern -/

/-- `any`: the bytes it has collected, and the matchable that it assigns them to. -/
structure AnyObject (σ : Type) where
  matchedRawBytes : Any σ
  toAssign : Pointer σ (Option MsgSeq)
  independent : ∀ m v, matchedRawBytes.get (toAssign.set m v) = matchedRawBytes.get v

/-- The loop over the elements of a tuple or a list. -/
def matchContained (instanceMatch : Matcher σ) : ℕ → Matcher σ
  | 0, f, v => some (true, f, v)
  | n + 1, f, v =>
    match instanceMatch f v with
    | some (true, f, v) => matchContained instanceMatch n f v
    | r => r

theorem matchContained_eq_run (instanceMatch : Matcher σ) (n : ℕ) (f : MsgSeq) (v : σ) :
    matchContained instanceMatch n f v =
      CountedLoop.run (Function.uncurry instanceMatch) n (f, v) := by
  induction n generalizing f v with
  | zero => rfl
  | succ n ih =>
    rw [matchContained, CountedLoop.run, Function.uncurry_apply_pair]
    rcases instanceMatch f v with _ | ⟨_ | _, f', v'⟩
    · rfl
    · rfl
    · exact ih f' v'

namespace AnyObject

variable (o : AnyObject σ) (ndebug : Bool)

/-- Tuples and lists: save the head, and match the elements. That there is a head is asserted,
unless assertions are compiled out. -/
def matchElements (head : Qi ℕ) (instanceMatch : Matcher σ) : Matcher σ := fun f v =>
  match binaryToTerm head f 0 with
  | (true, rest, parsedLength) =>
    matchContained instanceMatch parsedLength rest
      (o.matchedRawBytes.saveMatchedBytes (f.take (f.length - rest.length)) v)
  | (false, rest, _) =>
    if ndebug then
      some (false, rest,
        o.matchedRawBytes.saveMatchedBytes (f.take (f.length - rest.length)) v)
    else none

/-- The match functions of the types, by their tags. -/
def dynamicElementMatcher (instanceMatch : Matcher σ) : List (UInt8 × Matcher σ) :=
  [(TypeTag.smallInteger, (IntObject.ofAny o.matchedRawBytes).matchFn),
    (TypeTag.integer, (IntObject.ofAny o.matchedRawBytes).matchFn),
    (TypeTag.atomExt, (Atom.ofAny o.matchedRawBytes).matchFn),
    (TypeTag.smallTuple, o.matchElements ndebug smallTupleHeadExt instanceMatch),
    (TypeTag.list, o.matchElements ndebug listHeadExt instanceMatch),
    (TypeTag.stringExt, (EString.ofAny o.matchedRawBytes).matchFn),
    (TypeTag.pid, (Pid.ofAny o.matchedRawBytes).matchFn),
    (TypeTag.newReferenceExt, (Ref.ofAny o.matchedRawBytes).matchFn),
    (TypeTag.floatExt, Float_.matchAny o.matchedRawBytes),
    (TypeTag.binaryExt, (Binary.ofAny o.matchedRawBytes).matchFn),
    (TypeTag.bitBinaryExt, (Binary.ofAny o.matchedRawBytes).matchFn)]

/-- A term of another type, or no term at all, is not matched. -/
def matchDynamically (instanceMatch : Matcher σ) : Matcher σ
  | [], v => some (false, [], v)
  | tag :: f, v =>
    match (o.dynamicElementMatcher ndebug instanceMatch).lookup tag with
    | none => some (false, tag :: f, v)
    | some matcher => matcher (tag :: f) v

/-- `match`, for terms that are nested less deeply than this. -/
def matchTerm : ℕ → Matcher σ
  | 0, _, _ => none
  | depth + 1, f, v =>
    match o.matchDynamically ndebug (matchTerm depth) f v with
    | none => none
    | some (res, f, v) => some (res, f, o.toAssign.set (some (o.matchedRawBytes.get v)) v)

/-- `match`. Terms are not nested more deeply than they are long. -/
def matchFn : Matcher σ := fun f v => o.matchTerm ndebug (f.length + 1) f v

/-- There is no implementation of `serialize`, and nothing is written. -/
def toObject : Object σ := ⟨[], o.matchFn ndebug⟩

end AnyObject

/-- `matchable_seq::match` -/
def matchableSeqMatch (matchableMsg : MsgSeq) (pattern : Object σ) (v : σ) : Option (Bool × σ) :=
  (pattern.matchFn matchableMsg v).map fun r => (r.1, r.2.2)

/-! ### Terms -/

/-- The leaves of what can be decoded. The bytes tell two forms of integers apart, and they have the
text of a float. -/
inductive TermLeaf
  | smallInteger (n : UInt8)
  | integer (n : Int32)
  | float (digits : Str)
  | atom (name : Str)
  | pid (p : EPid)
  | ref (r : NewReferenceType)
  | string (str : Str)
  | binary (value : MsgSeq)
  | bitBinary (b : BinaryValueType)

namespace TermLeaf

/-- A leaf in external form. -/
def enc : TermLeaf → MsgSeq
  | smallInteger n => smallIntegerG n.toNat
  | integer n => integerExtG n
  | float digits => TypeTag.floatExt :: digits
  | atom name => atomExtG name
  | pid p => pidExtG p
  | ref r => newReferenceExtG r
  | string str => stringExtG str
  | binary value => binaryExtG value
  | bitBinary b => bitBinaryExtG b

def InWireRange : TermLeaf → Prop
  | smallInteger _ | integer _ => True
  | float digits => digits.length = Constants.floatDigits
  | atom name => name.length < 65536
  | pid p => p.InWireRange
  | ref r => r.InWireRange
  | string str => str.length < 65536
  | binary value => value.length < 4294967296
  | bitBinary b => b.value.length < 4294967296

end TermLeaf

/-- The terms that can be decoded. -/
abbrev Term := Nested Compound TermLeaf

namespace Term

@[match_pattern] abbrev smallInteger (n : UInt8) : Term := .leaf (.smallInteger n)
@[match_pattern] abbrev integer (n : Int32) : Term := .leaf (.integer n)
@[match_pattern] abbrev float (digits : Str) : Term := .leaf (.float digits)
@[match_pattern] abbrev atom (name : Str) : Term := .leaf (.atom name)
@[match_pattern] abbrev pid (p : EPid) : Term := .leaf (.pid p)
@[match_pattern] abbrev ref (r : NewReferenceType) : Term := .leaf (.ref r)
@[match_pattern] abbrev string (str : Str) : Term := .leaf (.string str)
@[match_pattern] abbrev binary (value : MsgSeq) : Term := .leaf (.binary value)
@[match_pattern] abbrev bitBinary (b : BinaryValueType) : Term := .leaf (.bitBinary b)
@[match_pattern] abbrev tuple (ts : List Term) : Term := .node .tuple ts
@[match_pattern] abbrev list (ts : List Term) : Term := .node .list ts

/-- One case for each kind of term. -/
@[elab_as_elim]
theorem cases {motive : Term → Prop} (smallInteger : ∀ n, motive (smallInteger n))
    (integer : ∀ n, motive (integer n)) (float : ∀ digits, motive (float digits))
    (atom : ∀ name, motive (atom name)) (pid : ∀ p, motive (pid p)) (ref : ∀ r, motive (ref r))
    (string : ∀ str, motive (string str)) (binary : ∀ value, motive (binary value))
    (bitBinary : ∀ b, motive (bitBinary b)) (tuple : ∀ ts, motive (tuple ts))
    (list : ∀ ts, motive (list ts)) (t : Term) : motive t :=
  match t with
  | .smallInteger n => smallInteger n
  | .integer n => integer n
  | .float digits => float digits
  | .atom name => atom name
  | .pid p => pid p
  | .ref r => ref r
  | .string str => string str
  | .binary value => binary value
  | .bitBinary b => bitBinary b
  | .tuple ts => tuple ts
  | .list ts => list ts

mutual

/-- A term in external form. The empty list is a nil. -/
def enc : Term → MsgSeq
  | .leaf a => a.enc
  | tuple ts => smallTupleHeadG ts.length ++ encAll ts
  | list [] => nilExtG
  | list (t :: ts) => listHeadG (t :: ts).length ++ encAll (t :: ts) ++ nilExtG

def encAll : List Term → MsgSeq
  | [] => []
  | t :: ts => enc t ++ encAll ts

end

/-- The terms that fit the wire. -/
def InWireRange (t : Term) : Prop := t.All TermLeaf.InWireRange Compound.Fits

def AllInWireRange (ts : List Term) : Prop := Nested.AllEach TermLeaf.InWireRange Compound.Fits ts

mutual

/-- There is no list in the term, empty or not. -/
def Listless : Term → Prop
  | tuple ts => AllListless ts
  | list _ => False
  | _ => True

def AllListless : List Term → Prop
  | [] => True
  | t :: ts => Listless t ∧ AllListless ts

end

end Term

/-! ### What an `any` makes of a term -/

namespace AnyObject

variable {o : AnyObject σ} {ndebug : Bool}

/-- On `enc`, followed by `s`: it is collected if there are no lists in it. Otherwise the match
fails, or it ends in front of a nil. -/
def Made (o : AnyObject σ) (listless : Prop) (enc s : MsgSeq) (v : σ)
    (r : Option (Bool × MsgSeq × σ)) : Prop :=
  ∃ success rest v', r = some (success, rest, v') ∧
    (listless → success = true ∧ rest = s ∧
      o.matchedRawBytes.get v' = o.matchedRawBytes.get v ++ enc) ∧
    (¬ listless → success = true → ∃ w, rest = TypeTag.nilExt :: (w ++ s))

theorem Made.of_reads (obj : Object σ) {listless : Prop} {enc : MsgSeq} {v : σ}
    (h : obj.Reads enc v (o.matchedRawBytes.saveMatchedBytes enc v)) (hlistless : listless)
    (s : MsgSeq) : o.Made listless enc s v (obj.matchFn (enc ++ s) v) :=
  ⟨true, s, _, h s, fun _ => ⟨rfl, rfl, o.matchedRawBytes.get_set _ _⟩,
    fun hnot => absurd hlistless hnot⟩

/-- The match function of the type does the work. -/
theorem Made.of_lookup {listless : Prop} {tag : UInt8} {enc s : MsgSeq} {v : σ} {depth : ℕ}
    {matcher : Matcher σ}
    (hlookup : (o.dynamicElementMatcher ndebug (o.matchTerm ndebug depth)).lookup tag =
      some matcher)
    (h : o.Made listless (tag :: enc) s v (matcher (tag :: enc ++ s) v)) :
    o.Made listless (tag :: enc) s v
      (o.matchTerm ndebug (depth + 1) (tag :: enc ++ s) v) := by
  obtain ⟨success, rest, v', hmatch, hyes, hno⟩ := h
  refine ⟨success, rest, o.toAssign.set (some (o.matchedRawBytes.get v')) v', ?_, ?_, hno⟩
  · rw [List.cons_append] at hmatch ⊢
    simp only [matchTerm, matchDynamically, hlookup, hmatch]
  · intro hlistless
    rw [o.independent]
    exact hyes hlistless

/-- Nothing starts with the tag of a nil. -/
theorem matchTerm_nil (o : AnyObject σ) (ndebug : Bool) (depth : ℕ) (s : MsgSeq) (v : σ) :
    ∃ v', o.matchTerm ndebug (depth + 1) (TypeTag.nilExt :: s) v =
      some (false, TypeTag.nilExt :: s, v') :=
  ⟨_, rfl⟩

/-- And so it stays in front, however many elements are to come. -/
theorem matchContained_nil (o : AnyObject σ) (ndebug : Bool) (n depth : ℕ) (s : MsgSeq) (v : σ) :
    ∃ success v', matchContained (o.matchTerm ndebug (depth + 1)) n (TypeTag.nilExt :: s) v =
      some (success, TypeTag.nilExt :: s, v') := by
  cases n with
  | zero => exact ⟨true, v, rfl⟩
  | succ n =>
    obtain ⟨v', hnil⟩ := matchTerm_nil o ndebug depth s v
    exact ⟨false, v', by rw [matchContained, hnil]⟩

/-- The elements, behind a head. -/
theorem Made.elements {listless : Prop} {head : Qi ℕ} {headG contents : MsgSeq} {n : ℕ}
    (hhead : ∀ s, head (headG ++ s) 0 = (some s, n)) {instanceMatch : Matcher σ} {s : MsgSeq}
    {v : σ}
    (h : ∀ v, o.Made listless contents s v (matchContained instanceMatch n (contents ++ s) v)) :
    o.Made listless (headG ++ contents) s v
      (o.matchElements ndebug head instanceMatch (headG ++ contents ++ s) v) := by
  have htake : (headG ++ (contents ++ s)).take
      ((headG ++ (contents ++ s)).length - (contents ++ s).length) = headG := by
    rw [List.length_append, Nat.add_sub_cancel, List.take_left]
  obtain ⟨success, rest, v', hmatch, hyes, hno⟩ :=
    h (o.matchedRawBytes.saveMatchedBytes headG v)
  refine ⟨success, rest, v', ?_, ?_, hno⟩
  · rw [matchElements, List.append_assoc, binaryToTerm_of_some (hhead _)]
    dsimp only
    rw [htake, hmatch]
  · intro hlistless
    obtain ⟨hsuccess, hrest, hbytes⟩ := hyes hlistless
    refine ⟨hsuccess, hrest, ?_⟩
    rw [hbytes, Any.saveMatchedBytes, o.matchedRawBytes.get_set, List.append_assoc]

/-- A list is left in front of its nil. -/
theorem Made.list {listless : Prop} {enc s : MsgSeq} {v : σ} {r : Option (Bool × MsgSeq × σ)}
    (h : o.Made listless enc (nilExtG ++ s) v r) : o.Made False (enc ++ nilExtG) s v r := by
  obtain ⟨success, rest, v', hr, hyes, hno⟩ := h
  refine ⟨success, rest, v', hr, False.elim, fun _ hsuccess => ?_⟩
  by_cases hlistless : listless
  · exact ⟨[], (hyes hlistless).2.1⟩
  · obtain ⟨w, hrest⟩ := hno hlistless hsuccess
    exact ⟨w ++ nilExtG, by rw [hrest, List.append_assoc]⟩

theorem enc_ne_nil (t : Term) : t.enc ≠ [] := by
  cases t using Term.cases with
  | list ts => cases ts <;> simp [Term.enc, listHeadG, nilExtG]
  | _ => simp [Term.enc, TermLeaf.enc, smallIntegerG, integerExtG, atomExtG, pidExtG,
      newReferenceExtG, stringExtG, binaryExtG, bitBinaryExtG, smallTupleHeadG]

mutual

/-- **What an `any` makes of an encoded term**, along the term. -/
theorem matchTerm_enc : (t : Term) → t.InWireRange → (depth : ℕ) → t.enc.length ≤ depth + 1 →
    (s : MsgSeq) → (v : σ) →
    o.Made t.Listless t.enc s v (o.matchTerm ndebug (depth + 1) (t.enc ++ s) v)
  | .smallInteger n, _, _, _, s, v =>
    .of_lookup rfl <| .of_reads (IntObject.ofAny o.matchedRawBytes).toObject
      (reads_matchAny (fun s => integer_of_smallInteger n.toNat s 0) _ v) trivial s
  | .integer n, _, _, _, s, v =>
    .of_lookup rfl <| .of_reads (IntObject.ofAny o.matchedRawBytes).toObject
      (reads_matchAny (fun s => integer_of_integerExt n s 0) _ v) trivial s
  | .float digits, hwire, _, _, s, v =>
    .of_lookup rfl <| .of_reads ⟨[], Float_.matchAny o.matchedRawBytes⟩
      (reads_matchAny (fun s => floatExt_cons hwire s []) _ v) trivial s
  | .atom name, hwire, _, _, s, v =>
    .of_lookup rfl <| .of_reads _ (Atom.reads_ofAny hwire o.matchedRawBytes v) trivial s
  | .pid p, hwire, _, _, s, v =>
    .of_lookup rfl <| .of_reads _ (Pid.reads_ofAny hwire o.matchedRawBytes v) trivial s
  | .ref r, hwire, _, _, s, v =>
    .of_lookup rfl <| .of_reads _ (Ref.reads_ofAny hwire o.matchedRawBytes v) trivial s
  | .string str, hwire, _, _, s, v =>
    .of_lookup rfl <| .of_reads (EString.ofAny o.matchedRawBytes)
      (reads_matchAnyThrough (fun s => EString.assignMatched_stringExtG hwire s []) _ v) trivial s
  | .binary value, hwire, _, _, s, v =>
    .of_lookup rfl <| .of_reads (Binary.ofAny o.matchedRawBytes)
      (reads_matchAnyThrough (fun s => Binary.read_binaryExtG hwire s) _ v) trivial s
  | .bitBinary b, hwire, _, _, s, v =>
    .of_lookup rfl <| .of_reads (Binary.ofAny o.matchedRawBytes)
      (reads_matchAnyThrough (fun s => Binary.read_bitBinaryExtG hwire s) _ v) trivial s
  | .tuple ts, hwire, depth, hdepth, s, v => by
    have hlen : (Term.encAll ts).length ≤ depth := by
      simp [Term.enc, smallTupleHeadG] at hdepth
      omega
    exact .of_lookup rfl <|
      .elements (fun s => smallTupleHeadExt_smallTupleHeadG hwire.1 s 0)
        fun v => matchContained_encAll ts hwire.2 depth hlen s v
  | .list [], _, depth, _, s, v => by
    obtain ⟨v', hnil⟩ := matchTerm_nil o ndebug depth s v
    exact ⟨false, _, v', hnil, False.elim, nofun⟩
  | .list (t :: ts), hwire, depth, hdepth, s, v => by
    have hlen : (Term.encAll (t :: ts)).length ≤ depth := by
      simp [Term.enc, listHeadG] at hdepth
      omega
    rw [Term.enc, List.append_assoc (listHeadG _ ++ _) nilExtG s]
    exact .list (.of_lookup rfl <| .elements (fun s => listHeadExt_listHeadG hwire.1 s 0)
      fun v => matchContained_encAll (t :: ts) hwire.2 depth hlen (nilExtG ++ s) v)

/-- Element by element. Behind an element that ends in front of a nil there is nothing more to
match, or the match fails. -/
theorem matchContained_encAll : (ts : List Term) → Term.AllInWireRange ts → (depth : ℕ) →
    (Term.encAll ts).length ≤ depth → (s : MsgSeq) → (v : σ) →
    o.Made (Term.AllListless ts) (Term.encAll ts) s v
      (matchContained (o.matchTerm ndebug depth) ts.length (Term.encAll ts ++ s) v)
  | [], _, _, _, s, v =>
    ⟨true, s, v, rfl, fun _ => ⟨rfl, rfl, (List.append_nil _).symm⟩,
      fun hnot => absurd trivial hnot⟩
  | t :: ts, hwire, 0, hdepth, s, v => by
    have henc : t.enc ++ Term.encAll ts = [] := List.length_eq_zero_iff.mp (Nat.le_zero.mp hdepth)
    exact absurd (List.append_eq_nil_iff.mp henc).1 (enc_ne_nil t)
  | t :: ts, hwire, depth + 1, hdepth, s, v => by
    rw [Term.encAll, List.length_append] at hdepth
    obtain ⟨success, rest, v', hmatch, hyes, hno⟩ :=
      matchTerm_enc t hwire.1 depth (by omega) (Term.encAll ts ++ s) v
    rw [Term.encAll, List.length_cons, List.append_assoc, matchContained, hmatch]
    cases success with
    | false => exact ⟨false, rest, v', rfl, fun hall => absurd (hyes hall.1).1 nofun, nofun⟩
    | true =>
      by_cases hlistless : t.Listless
      · obtain ⟨-, rfl, hbytes⟩ := hyes hlistless
        obtain ⟨success, rest, v'', hmatch', hyes', hno'⟩ :=
          matchContained_encAll ts hwire.2 (depth + 1) (by omega) s v'
        refine ⟨success, rest, v'', hmatch', fun hall => ?_, fun hnot =>
          hno' fun hall => hnot ⟨hlistless, hall⟩⟩
        obtain ⟨hsuccess, hrest, hbytes'⟩ := hyes' hall.2
        exact ⟨hsuccess, hrest, by rw [hbytes', hbytes, List.append_assoc]⟩
      · obtain ⟨w, rfl⟩ := hno hlistless rfl
        obtain ⟨success, v'', hmatch'⟩ := matchContained_nil o ndebug ts.length depth
          (w ++ (Term.encAll ts ++ s)) v'
        exact ⟨success, _, v'', hmatch', fun hall => absurd hall.1 hlistless,
          fun _ _ => ⟨w ++ Term.encAll ts, by rw [List.append_assoc]⟩⟩

end

/-! ### What is captured -/

/-- A wildcard captures exactly one term: on its encoding, followed by any other bytes, the match
succeeds and ends where the encoding does, and a matchable `m` has been assigned that holds exactly
those bytes, so that it cannot be told from them by another pattern. -/
def Captures (o : AnyObject σ) (ndebug : Bool) (t : Term) (v : σ) : Prop :=
  ∀ s, ∃ m v', o.matchFn ndebug (t.enc ++ s) v = some (true, s, v') ∧
    o.toAssign.get v' = some m ∧ m = t.enc ∧
    ∀ {τ : Type} (pattern : Object τ) (w : τ),
      matchableSeqMatch m pattern w = matchableSeqMatch t.enc pattern w

/-- What has been collected is what is assigned. -/
theorem toAssign_matchTerm {depth : ℕ} {f rest : MsgSeq} {v v' : σ} {res : Bool}
    (h : o.matchTerm ndebug (depth + 1) f v = some (res, rest, v')) :
    o.toAssign.get v' = some (o.matchedRawBytes.get v') := by
  rw [matchTerm] at h
  split at h
  · cases h
  · cases h
    rw [o.toAssign.get_set, o.independent]

/-- **A fresh `any` captures exactly the terms without lists.** -/
theorem captures_iff {t : Term} (hwire : t.InWireRange) (o : AnyObject σ) (ndebug : Bool) {v : σ}
    (hfresh : o.matchedRawBytes.get v = []) : o.Captures ndebug t v ↔ t.Listless := by
  have hmade (s : MsgSeq) : o.Made t.Listless t.enc s v (o.matchFn ndebug (t.enc ++ s) v) :=
    matchTerm_enc t hwire _ (by rw [List.length_append]; omega) s v
  constructor
  · intro hcaptures
    by_contra hlist
    obtain ⟨m, v', hmatch, -⟩ := hcaptures []
    obtain ⟨success, rest, v'', hmatch', -, hno⟩ := hmade []
    rw [hmatch, Option.some_inj, Prod.mk.injEq, Prod.mk.injEq] at hmatch'
    obtain ⟨rfl, rfl, -⟩ := hmatch'
    obtain ⟨w, hrest⟩ := hno hlist rfl
    exact absurd hrest (by simp)
  · intro hlistless s
    obtain ⟨success, rest, v', hmatch, hyes, -⟩ := hmade s
    obtain ⟨rfl, rfl, hbytes⟩ := hyes hlistless
    rw [hfresh, List.nil_append] at hbytes
    refine ⟨t.enc, v', hmatch, ?_, rfl, fun _ _ => rfl⟩
    rw [toAssign_matchTerm hmatch, hbytes]

end AnyObject

/-- The memory of one `any` and of what it is assigned to. -/
structure AnyVars where
  matchedRawBytes : MsgSeq
  toAssign : Option MsgSeq

namespace AnyVars

def any : AnyObject AnyVars where
  matchedRawBytes :=
    ⟨AnyVars.matchedRawBytes, fun m v => { v with matchedRawBytes := m }, fun _ _ => rfl⟩
  toAssign := ⟨AnyVars.toAssign, fun m v => { v with toAssign := m }, fun _ _ => rfl⟩
  independent _ _ := rfl

/-- The tuple `{1000}` is captured. -/
theorem captures_thousand : any.Captures false (.tuple [.integer 1000]) ⟨[], none⟩ := by
  have hwire : (Term.tuple [.integer 1000]).InWireRange := by
    simp [Term.InWireRange, TermLeaf.InWireRange, Compound.Fits]
  exact (AnyObject.captures_iff hwire any false rfl).mpr (by simp [Term.Listless, Term.AllListless])

/-- The empty list is not, and neither is the list `[1000]`, whose nil is left over. -/
theorem not_captures_lists : ¬ any.Captures false (.list []) ⟨[], none⟩ ∧
    ¬ any.Captures false (.list [.integer 1000]) ⟨[], none⟩ := by
  constructor
  · intro h
    obtain ⟨m, v', hmatch, -⟩ := h []
    have hsuccess : some false = some true := congrArg (Option.map Prod.fst) hmatch
    exact absurd hsuccess (by decide)
  · intro h
    obtain ⟨m, v', hmatch, -⟩ := h []
    have hrest : some [TypeTag.nilExt] = some [] :=
      congrArg (Option.map fun r => Prod.fst (Prod.snd r)) hmatch
    exact absurd hrest (by decide)

end AnyVars

end TinchPp
