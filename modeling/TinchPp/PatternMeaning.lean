import TinchPp.TermDecoding

/-!
# A pattern on bytes does what it does on terms

A pattern never sees a term. It goes over the bytes, and where the elements of a tuple or a list end
is known only from how far the patterns of the elements have come. That this gives what the pattern
makes of the term is shown for each of the patterns, and for all that can stand behind the term.

The one thing that goes wrong are the nils that an `any` leaves. They are in front of what comes
next, and nothing that is matched next goes past one, since it looks like the empty list, which no
pattern takes. So a match fails if there is something next, and otherwise it ends too early. How
many nils are left can be told from the pattern and the term: those that end what the last `any` has
taken.

## Main results

* `TakesEach.matchAll` — elements, one after the other, on their bytes
* `AnyObject.takes_matchTerm` — an `any`
* `Pattern.takes`, `Pattern.matchFn_iff_on` — every pattern
* `Pattern.on_eq_nilsBehind`, `Pattern.rest_of_matched` — what is left over
* `AnyObject.exists_matched_iff` — the terms that an `any` takes
-/

namespace TinchPp

open Wire TermMatcher

variable {σ α : Type}

/-! ### One element after the other -/

/-- Patterns for the elements of a tuple or a list, and what they make of terms. -/
inductive TakesEach : List (Object σ) → List Term → List (TermMatcher σ) → Prop
  | nil : TakesEach [] [] []
  | cons {obj : Object σ} {objs : List (Object σ)} {t : Term} {ts : List Term} {d : TermMatcher σ}
      {ds : List (TermMatcher σ)} (head : Takes obj.matchFn t.enc d)
      (stops : StopsAtNil obj.matchFn) (tail : TakesEach objs ts ds) :
      TakesEach (obj :: objs) (t :: ts) (d :: ds)

section

variable {obj : Object σ} {objs : List (Object σ)} {f f' rest : MsgSeq} {v v' v'' : σ}

theorem matchAll_cons_of_true (h : obj.matchFn f v = some (true, f', v')) :
    ETuple.matchAll (obj :: objs) f v = ETuple.matchAll objs f' v' := by
  rw [ETuple.matchAll, h]

theorem matchAll_cons_ne (h : ∀ f' v', obj.matchFn f v ≠ some (true, f', v')) :
    ETuple.matchAll (obj :: objs) f v ≠ some (true, rest, v'') := by
  rw [ETuple.matchAll]
  rcases hobj : obj.matchFn f v with _ | ⟨_ | _, f', v'⟩
  · intro h
    cases h
  · intro h
    cases h
  · exact absurd hobj (h f' v')

end

/-- **One element after the other**: the ones behind a nil that has been left do not match. -/
theorem TakesEach.matchAll {objs : List (Object σ)} {ts : List Term} {ds : List (TermMatcher σ)}
    (h : TakesEach objs ts ds) : Takes (ETuple.matchAll objs) (Term.encAll ts) (inSequence ds) := by
  induction h with
  | nil =>
    intro s v rest v'
    constructor
    · intro hmatch
      cases hmatch
      exact ⟨0, rfl, rfl⟩
    · rintro ⟨n, hd, rfl⟩
      cases hd
      rfl
  | @cons obj objs t ts d ds head stops tail ih =>
    intro s v rest v'
    rw [Term.encAll, List.append_assoc]
    cases tail with
    | nil =>
      -- the last one may leave nils
      have hlast : ETuple.matchAll [obj] (t.enc ++ s) v = obj.matchFn (t.enc ++ s) v := by
        rw [ETuple.matchAll]
        rcases obj.matchFn (t.enc ++ s) v with _ | ⟨_ | _, f, v₁⟩ <;> rfl
      rw [Term.encAll, List.nil_append, hlast, head s v rest v', inSequence]
    | @cons obj' objs' t' ts' d' ds' _ stops' _ =>
      rcases hd : d v with _ | ⟨_ | n, v₁⟩
      · refine iff_of_false (matchAll_cons_ne fun f' v' => head.ne_some hd) ?_
        simp [inSequence, hd]
      · rw [matchAll_cons_of_true (head.eq_some hd _)]
        simp only [inSequence, hd]
        exact ih s v₁ rest v'
      · rw [matchAll_cons_of_true (head.eq_some hd _)]
        refine iff_of_false (matchAll_cons_ne fun f' v' => stops' _ v₁ f' v') ?_
        simp [inSequence, hd]

/-- What fails on a nil does not go past it. -/
theorem Takes.stopsAtNil {matcher : Matcher σ} {d : TermMatcher σ}
    (h : Takes matcher (Term.list []).enc d) (hd : ∀ v, d v = none) : StopsAtNil matcher :=
  fun f v _ _ => h.ne_some (s := f) (hd v)

section

variable {objs : List (Object σ)} {t : Term} {ts : List Term} {ds : List (TermMatcher σ)}

/-- A tuple of as many elements. -/
theorem takes_tuple (hlen : ts.length < 256)
    (h : objs.length = ts.length → TakesEach objs ts ds) :
    Takes (ETuple.matchFn objs) (Term.tuple ts).enc (inOrder objs.length ts ds) := by
  have hmatch (s : MsgSeq) (v : σ) : ETuple.matchFn objs ((Term.tuple ts).enc ++ s) v =
      if objs.length = ts.length then ETuple.matchAll objs (Term.encAll ts ++ s) v
      else some (false, Term.encAll ts ++ s, v) := by
    rw [Term.enc, List.append_assoc, ETuple.matchFn,
      binaryToTerm_of_some (smallTupleHeadExt_smallTupleHeadG hlen _ 0)]
    simp only [Bool.true_and, decide_eq_true_eq]
  by_cases heq : objs.length = ts.length
  · intro s v rest v'
    rw [hmatch, if_pos heq, inOrder, if_pos heq]
    exact (h heq).matchAll s v rest v'
  · rw [inOrder, if_neg heq]
    refine takes_fails fun s v rest v' => ?_
    rw [hmatch, if_neg heq]
    intro h
    cases h

/-- A list of as many elements. One of the nils behind them is gone past. -/
theorem takes_list (hlen : (t :: ts).length < 4294967296)
    (h : objs.length = (t :: ts).length → TakesEach objs (t :: ts) ds) :
    Takes (ListMatcher.matchFn objs) (Term.list (t :: ts)).enc
      (inOrder objs.length (t :: ts) ds) := by
  have hmatch (s : MsgSeq) (v : σ) : ListMatcher.matchFn objs ((Term.list (t :: ts)).enc ++ s) v =
      (if objs.length = (t :: ts).length then
        ETuple.matchAll objs (Term.encAll (t :: ts) ++ (nilExtG ++ s)) v
      else some (false, Term.encAll (t :: ts) ++ (nilExtG ++ s), v)).map fun r =>
        (r.1, (binaryToTerm nilExt r.2.1 ()).2.1, r.2.2) := by
    rw [Term.enc, List.append_assoc, List.append_assoc, ListMatcher.matchFn,
      binaryToTerm_of_some (listHeadExt_listHeadG hlen _ 0)]
    simp only [Bool.true_and, decide_eq_true_eq]
    split
    · next hnone => rw [hnone, Option.map_none]
    · next hsome => rw [hsome, Option.map_some]
  by_cases heq : objs.length = (t :: ts).length
  · intro s v rest v'
    have hall := (h heq).matchAll (nilExtG ++ s) v
    rw [hmatch, if_pos heq, inOrder, if_pos heq]
    constructor
    · intro hlist
      obtain ⟨⟨matched, f, v₁⟩, hmatched, hend⟩ := Option.map_eq_some_iff.mp hlist
      cases hend
      obtain ⟨n, hd, rfl⟩ := (hall f _).mp hmatched
      exact ⟨n, hd, nilExt_leftNils n s⟩
    · rintro ⟨n, hd, rfl⟩
      rw [(hall _ v').mpr ⟨n, hd, rfl⟩, Option.map_some, nilExt_leftNils]
  · rw [inOrder, if_neg heq]
    refine takes_fails fun s v rest v' => ?_
    rw [hmatch, if_neg heq]
    intro h
    cases h

end

/-! ### Wildcards -/

/-- The loop over the elements is that of a tuple, with the same pattern in every place. -/
theorem matchContained_eq_matchAll (instanceMatch : Matcher σ) (n : ℕ) (f : MsgSeq) (v : σ) :
    matchContained instanceMatch n f v =
      ETuple.matchAll (List.replicate n ⟨[], instanceMatch⟩) f v := by
  induction n generalizing f v with
  | zero => rfl
  | succ n ih =>
    rcases hmatch : instanceMatch f v with _ | ⟨_ | _, f', v'⟩
    · simp only [matchContained, List.replicate_succ, ETuple.matchAll, hmatch]
    · simp only [matchContained, List.replicate_succ, ETuple.matchAll, hmatch]
    · simp only [matchContained, List.replicate_succ, ETuple.matchAll, hmatch]
      exact ih f' v'

namespace AnyObject

variable {o : AnyObject σ} {ndebug : Bool} {depth : ℕ} {enc headG : MsgSeq} {d : TermMatcher σ}

/-- The match function of the type does the work, and what has been collected is assigned. -/
theorem takes_assigning {tag : UInt8} {matcher : Matcher σ}
    (hlookup : (o.dynamicElementMatcher ndebug (o.matchTerm ndebug depth)).lookup tag =
      some matcher)
    (h : Takes matcher (tag :: enc) d) :
    Takes (o.matchTerm ndebug (depth + 1)) (tag :: enc) (o.assigning d) := by
  intro s v rest v'
  have hmatch : o.matchTerm ndebug (depth + 1) (tag :: enc ++ s) v =
      (matcher (tag :: enc ++ s) v).map fun r =>
        (r.1, r.2.1, o.toAssign.set (some (o.matchedRawBytes.get r.2.2)) r.2.2) := by
    rw [List.cons_append, matchTerm, matchDynamically, hlookup]
    dsimp only
    rcases matcher (tag :: (enc ++ s)) v with _ | ⟨res, f, v₁⟩ <;> rfl
  rw [hmatch]
  constructor
  · intro hmatched
    obtain ⟨⟨res, f, v₁⟩, hres, hend⟩ := Option.map_eq_some_iff.mp hmatched
    cases hend
    obtain ⟨n, hd, rfl⟩ := (h s v f v₁).mp hres
    exact ⟨n, by rw [assigning, hd, Option.map_some], rfl⟩
  · rintro ⟨n, hd, rfl⟩
    obtain ⟨⟨n', v₁⟩, hd', hend⟩ := Option.map_eq_some_iff.mp hd
    cases hend
    rw [(h s v _ v₁).mpr ⟨n', hd', rfl⟩, Option.map_some]

/-- The head is saved. -/
theorem takes_elements {head : Qi ℕ} {instanceMatch : Matcher σ} {ts : List Term}
    {ds : List (TermMatcher σ)} (hhead : ∀ s, head (headG ++ s) 0 = (some s, ts.length))
    (h : TakesEach (List.replicate ts.length ⟨[], instanceMatch⟩) ts ds) :
    Takes (o.matchElements ndebug head instanceMatch) (headG ++ Term.encAll ts) fun v =>
      inSequence ds (o.matchedRawBytes.saveMatchedBytes headG v) := by
  intro s v rest v'
  have htake : (headG ++ (Term.encAll ts ++ s)).take
      ((headG ++ (Term.encAll ts ++ s)).length - (Term.encAll ts ++ s).length) = headG := by
    rw [List.length_append, Nat.add_sub_cancel, List.take_left]
  rw [matchElements, List.append_assoc, binaryToTerm_of_some (hhead _)]
  dsimp only
  rw [htake, matchContained_eq_matchAll]
  exact h.matchAll s _ rest v'

/-- A leaf: all of it is saved. -/
theorem takes_leaf (obj : Object σ) {tag : UInt8}
    (hlookup : (o.dynamicElementMatcher ndebug (o.matchTerm ndebug depth)).lookup tag =
      some obj.matchFn)
    (h : ∀ v, obj.Reads (tag :: enc) v (o.matchedRawBytes.saveMatchedBytes (tag :: enc) v)) :
    Takes (o.matchTerm ndebug (depth + 1)) (tag :: enc)
      (o.assigning (takesIf true (o.matchedRawBytes.saveMatchedBytes (tag :: enc)))) :=
  takes_assigning hlookup (takes_takesIf (fun _ s v => h v s) fun hfalse =>
    absurd hfalse.symm Bool.false_ne_true)

/-- Nothing starts with the tag of a nil. -/
theorem stopsAtNil_matchTerm (o : AnyObject σ) (ndebug : Bool) (depth : ℕ) :
    StopsAtNil (o.matchTerm ndebug depth) := by
  intro f v rest v' hmatch
  cases depth with
  | zero => cases hmatch
  | succ depth =>
    obtain ⟨v₁, hnil⟩ := matchTerm_nil o ndebug depth f v
    rw [hnil] at hmatch
    cases hmatch

/-- In front of the nil of a list. -/
theorem takes_list {matcher : Matcher σ} (h : Takes matcher enc d) :
    Takes matcher (enc ++ nilExtG) fun v => (d v).map fun r => (r.1 + 1, r.2) := by
  intro s v rest v'
  rw [List.append_assoc, h (nilExtG ++ s) v rest v']
  constructor
  · rintro ⟨n, hd, rfl⟩
    exact ⟨n + 1, Option.map_eq_some_iff.mpr ⟨_, hd, rfl⟩, leftNils_append_nilExt n s⟩
  · rintro ⟨n, hd, rfl⟩
    obtain ⟨⟨n', v₁⟩, hd', hend⟩ := Option.map_eq_some_iff.mp hd
    cases hend
    exact ⟨n', hd', (leftNils_append_nilExt n' s).symm⟩

mutual

/-- **What an `any` makes of an encoded term** is what it makes of the term. -/
theorem takes_matchTerm : (t : Term) → t.InWireRange → (depth : ℕ) → t.enc.length ≤ depth + 1 →
    Takes (o.matchTerm ndebug (depth + 1)) t.enc (o.on t)
  | .smallInteger n, _, _, _ =>
    takes_leaf (IntObject.ofAny o.matchedRawBytes).toObject rfl <|
      reads_matchAny (fun s => integer_of_smallInteger n.toNat s 0) _
  | .integer n, _, _, _ =>
    takes_leaf (IntObject.ofAny o.matchedRawBytes).toObject rfl <|
      reads_matchAny (fun s => integer_of_integerExt n s 0) _
  | .float digits, hwire, _, _ =>
    takes_leaf ⟨[], Float_.matchAny o.matchedRawBytes⟩ rfl <|
      reads_matchAny (fun s => floatExt_cons hwire s []) _
  | .atom name, hwire, _, _ => takes_leaf _ rfl (Atom.reads_ofAny hwire o.matchedRawBytes)
  | .pid p, hwire, _, _ => takes_leaf _ rfl (Pid.reads_ofAny hwire o.matchedRawBytes)
  | .ref r, hwire, _, _ => takes_leaf _ rfl (Ref.reads_ofAny hwire o.matchedRawBytes)
  | .string str, hwire, _, _ =>
    takes_leaf (EString.ofAny o.matchedRawBytes) rfl <|
      reads_matchAnyThrough (fun s => EString.assignMatched_stringExtG hwire s []) _
  | .binary value, hwire, _, _ =>
    takes_leaf (Binary.ofAny o.matchedRawBytes) rfl <|
      reads_matchAnyThrough (fun s => Binary.read_binaryExtG hwire s) _
  | .bitBinary b, hwire, _, _ =>
    takes_leaf (Binary.ofAny o.matchedRawBytes) rfl <|
      reads_matchAnyThrough (fun s => Binary.read_bitBinaryExtG hwire s) _
  | .tuple ts, hwire, depth, hdepth => by
    have hlen : (Term.encAll ts).length ≤ depth := by
      simp [Term.enc, smallTupleHeadG] at hdepth
      omega
    exact takes_assigning rfl <|
      takes_elements (fun s => smallTupleHeadExt_smallTupleHeadG hwire.1 s 0) <|
        takesEach_matchTerm ts hwire.2 depth hlen
  | .list [], _, depth, _ =>
    takes_fails fun s v rest v' => stopsAtNil_matchTerm o ndebug (depth + 1) s v rest v'
  | .list (t :: ts), hwire, depth, hdepth => by
    have hlen : (Term.encAll (t :: ts)).length ≤ depth := by
      simp [Term.enc, listHeadG] at hdepth
      omega
    exact takes_assigning rfl <| takes_list <|
      takes_elements (fun s => listHeadExt_listHeadG hwire.1 s 0) <|
        takesEach_matchTerm (t :: ts) hwire.2 depth hlen

theorem takesEach_matchTerm : (ts : List Term) → Term.AllInWireRange ts → (depth : ℕ) →
    (Term.encAll ts).length ≤ depth →
    TakesEach (List.replicate ts.length ⟨[], o.matchTerm ndebug depth⟩) ts (o.onAll ts)
  | [], _, _, _ => .nil
  | t :: ts, hwire, 0, hdepth => by
    have henc : t.enc ++ Term.encAll ts = [] := List.length_eq_zero_iff.mp (Nat.le_zero.mp hdepth)
    exact absurd (List.append_eq_nil_iff.mp henc).1 (enc_ne_nil t)
  | t :: ts, hwire, depth + 1, hdepth => by
    rw [Term.encAll, List.length_append] at hdepth
    exact .cons (takes_matchTerm t hwire.1 depth (by omega))
      (stopsAtNil_matchTerm o ndebug (depth + 1))
      (takesEach_matchTerm ts hwire.2 (depth + 1) (by omega))

end

end AnyObject

/-! ### Floats -/

section

variable (format : FloatFormat) (ndebug : Bool) {t : Term}

theorem floatExt_enc (ht : t.InWireRange) {text : Str} (htext : t.digits = some text) (s : MsgSeq) :
    binaryToTerm floatExt (t.enc ++ s) [] = (true, s, text) := by
  cases t using Term.cases with
  | float digits =>
    cases htext
    exact binaryToTerm_of_some (floatExt_cons ht s [])
  | _ => cases htext

theorem floatExt_enc_of_none (htext : t.digits = none) (s : MsgSeq) :
    binaryToTerm floatExt (t.enc ++ s) [] = (false, t.enc ++ s, []) := by
  obtain ⟨f, henc⟩ := t.exists_enc_eq
  have htag : t.tag ≠ TypeTag.floatExt := by
    cases t using Term.cases with
    | float digits => cases htext
    | list ts => cases ts <;> exact of_decide_eq_true rfl
    | _ => exact of_decide_eq_true rfl
  rw [henc]
  exact binaryToTerm_of_none (seq_of_none (lit_cons_of_ne htag _ _))

/-- The number that is read, if there is one. -/
theorem float_read_eq_true_iff (ht : t.InWireRange) (s rest : MsgSeq) (x : Float) :
    Float_.read format ndebug (t.enc ++ s) = some (true, rest, x) ↔
      t.number format ndebug = some x ∧ rest = s := by
  rw [Term.number]
  rcases htext : t.digits with _ | text
  · simp [Float_.read, floatExt_enc_of_none htext]
  · rw [Float_.read, floatExt_enc ht htext, Option.bind_some]
    dsimp only
    rcases Float_.decodeFloat format ndebug text with _ | decoded
    · simp
    · simp [eq_comm, and_comm]

theorem takes_float (ht : t.InWireRange) (arg : From σ Float) :
    Takes (arg.toObject (Float_.ofValue format ndebug) (Float_.ofPointer format ndebug)
      (Float_.ofAny format)).matchFn t.enc (arg.onFloat format ndebug t) := by
  cases arg with
  | value val =>
    show Takes (Float_.matchValue format ndebug val) t.enc _
    rw [From.onFloat, Term.number]
    rcases htext : t.digits with _ | text
    · refine takes_takesIf (fun htrue => ?_) fun _ s v rest v' => ?_
      · cases htrue
      · simp [Float_.matchValue, floatExt_enc_of_none htext]
    · rcases hdecode : Float_.decodeFloat format ndebug text with _ | decoded
      · refine takes_takesIf (fun htrue => ?_) fun _ s v rest v' => ?_
        · simp [hdecode] at htrue
        · simp [Float_.matchValue, floatExt_enc ht htext, hdecode]
      · refine takes_takesIf (fun htrue s v => ?_) fun hfalse s v rest v' => ?_
        · have hequal : Float_.equalDoubles val decoded = true := by simpa [hdecode] using htrue
          simp [Float_.matchValue, floatExt_enc ht htext, hdecode, hequal]
        · have hequal : Float_.equalDoubles val decoded = false := by simpa [hdecode] using hfalse
          simp [Float_.matchValue, floatExt_enc ht htext, hdecode, hequal]
  | pointer toAssign =>
    intro s v rest v'
    show Float_.assignMatched format ndebug toAssign (t.enc ++ s) v = _ ↔ _
    have hassign : Float_.assignMatched format ndebug toAssign (t.enc ++ s) v =
        some (true, rest, v') ↔ ∃ x, Float_.read format ndebug (t.enc ++ s) = some (true, rest, x) ∧
          toAssign.set x v = v' := by
      rw [Float_.assignMatched]
      rcases Float_.read format ndebug (t.enc ++ s) with _ | ⟨_ | _, f, decoded⟩
      · simp
      · simp
      · simp [and_assoc]
    rw [hassign, From.onFloat]
    constructor
    · rintro ⟨x, hread, rfl⟩
      obtain ⟨hx, rfl⟩ := (float_read_eq_true_iff format ndebug ht s rest x).mp hread
      exact ⟨0, Option.map_eq_some_iff.mpr ⟨x, hx, rfl⟩, rfl⟩
    · rintro ⟨n, hd, rfl⟩
      obtain ⟨x, hx, hend⟩ := Option.map_eq_some_iff.mp hd
      cases hend
      exact ⟨x, (float_read_eq_true_iff format ndebug ht s _ x).mpr ⟨hx, rfl⟩, rfl⟩
  | any o =>
    show Takes (matchAnyThrough (binaryToTerm floatExt) [] o) t.enc _
    refine takes_takesIf (fun hsome s v => ?_) fun hnone s v rest v' hmatch => ?_
    · obtain ⟨text, htext⟩ := Option.isSome_iff_exists.mp hsome
      exact reads_matchAnyThrough (fun s => floatExt_enc ht htext s) [] v s
    · obtain ⟨a, hread⟩ := rest_of_matchAnyThrough hmatch
      rw [floatExt_enc_of_none (Option.isNone_iff_eq_none.mp (by simpa using hnone))] at hread
      cases hread

/-- The elements of a list of floats. -/
theorem floatElements_encAll (s : MsgSeq) : (ts : List Term) → Term.AllInWireRange ts →
    (val : List Float) → (rest : MsgSeq) → (val' : List Float) →
    (Float_.assignElements format ndebug ts.length (Term.encAll ts ++ s) val =
        some (true, rest, val') ↔
      ∃ xs, Term.readEach (Term.number format ndebug) ts = some xs ∧
        rest = s ∧ val' = val ++ xs)
  | [], _, val, rest, val' => by
    simp [Float_.assignElements, Term.readEach, Term.encAll, eq_comm]
  | t :: ts, hts, val, rest, val' => by
    have hread := float_read_eq_true_iff format ndebug hts.1 (Term.encAll ts ++ s)
    rw [Term.encAll, List.append_assoc, List.length_cons, Float_.assignElements, Term.readEach]
    rcases hx : t.number format ndebug with _ | x
    · have hne (f : MsgSeq) (x : Float) : Float_.read format ndebug
          (t.enc ++ (Term.encAll ts ++ s)) ≠ some (true, f, x) := by
        rw [Ne, hread, hx]
        rintro ⟨hnumber, -⟩
        cases hnumber
      rcases hr : Float_.read format ndebug (t.enc ++ (Term.encAll ts ++ s)) with _ | ⟨_ | _, f, x⟩
      · simp
      · simp
      · exact absurd hr (hne f x)
    · rw [(hread _ x).mpr ⟨hx, rfl⟩]
      dsimp only
      rw [floatElements_encAll s ts hts.2 (val ++ [x]) rest val', Option.bind_some]
      constructor
      · rintro ⟨xs, hxs, rfl, rfl⟩
        exact ⟨x :: xs, by rw [hxs, Option.map_some], rfl, by rw [List.append_assoc]; rfl⟩
      · rintro ⟨xs, hmap, rfl, rfl⟩
        obtain ⟨xs', hxs, rfl⟩ := Option.map_eq_some_iff.mp hmap
        exact ⟨xs', hxs, rfl, by rw [List.append_assoc]; rfl⟩

theorem floatList_eq_true_iff (ht : t.InWireRange) (s rest : MsgSeq) (val val' : List Float) :
    Float_.assignList format ndebug (t.enc ++ s) val = some (true, rest, val') ↔
      ∃ xs, t.listElements.bind (Term.readEach (Term.number format ndebug)) = some xs ∧
        rest = s ∧ val' = val ++ xs := by
  rcases t.exists_list_or with ⟨t', ts, rfl⟩ | ⟨htag, hlist⟩
  · have hnil : binaryToTerm nilExt (nilExtG ++ s) () = (true, s, ()) :=
      binaryToTerm_of_some (lit_cons_self _ _ _)
    have helements := floatElements_encAll format ndebug (nilExtG ++ s) (t' :: ts) ht.2 val
    rw [Term.enc, List.append_assoc, List.append_assoc, Float_.assignList,
      binaryToTerm_of_some (listHeadExt_listHeadG ht.1 _ 0), Term.listElements, Option.bind_some]
    dsimp only
    constructor
    · intro hread
      rcases he : Float_.assignElements format ndebug (t' :: ts).length
        (Term.encAll (t' :: ts) ++ (nilExtG ++ s)) val with _ | ⟨_ | _, f, val₁⟩
      · rw [he] at hread
        cases hread
      · rw [he] at hread
        cases hread
      · obtain ⟨xs, hxs, rfl, rfl⟩ := (helements f val₁).mp he
        rw [he] at hread
        simp only [hnil, Option.some.injEq, Prod.mk.injEq, true_and] at hread
        exact ⟨xs, hxs, hread.1.symm, hread.2.symm⟩
    · rintro ⟨xs, hxs, rfl, rfl⟩
      rw [(helements _ _).mpr ⟨xs, hxs, rfl, rfl⟩]
      simp only [hnil]
  · obtain ⟨f, henc⟩ := t.exists_enc_eq
    have hhead : listHeadExt (t.tag :: (f ++ s)) 0 = (none, 0) :=
      seq_of_none (lit_cons_of_ne htag _ _)
    rw [henc, List.cons_append, hlist, Option.bind_none, Float_.assignList,
      binaryToTerm_of_none hhead]
    refine iff_of_false (fun hread => ?_) ?_
    · cases hread
    · rintro ⟨xs, hxs, -⟩
      cases hxs

theorem takes_floatListOf (ht : t.InWireRange) (contained : Pointer σ (List Float)) :
    Takes (Float_.listOfPointer format ndebug contained).matchFn t.enc (contained.on <|
      (t.listElements.bind (Term.readEach (Term.number format ndebug))).map
        fun xs => (· ++ xs)) := by
  intro s v rest v'
  have hassign : (Float_.listOfPointer format ndebug contained).matchFn (t.enc ++ s) v =
      some (true, rest, v') ↔ ∃ val, Float_.assignList format ndebug (t.enc ++ s)
        (contained.get v) = some (true, rest, val) ∧ contained.set val v = v' := by
    rw [Float_.listOfPointer]
    dsimp only
    rcases Float_.assignList format ndebug (t.enc ++ s) (contained.get v) with
      _ | ⟨success, f, val⟩
    · simp
    · simp [and_assoc]
  rw [hassign]
  constructor
  · rintro ⟨val, hread, rfl⟩
    obtain ⟨xs, hxs, rfl, rfl⟩ := (floatList_eq_true_iff format ndebug ht s rest _ val).mp hread
    exact ⟨0, by rw [hxs]; rfl, rfl⟩
  · rintro ⟨n, hd, rfl⟩
    obtain ⟨change, hmap, hend⟩ := Option.map_eq_some_iff.mp hd
    obtain ⟨xs, hxs, rfl⟩ := Option.map_eq_some_iff.mp hmap
    cases hend
    exact ⟨_, (floatList_eq_true_iff format ndebug ht s _ _ _).mpr ⟨xs, hxs, rfl, rfl⟩, rfl⟩

end

/-! ### Strings that are values, and packed lists -/

theorem stringMatcher_of_ne {c : UInt8} (hc : c ≠ TypeTag.stringExt) (val : List (IntObject σ))
    (f rest : MsgSeq) (v v' : σ) :
    StringMatcher.matchFn val (c :: f) v ≠ some (true, rest, v') := by
  have hhead : stringHeadExt (c :: f) 0 = (none, 0) := seq_of_none (lit_cons_of_ne hc f 0)
  rw [StringMatcher.matchFn, binaryToTerm_of_none hhead]
  simp

theorem takes_string {t : Term} (ht : t.InWireRange) (arg : From σ Str) :
    Takes (arg.toObject EString.ofValue EString.ofPointer EString.ofAny).matchFn t.enc
      (arg.onString t) := by
  cases arg with
  | value val =>
    rcases t.exists_string_or with ⟨str, rfl⟩ | ⟨htag, -⟩
    · refine takes_takesIf (fun htrue s v => ?_) fun hfalse s v rest v' hmatch => ?_
      · obtain ⟨rest, hmatch, hrest⟩ := EString.matchFn_ofValue val (t := str) ht s v
        rw [htrue, hrest (of_decide_eq_true htrue)] at hmatch
        exact hmatch
      · obtain ⟨rest', hmatch', -⟩ := EString.matchFn_ofValue val (t := str) ht s v
        rw [hfalse] at hmatch'
        cases hmatch'.symm.trans hmatch
    · have hon : (From.value val : From σ Str).onString t = fails := by
        cases t using Term.cases with
        | string str => exact absurd rfl htag
        | _ => rfl
      obtain ⟨f, henc⟩ := t.exists_enc_eq
      rw [hon, henc]
      exact takes_fails fun s v rest v' => stringMatcher_of_ne htag _ _ rest v v'
  | pointer toAssign => exact decodes_string.takes_pointer ht toAssign
  | any o => exact decodes_string.takes_any ht [] o

/-- One byte of a packed list. -/
theorem matchStringElement_eq (arg : From σ Int32) (c : UInt8) (f : MsgSeq) (v : σ) :
    ∃ v', arg.toIntObject.matchStringElement (c :: f) v = some (arg.hits c, f, v') ∧
      (arg.hits c = false → v' = v) := by
  cases arg with
  | value val => exact ⟨v, rfl, fun _ => rfl⟩
  | pointer toAssign => exact ⟨_, rfl, fun hfalse => absurd hfalse.symm Bool.false_ne_true⟩
  | any o => exact ⟨v, rfl, fun _ => rfl⟩

theorem matchNone_eq (s : MsgSeq) : (args : List (From σ Int32)) → (str : Str) →
    args.length = str.length → (v : σ) →
    ∃ rest v', StringMatcher.matchNone (args.map From.toIntObject) (str ++ s) v =
        some (!(args.zip str).any fun z => z.1.hits z.2, rest, v') ∧
      (((args.zip str).any fun z => z.1.hits z.2) = false → rest = s ∧ v' = v)
  | [], [], _, v => ⟨s, v, rfl, fun _ => ⟨rfl, rfl⟩⟩
  | [], _ :: _, hlen, _ => by cases hlen
  | _ :: _, [], hlen, _ => by cases hlen
  | arg :: args, c :: str, hlen, v => by
    obtain ⟨v₁, helement, hsame⟩ := matchStringElement_eq arg c (str ++ s) v
    rcases hhits : arg.hits c with _ | _
    · rw [hhits] at helement
      obtain ⟨rest, v', hmatch, hrest⟩ := matchNone_eq s args str (Nat.succ.inj hlen) v₁
      refine ⟨rest, v', ?_, ?_⟩
      · simp only [List.map_cons, List.cons_append, StringMatcher.matchNone, helement, hmatch,
          List.zip_cons_cons, List.any_cons, hhits, Bool.false_or]
      · intro hnone
        rw [List.zip_cons_cons, List.any_cons, hhits, Bool.false_or] at hnone
        rw [← hsame hhits]
        exact hrest hnone
    · rw [hhits] at helement
      refine ⟨str ++ s, v₁, ?_, ?_⟩
      · simp only [List.map_cons, List.cons_append, StringMatcher.matchNone, helement,
          List.zip_cons_cons, List.any_cons, hhits, Bool.true_or, Bool.not_true]
      · simp [hhits]

theorem takes_packed {str : Str} (hlen : str.length < 65536) (args : List (From σ Int32)) :
    Takes (StringMatcher.matchFn (args.map From.toIntObject)) (Term.string str).enc
      (onPacked args str) := by
  have hmatch (s : MsgSeq) (v : σ) :
      StringMatcher.matchFn (args.map From.toIntObject) ((Term.string str).enc ++ s) v =
        if args.length = str.length then
          StringMatcher.matchNone (args.map From.toIntObject) (str ++ s) v
        else some (false, str ++ s, v) := by
    rw [Term.enc, TermLeaf.enc, StringMatcher.matchFn,
      binaryToTerm_of_some (stringHeadExt_stringExtG hlen s 0)]
    simp only [Bool.true_and, decide_eq_true_eq, List.length_map]
  refine takes_takesIf (fun htrue s v => ?_) fun hfalse s v rest v' => ?_
  · rw [Bool.and_eq_true, decide_eq_true_iff, Bool.not_eq_true'] at htrue
    obtain ⟨rest, v', hnone, hsame⟩ := matchNone_eq s args str htrue.1 v
    obtain ⟨rfl, rfl⟩ := hsame htrue.2
    rw [hmatch, if_pos htrue.1, hnone, htrue.2, Bool.not_false]
  · rw [hmatch]
    split
    · next heq =>
      obtain ⟨rest', v₁, hnone, -⟩ := matchNone_eq s args str heq v
      rw [decide_eq_true heq, Bool.true_and] at hfalse
      rw [hnone, hfalse]
      intro h
      cases h
    · intro h
      cases h

/-! ### All patterns -/

theorem matchValue_eq [DecidableEq α] (p : Qi α) (res val : α) (f : MsgSeq) (v : σ) :
    matchValue p res val f v = some ((binaryToTerm p f res).1 &&
      decide ((binaryToTerm p f res).2.2 = val), (binaryToTerm p f res).2.1, v) := by
  simp only [matchValue, eq_comm]

theorem takes_int {t : Term} (ht : t.InWireRange) (arg : From σ Int32) :
    Takes arg.toIntObject.toObject.matchFn t.enc (arg.on 0 t.intoInt t.enc) := by
  cases arg with
  | value val => exact decodes_int.takes_value ht (matchValue_eq integer 0 val)
  | pointer toAssign => exact decodes_int.takes_pointer ht toAssign
  | any o => exact decodes_int.takes_any ht 0 o

theorem Term.exists_tuple_or (t : Term) :
    (∃ ts, t = .tuple ts) ∨ t.tag ≠ TypeTag.smallTuple ∧ t.tupleElements = none := by
  cases t using Term.cases with
  | tuple ts => exact .inl ⟨ts, rfl⟩
  | list ts => cases ts <;> exact .inr ⟨of_decide_eq_true rfl, rfl⟩
  | _ => exact .inr ⟨of_decide_eq_true rfl, rfl⟩

/-- A tuple pattern, on any term. -/
theorem takes_tuplePattern {objs : List (Object σ)} {ds : List Term → List (TermMatcher σ)}
    {t : Term} (ht : t.InWireRange) (h : ∀ ts, Term.AllInWireRange ts → objs.length = ts.length →
      TakesEach objs ts (ds ts)) :
    Takes (makeETuple objs).matchFn t.enc
      (t.tupleElements.elim fails fun ts => inOrder objs.length ts (ds ts)) := by
  rcases t.exists_tuple_or with ⟨ts, rfl⟩ | ⟨htag, hnone⟩
  · exact takes_tuple ht.1 (h ts ht.2)
  · obtain ⟨f, henc⟩ := t.exists_enc_eq
    rw [hnone, henc]
    refine takes_fails fun s v rest v' => ?_
    have hhead : smallTupleHeadExt (t.tag :: (f ++ s)) 0 = (none, 0) :=
      seq_of_none (lit_cons_of_ne htag _ _)
    show ETuple.matchFn objs (t.tag :: (f ++ s)) v ≠ _
    rw [ETuple.matchFn, binaryToTerm_of_none hhead]
    simp

/-- And a list pattern. -/
theorem takes_listPattern {objs : List (Object σ)} {ds : List Term → List (TermMatcher σ)}
    {t : Term} (ht : t.InWireRange) (h : ∀ ts, Term.AllInWireRange ts → objs.length = ts.length →
      TakesEach objs ts (ds ts)) :
    Takes (ListMatcher.matchFn objs) t.enc
      (t.listElements.elim fails fun ts => inOrder objs.length ts (ds ts)) := by
  rcases t.exists_list_or with ⟨t', ts, rfl⟩ | ⟨htag, hnone⟩
  · exact takes_list ht.1 (h (t' :: ts) ht.2)
  · obtain ⟨f, henc⟩ := t.exists_enc_eq
    rw [hnone, henc]
    refine takes_fails fun s v rest v' hmatch => ?_
    obtain ⟨rest', hfalse⟩ := NestedValue.listMatcher_of_ne htag objs (f ++ s) v
    cases hfalse.symm.trans hmatch

theorem Term.inWireRange_nil : (Term.list []).InWireRange :=
  ⟨by decide, trivial⟩

/-- What stands in a tuple or a list fails on a nil. -/
theorem takesEach_int : (args : List (From σ Int32)) → (ts : List Term) →
    Term.AllInWireRange ts → args.length = ts.length →
    TakesEach ((args.map From.toIntObject).map IntObject.toObject) ts
      (args.zipWith (fun arg t => arg.on 0 t.intoInt t.enc) ts)
  | [], [], _, _ => .nil
  | [], _ :: _, _, hlen => by cases hlen
  | _ :: _, [], _, hlen => by cases hlen
  | arg :: args, t :: ts, hts, hlen => by
    have hnil := takes_int Term.inWireRange_nil arg
    refine .cons (takes_int hts.1 arg) (hnil.stopsAtNil fun v => ?_)
      (takesEach_int args ts hts.2 (Nat.succ.inj hlen))
    cases arg <;> rfl

theorem Pattern.on_intList_of_tag_ne (format : FloatFormat) (ndebug : Bool) {t : Term}
    (htag : t.tag ≠ TypeTag.stringExt) {args : List (From σ Int32)} :
    (Pattern.intList args).on format ndebug t =
      t.listElements.elim fails fun ts => inOrder args.length ts
        (args.zipWith (fun arg t => arg.on 0 t.intoInt t.enc) ts) := by
  cases t using Term.cases with
  | string str => exact absurd rfl htag
  | _ => rfl

/-- A `list<int_>` of values looks at the tag. -/
theorem takes_intList (format : FloatFormat) (ndebug : Bool) {t : Term} (ht : t.InWireRange)
    (args : List (From σ Int32)) : Takes (IntList.ofValue (args.map From.toIntObject)).matchFn t.enc
      ((Pattern.intList args).on format ndebug t) := by
  rcases t.exists_string_or with ⟨str, rfl⟩ | ⟨htag, -⟩
  · intro s v rest v'
    have hpacked := takes_packed ht args s v rest v'
    rw [Term.enc, TermLeaf.enc, stringExtG, List.cons_append] at hpacked ⊢
    rw [IntList.ofValue]
    dsimp only
    rw [IntList.dispatchOnTag_stringExt]
    exact hpacked
  · have hlength : ((args.map From.toIntObject).map IntObject.toObject).length = args.length := by
      rw [List.length_map, List.length_map]
    have hlist := takes_listPattern ht fun ts hts hlen =>
      takesEach_int args ts hts (hlength ▸ hlen)
    obtain ⟨f, henc⟩ := t.exists_enc_eq
    intro s v rest v'
    have hmatch := hlist s v rest v'
    rw [hlength, henc, List.cons_append] at hmatch
    rw [Pattern.on_intList_of_tag_ne format ndebug htag, henc, List.cons_append, IntList.ofValue]
    dsimp only
    rw [IntList.dispatchOnTag, if_neg htag]
    exact hmatch

theorem takes_intListOf {t : Term} (ht : t.InWireRange) (contained : Pointer σ (List Int32)) :
    Takes (IntList.ofPointer contained).matchFn t.enc (contained.on t.intoIntList) := by
  obtain ⟨f, henc⟩ := t.exists_enc_eq
  intro s v rest v'
  have hread := decodes_intList.takes_pointer ht contained s v rest v'
  have hdispatch : (IntList.ofPointer contained).matchFn (t.enc ++ s) v =
      assignThrough IntList.read contained (t.enc ++ s) v := by
    rw [henc, List.cons_append, IntList.ofPointer]
    dsimp only
    simp only [IntList.dispatchOnTag, assignThrough, IntList.read]
    split <;> rfl
  rw [hdispatch]
  exact hread

theorem AnyObject.takes_matchFn (o : AnyObject σ) (ndebug : Bool) {t : Term} (ht : t.InWireRange) :
    Takes (o.matchFn ndebug) t.enc (o.on t) := by
  intro s v rest v'
  have hdepth : t.enc.length ≤ (t.enc ++ s).length + 1 := by
    rw [List.length_append]
    omega
  exact takes_matchTerm t ht _ hdepth s v rest v'

namespace Pattern

variable (format : FloatFormat) (ndebug : Bool)

/-- No pattern takes the empty list. -/
theorem on_nil (p : Pattern σ) (v : σ) : p.on format ndebug (.list []) v = none := by
  cases p with
  | int arg => cases arg <;> rfl
  | atom arg => cases arg <;> rfl
  | pid arg => cases arg <;> rfl
  | ref arg => cases arg <;> rfl
  | binary arg => cases arg <;> rfl
  | float arg => cases arg <;> rfl
  | string arg => cases arg <;> rfl
  | _ => rfl

mutual

/-- **A pattern on bytes does what it does on terms.** -/
theorem takes : (p : Pattern σ) → {t : Term} → t.InWireRange →
    Takes (p.toObject format ndebug).matchFn t.enc (p.on format ndebug t)
  | int arg, _, ht => takes_int ht arg
  | atom arg, _, ht => decodes_atom.takes_from ht (matchValue_eq atomExt []) (fun _ => rfl)
      (fun _ => rfl) arg
  | pid arg, _, ht => decodes_pid.takes_from ht (matchValue_eq pidExt .invalid) (fun _ => rfl)
      (fun _ => rfl) arg
  | ref arg, _, ht => decodes_ref.takes_from ht (matchValue_eq newReferenceExtP .invalid)
      (fun _ => rfl) (fun _ => rfl) arg
  | binary arg, _, ht => decodes_binary.takes_from ht (fun _ _ _ => rfl) (fun _ => rfl)
      (fun _ => rfl) arg
  | float arg, _, ht => takes_float format ndebug ht arg
  | string arg, _, ht => takes_string ht arg
  | tuple contained, _, ht => by
    have h := takes_tuplePattern ht (takesEach contained)
    rwa [length_toObjects] at h
  | list contained, _, ht => by
    have h := takes_listPattern ht (takesEach contained)
    rwa [length_toObjects] at h
  | intList contained, _, ht => takes_intList format ndebug ht contained
  | intListOf contained, _, ht => takes_intListOf ht contained
  | atomListOf contained, _, ht => (decodes_list decodes_atom).takes_pointer ht contained
  | pidListOf contained, _, ht => (decodes_list decodes_pid).takes_pointer ht contained
  | refListOf contained, _, ht => (decodes_list decodes_ref).takes_pointer ht contained
  | floatListOf contained, _, ht => takes_floatListOf format ndebug ht contained
  | any o, _, ht => o.takes_matchFn ndebug ht

theorem takesEach : (ps : List (Pattern σ)) → (ts : List Term) → Term.AllInWireRange ts →
    (toObjects format ndebug ps).length = ts.length →
    TakesEach (toObjects format ndebug ps) ts (onAll format ndebug ps ts)
  | [], [], _, _ => .nil
  | [], _ :: _, _, hlen => by cases hlen
  | _ :: _, [], _, hlen => by cases hlen
  | p :: ps, _ :: ts, hts, hlen =>
    .cons (takes p hts.1) ((takes p Term.inWireRange_nil).stopsAtNil (p.on_nil format ndebug))
      (takesEach ps ts hts.2 (Nat.succ.inj hlen))

end

end Pattern

/-! ### What is left over -/

namespace TermMatcher

theorem inSequence_cons_cons {d d' : TermMatcher σ} {ds : List (TermMatcher σ)} {v v' : σ} {n : ℕ}
    (hd : inSequence (d :: d' :: ds) v = some (n, v')) :
    ∃ v₁, d v = some (0, v₁) ∧ inSequence (d' :: ds) v₁ = some (n, v') := by
  rcases hfirst : d v with _ | ⟨_ | k, v₁⟩
  · simp [inSequence, hfirst] at hd
  · simp only [inSequence, hfirst] at hd
    exact ⟨v₁, rfl, hd⟩
  · simp [inSequence, hfirst] at hd

theorem takesIf_eq_zero {b : Bool} {bind : σ → σ} {v v' : σ} {n : ℕ}
    (hd : takesIf b bind v = some (n, v')) : n = 0 := by
  cases b with
  | false => cases hd
  | true =>
    cases hd
    rfl

theorem inSequence_of_inOrder {length : ℕ} {ts : List Term} {ds : List (TermMatcher σ)} {v v' : σ}
    {n : ℕ} (hd : inOrder length ts ds v = some (n, v')) : inSequence ds v = some (n, v') := by
  by_cases heq : length = ts.length
  · rw [inOrder, if_pos heq] at hd
    exact hd
  · rw [inOrder, if_neg heq] at hd
    cases hd

end TermMatcher

theorem Pointer.on_eq_zero {toAssign : Pointer σ α} {into : Option (α → α)} {v v' : σ} {n : ℕ}
    (hd : toAssign.on into v = some (n, v')) : n = 0 := by
  obtain ⟨change, -, hend⟩ := Option.map_eq_some_iff.mp hd
  cases hend
  rfl

namespace From

theorem on_eq_zero [DecidableEq α] {arg : From σ α} {init : α} {into : Option (α → α)}
    {enc : MsgSeq} {v v' : σ} {n : ℕ} (hd : arg.on init into enc v = some (n, v')) : n = 0 := by
  cases arg with
  | value val =>
    rw [From.on] at hd
    exact takesIf_eq_zero hd
  | pointer toAssign => exact Pointer.on_eq_zero hd
  | any o =>
    rw [From.on] at hd
    exact takesIf_eq_zero hd

theorem onString_eq_zero {arg : From σ Str} {t : Term} {v v' : σ} {n : ℕ}
    (hd : arg.onString t v = some (n, v')) : n = 0 := by
  cases arg with
  | value val =>
    cases t using Term.cases with
    | string str =>
      rw [From.onString] at hd
      exact takesIf_eq_zero hd
    | _ => cases hd
  | pointer toAssign => exact Pointer.on_eq_zero hd
  | any o =>
    have hany : (From.any o : From σ Str).on [] t.intoString t.enc v = some (n, v') := hd
    exact on_eq_zero hany

theorem onFloat_eq_zero {format : FloatFormat} {ndebug : Bool} {arg : From σ Float} {t : Term}
    {v v' : σ} {n : ℕ} (hd : arg.onFloat format ndebug t v = some (n, v')) : n = 0 := by
  cases arg with
  | value val =>
    rw [From.onFloat] at hd
    exact takesIf_eq_zero hd
  | pointer toAssign =>
    obtain ⟨decoded, -, hend⟩ := Option.map_eq_some_iff.mp hd
    cases hend
    rfl
  | any o =>
    rw [From.onFloat] at hd
    exact takesIf_eq_zero hd

end From

/-- Integers leave nothing. -/
theorem inSequence_ints_eq_zero : (args : List (From σ Int32)) → (ts : List Term) →
    ∀ {v v' : σ} {n : ℕ},
      inSequence (args.zipWith (fun arg t => arg.on 0 t.intoInt t.enc) ts) v = some (n, v') → n = 0
  | [], _, _, _, _, hd => by
    cases hd
    rfl
  | _ :: _, [], _, _, _, hd => by
    cases hd
    rfl
  | [_], _ :: _, _, _, _, hd => From.on_eq_zero hd
  | _ :: _ :: _, [_], _, _, _, hd => From.on_eq_zero hd
  | _ :: arg :: args, _ :: t :: ts, _, _, _, hd => by
    obtain ⟨v₁, -, hrest⟩ := inSequence_cons_cons hd
    exact inSequence_ints_eq_zero (arg :: args) (t :: ts) hrest

namespace AnyObject

variable (o : AnyObject σ)

theorem on_of_assigning {d : TermMatcher σ} {v v' : σ} {n : ℕ}
    (hd : o.assigning d v = some (n, v')) : ∃ v₁, d v = some (n, v₁) := by
  obtain ⟨⟨k, v₁⟩, hd', hend⟩ := Option.map_eq_some_iff.mp hd
  cases hend
  exact ⟨v₁, hd'⟩

theorem assigning_takesIf_eq_zero {b : Bool} {bind : σ → σ} {v v' : σ} {n : ℕ}
    (hd : o.assigning (takesIf b bind) v = some (n, v')) : n = 0 := by
  obtain ⟨v₁, htakes⟩ := o.on_of_assigning hd
  exact takesIf_eq_zero htakes

mutual

/-- An `any` leaves the nils that end the term. -/
theorem on_eq_nilsBehind : (t : Term) → ∀ {v v' : σ} {n : ℕ}, o.on t v = some (n, v') →
    n = t.nilsBehind
  | .tuple ts, _, _, _, hd => by
    obtain ⟨v₁, helements⟩ := o.on_of_assigning hd
    exact inSequence_eq_nilsBehind ts helements
  | .list [], _, _, _, hd => by cases hd
  | .list (t :: ts), _, _, _, hd => by
    obtain ⟨v₁, helements⟩ := o.on_of_assigning hd
    obtain ⟨⟨k, v₂⟩, hsequence, hend⟩ := Option.map_eq_some_iff.mp helements
    cases hend
    exact congrArg (· + 1) (inSequence_eq_nilsBehind (t :: ts) hsequence)
  | .smallInteger _, _, _, _, hd | .integer _, _, _, _, hd | .float _, _, _, _, hd
  | .atom _, _, _, _, hd | .pid _, _, _, _, hd | .ref _, _, _, _, hd | .string _, _, _, _, hd
  | .binary _, _, _, _, hd | .bitBinary _, _, _, _, hd => o.assigning_takesIf_eq_zero hd

theorem inSequence_eq_nilsBehind : (ts : List Term) → ∀ {v v' : σ} {n : ℕ},
    inSequence (o.onAll ts) v = some (n, v') → n = Term.nilsBehindLast ts
  | [], _, _, _, hd => by
    cases hd
    rfl
  | [t], _, _, _, hd => on_eq_nilsBehind t hd
  | t :: t' :: ts, _, _, _, hd => by
    obtain ⟨v₁, -, hrest⟩ := inSequence_cons_cons hd
    exact inSequence_eq_nilsBehind (t' :: ts) hrest

end

/-- Behind an element that ends with a list, nothing more is taken. -/
theorem inSequence_cons_isSome {t t' : Term} {ts : List Term} {v : σ}
    (hhead : (o.on t v).isSome ↔ t.TakenByAny)
    (htail : ∀ v, (inSequence (o.onAll (t' :: ts)) v).isSome ↔ Term.AllTakenByAny (t' :: ts)) :
    (inSequence (o.onAll (t :: t' :: ts)) v).isSome ↔ Term.AllTakenByAny (t :: t' :: ts) := by
  rw [Term.AllTakenByAny, onAll, onAll]
  rcases hon : o.on t v with _ | ⟨_ | n, v₁⟩
  · have hnot : ¬ t.TakenByAny := fun htaken => by simpa [hon] using hhead.mpr htaken
    simp [inSequence, hon, hnot]
  · have htaken : t.TakenByAny := hhead.mp (by rw [hon, Option.isSome_some])
    have hnils := o.on_eq_nilsBehind t hon
    simp only [inSequence, hon]
    rw [← onAll, htail v₁]
    exact ⟨fun hrest => ⟨htaken, hnils.symm, hrest⟩, fun h => h.2.2⟩
  · have hnils := o.on_eq_nilsBehind t hon
    simp [inSequence, hon, ← hnils]

mutual

/-- Whether an `any` takes a term does not depend on what it has collected. -/
theorem on_isSome_iff : (t : Term) → ∀ v, (o.on t v).isSome ↔ t.TakenByAny
  | .tuple ts, v => by
    rw [on, assigning, Option.isSome_map]
    exact inSequence_isSome_iff ts _
  | .list [], v => by simp [on, fails, Term.TakenByAny]
  | .list (t :: ts), v => by
    rw [on, assigning, Option.isSome_map, Option.isSome_map]
    exact inSequence_isSome_iff (t :: ts) _
  | .smallInteger _, _ | .integer _, _ | .float _, _ | .atom _, _ | .pid _, _ | .ref _, _
  | .string _, _ | .binary _, _ | .bitBinary _, _ => iff_of_true rfl trivial

theorem inSequence_isSome_iff : (ts : List Term) →
    ∀ v, (inSequence (o.onAll ts) v).isSome ↔ Term.AllTakenByAny ts
  | [], _ => iff_of_true rfl trivial
  | [t], v => on_isSome_iff t v
  | t :: t' :: ts, v =>
    o.inSequence_cons_isSome (on_isSome_iff t v) (inSequence_isSome_iff (t' :: ts))

end

end AnyObject

namespace Pattern

variable (format : FloatFormat) (ndebug : Bool)

mutual

/-- A pattern leaves the nils that end what its last `any` has taken. -/
theorem on_eq_nilsBehind : (p : Pattern σ) → (t : Term) → ∀ {v v' : σ} {n : ℕ},
    p.on format ndebug t v = some (n, v') → n = p.nilsBehind t
  | int _, _, _, _, _, hd => From.on_eq_zero hd
  | atom _, _, _, _, _, hd => From.on_eq_zero hd
  | pid _, _, _, _, _, hd => From.on_eq_zero hd
  | ref _, _, _, _, _, hd => From.on_eq_zero hd
  | binary _, _, _, _, _, hd => From.on_eq_zero hd
  | float _, _, _, _, _, hd => From.onFloat_eq_zero hd
  | string _, _, _, _, _, hd => From.onString_eq_zero hd
  | tuple contained, t, v, v', n, hd => by
    rcases t.exists_tuple_or with ⟨ts, rfl⟩ | ⟨-, hnone⟩
    · exact inSequence_eq_nilsBehind contained ts (inSequence_of_inOrder hd)
    · rw [on, hnone] at hd
      cases hd
  | list contained, t, v, v', n, hd => by
    rcases t.exists_list_or with ⟨t', ts, rfl⟩ | ⟨-, hnone⟩
    · exact inSequence_eq_nilsBehind contained (t' :: ts) (inSequence_of_inOrder hd)
    · rw [on, hnone] at hd
      cases hd
  | intList args, t, v, v', n, hd => by
    rcases t.exists_string_or with ⟨str, rfl⟩ | ⟨htag, -⟩
    · rw [on, onPacked] at hd
      exact takesIf_eq_zero hd
    · rw [on_intList_of_tag_ne format ndebug htag] at hd
      rcases t.exists_list_or with ⟨t', ts, rfl⟩ | ⟨-, hnone⟩
      · exact inSequence_ints_eq_zero args (t' :: ts) (inSequence_of_inOrder hd)
      · rw [hnone] at hd
        cases hd
  | intListOf _, _, _, _, _, hd => Pointer.on_eq_zero hd
  | atomListOf _, _, _, _, _, hd => Pointer.on_eq_zero hd
  | pidListOf _, _, _, _, _, hd => Pointer.on_eq_zero hd
  | refListOf _, _, _, _, _, hd => Pointer.on_eq_zero hd
  | floatListOf _, _, _, _, _, hd => Pointer.on_eq_zero hd
  | any o, t, _, _, _, hd => o.on_eq_nilsBehind t hd

theorem inSequence_eq_nilsBehind : (ps : List (Pattern σ)) → (ts : List Term) →
    ∀ {v v' : σ} {n : ℕ}, inSequence (onAll format ndebug ps ts) v = some (n, v') →
      n = nilsBehindLast ps ts
  | [], _, _, _, _, hd => by
    cases hd
    rfl
  | _ :: _, [], _, _, _, hd => by
    cases hd
    simp only [nilsBehindLast]
  | [p], t :: _, _, _, _, hd => on_eq_nilsBehind p t hd
  | p :: _ :: _, [t], _, _, _, hd => on_eq_nilsBehind p t hd
  | _ :: p :: ps, _ :: t :: ts, _, _, _, hd => by
    obtain ⟨v₁, -, hrest⟩ := inSequence_cons_cons hd
    exact inSequence_eq_nilsBehind (p :: ps) (t :: ts) hrest

end

/-! ### The meaning of a pattern -/

variable {t : Term}

/-- **A match on bytes is a match of the term**: a pattern matches the bytes of a term, whatever
follows them, exactly if it takes the term; it changes the variables alike, and it ends in front of
the nils that it has left. -/
theorem matchFn_iff_on (p : Pattern σ) (ht : t.InWireRange) (s : MsgSeq) (v : σ) (rest : MsgSeq)
    (v' : σ) : (p.toObject format ndebug).matchFn (t.enc ++ s) v = some (true, rest, v') ↔
      ∃ n, p.on format ndebug t v = some (n, v') ∧ rest = leftNils n ++ s :=
  p.takes format ndebug ht s v rest v'

/-- The tuple `{7, X}` takes `{7, [1000]}` and leaves the nil of the list. -/
theorem matchFn_iff_on_any : (Pattern.toObject ⟨fun _ => [], fun _ => none⟩ false
    (tuple [int (.value 7), any AnyVars.any])).matchFn
      ((Term.tuple [.smallInteger 7, .list [.integer 1000]]).enc ++ [1]) ⟨[], none⟩ =
        some (true, [TypeTag.nilExt, 1], ⟨(Term.list [.integer 1000]).enc.dropLast,
          some (Term.list [.integer 1000]).enc.dropLast⟩) := by
  have hwire : (Term.tuple [.smallInteger 7, .list [.integer 1000]]).InWireRange := by
    simp [Term.InWireRange, TermLeaf.InWireRange, Compound.Fits]
  exact (matchFn_iff_on _ _ _ hwire _ _ _ _).mpr ⟨1, rfl, rfl⟩

/-- For a message, nothing is said about the nils. -/
theorem matchableSeqMatch_iff_on (p : Pattern σ) (ht : t.InWireRange) (v v' : σ) :
    matchableSeqMatch t.enc (p.toObject format ndebug) v = some (true, v') ↔
      ∃ n, p.on format ndebug t v = some (n, v') := by
  have hmatch := p.takes format ndebug ht [] v
  rw [List.append_nil] at hmatch
  constructor
  · intro hseq
    obtain ⟨⟨success, rest, v₁⟩, hmatched, hend⟩ := Option.map_eq_some_iff.mp hseq
    cases hend
    obtain ⟨n, hd, -⟩ := (hmatch rest _).mp hmatched
    exact ⟨n, hd⟩
  · rintro ⟨n, hd⟩
    rw [matchableSeqMatch, (hmatch _ v').mpr ⟨n, hd, rfl⟩, Option.map_some]

/-- **Where a match ends** does not depend on the variables: behind the term, less the nils that end
what the last `any` of the pattern has taken. -/
theorem rest_of_matched (p : Pattern σ) (ht : t.InWireRange) {s rest : MsgSeq} {v v' : σ}
    (hmatch : (p.toObject format ndebug).matchFn (t.enc ++ s) v = some (true, rest, v')) :
    rest = leftNils (p.nilsBehind t) ++ s := by
  obtain ⟨n, hd, rfl⟩ := (p.takes format ndebug ht s v rest v').mp hmatch
  rw [p.on_eq_nilsBehind format ndebug t hd]

/-- Of the list `[{[7]}]`, two nils are left by an `any`. -/
theorem rest_of_matched_any : [TypeTag.nilExt, TypeTag.nilExt, 1] =
    leftNils ((any AnyVars.any).nilsBehind (.list [.tuple [.list [.smallInteger 7]]])) ++ [1] :=
  rest_of_matched ⟨fun _ => [], fun _ => none⟩ false (any AnyVars.any)
    (t := .list [.tuple [.list [.smallInteger 7]]]) (s := [1]) (v := ⟨[], none⟩)
    (by simp [Term.InWireRange, TermLeaf.InWireRange, Compound.Fits]) rfl

end Pattern

namespace AnyObject

/-- **The terms that an `any` takes** are those in which no list is empty and only the last element
of a tuple or a list may end with a list, whatever it has collected and whatever follows. -/
theorem exists_matched_iff (o : AnyObject σ) (ndebug : Bool) {t : Term} (ht : t.InWireRange)
    (s : MsgSeq) (v : σ) :
    (∃ rest v', o.matchFn ndebug (t.enc ++ s) v = some (true, rest, v')) ↔ t.TakenByAny := by
  rw [← o.on_isSome_iff t v, Option.isSome_iff_exists]
  constructor
  · rintro ⟨rest, v', hmatch⟩
    obtain ⟨n, hd, -⟩ := (o.takes_matchFn ndebug ht s v rest v').mp hmatch
    exact ⟨_, hd⟩
  · rintro ⟨⟨n, v'⟩, hd⟩
    exact ⟨_, v', (o.takes_matchFn ndebug ht s v _ v').mpr ⟨n, hd, rfl⟩⟩

/-- It takes `{1, [2]}`, but not `{[2], 1}`. -/
theorem exists_matched_iff_last :
    (∃ rest v', AnyVars.any.matchFn false
      ((Term.tuple [.smallInteger 1, .list [.smallInteger 2]]).enc ++ []) ⟨[], none⟩ =
        some (true, rest, v')) ∧
    ¬ ∃ rest v', AnyVars.any.matchFn false
      ((Term.tuple [.list [.smallInteger 2], .smallInteger 1]).enc ++ []) ⟨[], none⟩ =
        some (true, rest, v') := by
  have hlast : (Term.tuple [.smallInteger 1, .list [.smallInteger 2]]).InWireRange := by
    simp [Term.InWireRange, TermLeaf.InWireRange, Compound.Fits]
  have hfirst : (Term.tuple [.list [.smallInteger 2], .smallInteger 1]).InWireRange := by
    simp [Term.InWireRange, TermLeaf.InWireRange, Compound.Fits]
  constructor
  · refine (exists_matched_iff _ _ hlast _ _).mpr ?_
    simp [Term.TakenByAny, Term.AllTakenByAny, Term.nilsBehind]
  · refine (exists_matched_iff _ _ hfirst _ _).not.mpr ?_
    simp [Term.TakenByAny, Term.AllTakenByAny, Term.nilsBehind]

end AnyObject

end TinchPp
