import TinchPp.Readers

/-!
# What a match writes

A pattern is made over a memory of typed variables, and a match leaves its traces there: what the
parsers do to the variables they have been handed, the bytes that go to the buffer of an `any`, and
the matchable that an `any` assigns in the end. Which writes there are, and in which order, is up to
the message. The memory has no part in it.

## Main results

* `MemoryPattern.of_trace` — to match is to find out about the writes and to carry them out
-/

namespace TinchPp

open Wire

/-! ### The memory -/

/-- Where a variable is. -/
structure Location where
  kind : Kind
  index : ℕ
deriving DecidableEq, Repr

/-- What the variables hold. -/
abbrev Variables := (x : Location) → x.kind.Value

/-- The variables, and what is inside the `any`s: each has a buffer of its own, and a matchable to
assign to if it is not given one. -/
structure Memory where
  vars : Variables
  placeholders : ℕ → Option MsgSeq
  buffers : ℕ → MsgSeq

namespace Memory

/-- No match has been made yet. -/
def fresh : Memory := ⟨fun x => x.kind.fresh, fun _ => none, fun _ => []⟩

def pointer (k : Kind) (index : ℕ) : Pointer Memory k.Value where
  get m := m.vars ⟨k, index⟩
  set a m := { m with vars := Function.update m.vars ⟨k, index⟩ a }
  get_set a m := Function.update_self (⟨k, index⟩ : Location) a m.vars

def buffer (index : ℕ) : Any Memory where
  get m := m.buffers index
  set bytes m := { m with buffers := Function.update m.buffers index bytes }
  get_set bytes m := Function.update_self index bytes m.buffers

/-- Where an `any` assigns to, if it is not given a variable. -/
def placeholder (index : ℕ) : Pointer Memory (Option MsgSeq) where
  get m := m.placeholders index
  set a m := { m with placeholders := Function.update m.placeholders index a }
  get_set a m := Function.update_self index a m.placeholders

/-- `any::any`, with or without a variable to assign to. -/
def any (index : ℕ) : Option ℕ → AnyObject Memory
  | none => ⟨buffer index, placeholder index, fun _ _ => rfl⟩
  | some toAssign => ⟨buffer index, pointer .matchable toAssign, fun _ _ => rfl⟩

end Memory

/-! ### Patterns over the memory -/

/-- What a pattern is made from. -/
inductive Arg (k : Kind)
  | value (val : k.Value)
  | pointer (index : ℕ)
  | any (index : ℕ)

def Arg.toFrom {k : Kind} : Arg k → From Memory k.Value
  | value val => .value val
  | pointer index => .pointer (Memory.pointer k index)
  | any index => .any (Memory.buffer index)

/-- A pattern whose variables are in the memory. -/
inductive MemoryPattern
  | leaf (t : LeafType) (arg : Arg t.kind)
  | tuple (contained : List MemoryPattern)
  | list (contained : List MemoryPattern)
  | intList (contained : List (Arg .int))
  | listOf (t : ListType) (index : ℕ)
  | any (index : ℕ) (toAssign : Option ℕ)

namespace MemoryPattern

mutual

/-- The pattern, with the pointers. -/
def toPattern : MemoryPattern → Pattern Memory
  | leaf t arg => t.pattern arg.toFrom
  | tuple contained => .tuple (toPatterns contained)
  | list contained => .list (toPatterns contained)
  | intList contained => .intList (contained.map Arg.toFrom)
  | listOf t index => t.pattern (Memory.pointer t.kind index)
  | any index toAssign => .any (Memory.any index toAssign)

def toPatterns : List MemoryPattern → List (Pattern Memory)
  | [] => []
  | p :: contained => p.toPattern :: toPatterns contained

end

variable (format : FloatFormat) (ndebug : Bool)

def matchFn (p : MemoryPattern) : Matcher Memory := (p.toPattern.toObject format ndebug).matchFn

end MemoryPattern

/-! ### Writes -/

/-- What is done to the memory in the course of a match. -/
inductive Write
  | change (x : Location) (c : Change x.kind)
  | save (index : ℕ) (rawMsgPart : MsgSeq)
  | capture (index : ℕ) (toAssign : Option ℕ)

namespace Write

def apply : Write → Memory → Memory
  | change x c, m => { m with vars := Function.update m.vars x (c.apply (m.vars x)) }
  | save index rawMsgPart, m => (Memory.buffer index).saveMatchedBytes rawMsgPart m
  | capture index toAssign, m =>
    (Memory.any index toAssign).toAssign.set (some (m.buffers index)) m

def applyAll : List Write → Memory → Memory
  | [], m => m
  | w :: ws, m => applyAll ws (w.apply m)

theorem applyAll_append (ws ws' : List Write) (m : Memory) :
    applyAll (ws ++ ws') m = applyAll ws' (applyAll ws m) := by
  induction ws generalizing m with
  | nil => rfl
  | cons w ws ih => exact ih (w.apply m)

end Write

/-- What a match comes to, on any memory: whether it succeeds, where it stops and what it writes, or
`none` when it faults. -/
abbrev Trace := MsgSeq → Option (Bool × MsgSeq × List Write)

/-- The match is what its trace says. -/
def Trace.Of (trace : Trace) (matcher : Matcher Memory) : Prop :=
  ∀ f m, matcher f m = (trace f).map fun r => (r.1, r.2.1, Write.applyAll r.2.2 m)

/-! ### Running a pattern elsewhere -/

/-- A C library that prints nothing and reads no number, where floats do not matter. -/
def FloatFormat.silent : FloatFormat := ⟨fun _ => [], fun _ => none⟩

section

variable {σ τ α : Type} {φ : τ → σ}

/-- What the one matcher does to `φ v` is what the other does to `v`. -/
def Carries (φ : τ → σ) (matcher' : Matcher τ) (matcher : Matcher σ) : Prop :=
  ∀ f v, matcher f (φ v) = (matcher' f v).map fun r => (r.1, r.2.1, φ r.2.2)

/-- To save bytes there is to save them here. -/
def CarriesAny (φ : τ → σ) (any' : Any τ) (any : Any σ) : Prop :=
  ∀ rawMsgPart v, φ (any'.saveMatchedBytes rawMsgPart v) = any.saveMatchedBytes rawMsgPart (φ v)

theorem carries_matchValue [DecidableEq α] (φ : τ → σ) (p : Qi α) (res val : α) :
    Carries φ (matchValue p res val) (matchValue p res val) := fun _ _ => rfl

theorem CarriesAny.matchAnyThrough {any' : Any τ} {any : Any σ} (h : CarriesAny φ any' any)
    (read : MsgSeq → α → Bool × MsgSeq × α) (ignore : α) :
    Carries φ (matchAnyThrough read ignore any') (matchAnyThrough read ignore any) := by
  intro f v
  rcases hread : read f ignore with ⟨_ | _, rest, a⟩
  · simp only [TinchPp.matchAnyThrough, hread, Option.map_some]
  · simp only [TinchPp.matchAnyThrough, hread, Option.map_some, h _ v]

theorem CarriesAny.matchAny {any' : Any τ} {any : Any σ} (h : CarriesAny φ any' any) (p : Qi α)
    (ignore : α) : Carries φ (matchAny p ignore any') (matchAny p ignore any) := by
  rw [matchAny_eq_matchAnyThrough, matchAny_eq_matchAnyThrough]
  exact h.matchAnyThrough (binaryToTerm p) ignore

/-- A string that is a value is compared character by character, without a variable. -/
theorem carries_matchNone (φ : τ → σ) (val : Str) :
    Carries φ (StringMatcher.matchNone (val.map EString.createInt))
      (StringMatcher.matchNone (val.map EString.createInt)) := by
  induction val with
  | nil => exact fun _ _ => rfl
  | cons c val ih =>
    intro f v
    rcases hread : binaryToTerm byte f 0 with ⟨success, rest, res⟩
    rcases hmatched : success && decide (promote c = IntObject.ofElement res) with _ | _
    all_goals
      simp only [List.map_cons, StringMatcher.matchNone, IntObject.matchStringElement, hread,
        EString.createInt, IntObject.ofValue, hmatched, Option.map_some]
    exact ih rest v

variable (φ) (format : FloatFormat) (ndebug : Bool)

/-- A pattern that is made from a value leaves everything as it is. -/
theorem LeafType.carries_value (t : LeafType) (val : t.kind.Value) :
    Carries φ ((t.pattern (.value val)).toObject format ndebug).matchFn
      ((t.pattern (.value val)).toObject format ndebug).matchFn := by
  cases t with
  | int => exact carries_matchValue φ integer 0 val
  | atom => exact carries_matchValue φ atomExt [] val
  | pid => exact carries_matchValue φ pidExt .invalid val
  | ref => exact carries_matchValue φ newReferenceExtP .invalid val
  | binary => exact fun _ _ => rfl
  | float =>
    intro f v
    show Float_.matchValue format ndebug val f (φ v) =
      (Float_.matchValue format ndebug val f v).map _
    rcases hread : binaryToTerm floatExt f [] with ⟨_ | _, rest, res⟩
    · simp only [Float_.matchValue, hread, Option.map_some]
    · simp only [Float_.matchValue, hread]
      cases Float_.decodeFloat format ndebug res <;> rfl
  | string =>
    intro f v
    show StringMatcher.matchFn (val.map EString.createInt) f (φ v) =
      (StringMatcher.matchFn (val.map EString.createInt) f v).map _
    rcases hhead : binaryToTerm stringHeadExt f 0 with ⟨success, f', n⟩
    simp only [StringMatcher.matchFn, hhead, List.length_map]
    split
    · exact carries_matchNone φ val f' v
    · rfl

variable {φ}

/-- A pattern that is made from an `any` only saves bytes. -/
theorem LeafType.carries_any (t : LeafType) {any' : Any τ} {any : Any σ}
    (h : CarriesAny φ any' any) :
    Carries φ ((t.pattern (.any any')).toObject format ndebug).matchFn
      ((t.pattern (.any any)).toObject format ndebug).matchFn := by
  cases t with
  | int => exact h.matchAny integer 0
  | atom => exact h.matchAny atomExt []
  | pid => exact h.matchAny pidExt .invalid
  | ref => exact h.matchAny newReferenceExtP .invalid
  | binary => exact h.matchAnyThrough Binary.read .empty
  | float => exact h.matchAny floatExt []
  | string => exact h.matchAnyThrough EString.assignMatched []

/-- There and here, an `any` saves bytes and assigns what it has saved. -/
structure CarriesObject (φ : τ → σ) (o' : AnyObject τ) (o : AnyObject σ) : Prop where
  save : CarriesAny φ o'.matchedRawBytes o.matchedRawBytes
  assign : ∀ v, φ (o'.toAssign.set (some (o'.matchedRawBytes.get v)) v) =
    o.toAssign.set (some (o.matchedRawBytes.get (φ v))) (φ v)

variable {format ndebug} {o' : AnyObject τ} {o : AnyObject σ} {matcher' : Matcher τ}
  {matcher : Matcher σ}

theorem Carries.matchContained (h : Carries φ matcher' matcher) (n : ℕ) :
    Carries φ (matchContained matcher' n) (matchContained matcher n) := by
  induction n with
  | zero => exact fun _ _ => rfl
  | succ n ih =>
    intro f v
    rcases hfirst : matcher' f v with _ | ⟨_ | _, f', v'⟩
    · simp only [TinchPp.matchContained, h f v, hfirst, Option.map_none]
    · simp only [TinchPp.matchContained, h f v, hfirst, Option.map_some]
    · simp only [TinchPp.matchContained, h f v, hfirst, Option.map_some]
      exact ih f' v'

theorem CarriesObject.matchElements (ho : CarriesObject φ o' o) (h : Carries φ matcher' matcher)
    (head : Qi ℕ) :
    Carries φ (o'.matchElements ndebug head matcher') (o.matchElements ndebug head matcher) := by
  intro f v
  have hsave := ho.save
  rcases hhead : binaryToTerm head f 0 with ⟨_ | _, rest, n⟩
  · simp only [AnyObject.matchElements, hhead, ← hsave _ v]
    cases ndebug <;> rfl
  · simp only [AnyObject.matchElements, hhead, ← hsave _ v]
    exact h.matchContained n rest _

variable (ndebug)

/-- Tag by tag. -/
theorem CarriesObject.lookup (ho : CarriesObject φ o' o) (h : Carries φ matcher' matcher)
    (tag : UInt8) : Option.Rel (Carries φ) ((o'.dynamicElementMatcher ndebug matcher').lookup tag)
      ((o.dynamicElementMatcher ndebug matcher).lookup tag) := by
  have hcons {tag' : UInt8} {m' : Matcher τ} {m : Matcher σ} {l' : List (UInt8 × Matcher τ)}
      {l : List (UInt8 × Matcher σ)} (hm : Carries φ m' m)
      (hl : Option.Rel (Carries φ) (l'.lookup tag) (l.lookup tag)) :
      Option.Rel (Carries φ) (((tag', m') :: l').lookup tag) (((tag', m) :: l).lookup tag) := by
    rw [List.lookup_cons, List.lookup_cons]
    split
    · exact .some hm
    · exact hl
  have hany (t : LeafType) := t.carries_any .silent false ho.save
  exact hcons (hany .int) <| hcons (hany .int) <| hcons (hany .atom) <|
    hcons (ho.matchElements h _) <| hcons (ho.matchElements h _) <| hcons (hany .string) <|
    hcons (hany .pid) <| hcons (hany .ref) <| hcons (hany .float) <| hcons (hany .binary) <|
    hcons (hany .binary) .none

theorem CarriesObject.matchTerm (ho : CarriesObject φ o' o) (depth : ℕ) :
    Carries φ (o'.matchTerm ndebug depth) (o.matchTerm ndebug depth) := by
  induction depth with
  | zero => exact fun _ _ => rfl
  | succ depth ih =>
    have hdynamic : Carries φ (o'.matchDynamically ndebug (o'.matchTerm ndebug depth))
        (o.matchDynamically ndebug (o.matchTerm ndebug depth)) := by
      intro f v
      cases f with
      | nil => rfl
      | cons tag f =>
        have hlookup := ho.lookup ndebug ih tag
        simp only [AnyObject.matchDynamically]
        generalize (o'.dynamicElementMatcher ndebug (o'.matchTerm ndebug depth)).lookup tag = found'
          at hlookup ⊢
        generalize (o.dynamicElementMatcher ndebug (o.matchTerm ndebug depth)).lookup tag = found
          at hlookup ⊢
        cases hlookup with
        | none => rfl
        | some hm => exact hm (tag :: f) v
    intro f v
    rw [AnyObject.matchTerm, AnyObject.matchTerm, hdynamic f v]
    rcases o'.matchDynamically ndebug (o'.matchTerm ndebug depth) f v with _ | ⟨res, rest, v'⟩
    · rfl
    · simp only [Option.map_some, ho.assign]

end

/-! ### Traces -/

/-- Nothing but the bytes that are collected. -/
def Any.alone : Any MsgSeq := ⟨fun bytes => bytes, fun bytes _ => bytes, fun _ _ => rfl⟩

theorem carriesAny_alone (index : ℕ) (m : Memory) :
    CarriesAny (fun bytes => (Memory.buffer index).saveMatchedBytes bytes m) Any.alone
      (Memory.buffer index) := by
  intro rawMsgPart bytes
  simp only [Any.saveMatchedBytes, Any.alone, Memory.buffer, Function.update_self,
    Function.update_idem, List.append_assoc]

theorem saveMatchedBytes_nil (index : ℕ) (m : Memory) :
    (Memory.buffer index).saveMatchedBytes [] m = m := by
  simp only [Any.saveMatchedBytes, Memory.buffer, List.append_nil, Function.update_eq_self]

/-- An `int` gets the value of a byte. -/
def Change.assignElement (res : UInt8) : Change .int :=
  ⟨fun _ => IntObject.ofElement res, oneWay_of_idempotent fun _ => rfl, .inl (.inl rfl)⟩

namespace Trace

variable (format : FloatFormat) (ndebug : Bool)

def leaf (t : LeafType) : Arg t.kind → Trace
  | .value val => fun f =>
    (((t.pattern (.value val)).toObject format ndebug : Object Unit).matchFn f ()).map fun r =>
      (r.1, r.2.1, [])
  | .pointer index => fun f =>
    ((t.reader format ndebug).result f).map fun r =>
      (r.1, r.2, [.change ⟨t.kind, index⟩ ((t.reader format ndebug).change f)])
  | .any index => fun f =>
    (((t.pattern (.any Any.alone)).toObject format ndebug).matchFn f []).map fun r =>
      (r.1, r.2.1, [.save index r.2.2])

def listOf (t : ListType) (index : ℕ) : Trace := fun f =>
  ((t.reader format ndebug).result f).map fun r =>
    (r.1, r.2, [.change ⟨t.kind, index⟩ ((t.reader format ndebug).change f)])

def any (index : ℕ) (toAssign : Option ℕ) : Trace := fun f =>
  (AnyVars.any.matchFn ndebug f ⟨[], none⟩).map fun r =>
    (r.1, r.2.1, [.save index r.2.2.matchedRawBytes, .capture index toAssign])

/-- One after the other, until one of them fails. -/
def all : List Trace → Trace
  | [], f => some (true, f, [])
  | trace :: traces, f =>
    match trace f with
    | none => none
    | some (false, f, ws) => some (false, f, ws)
    | some (true, f, ws) => (all traces f).map fun r => (r.1, r.2.1, ws ++ r.2.2)

/-- Behind a head with the right number of elements. -/
def behind (head : Qi ℕ) (length : ℕ) (inner : Trace) : Trace := fun f =>
  match binaryToTerm head f 0 with
  | (success, f, parsedLength) =>
    if success && decide (length = parsedLength) then inner f else some (false, f, [])

def tuple (traces : List Trace) : Trace := behind smallTupleHeadExt traces.length (all traces)

def list (traces : List Trace) : Trace := fun f =>
  (behind listHeadExt traces.length (all traces) f).map fun r =>
    (r.1, (binaryToTerm nilExt r.2.1 ()).2.1, r.2.2)

/-- An element of a packed string, and what is written. -/
def element : Arg .int → MsgSeq → Bool × List Write
  | _, [] => (false, [])
  | .value val, c :: _ => (decide (val = IntObject.ofElement c), [])
  | .pointer index, c :: _ => (true, [.change ⟨.int, index⟩ (.assignElement c)])
  | .any _, c :: _ => (decide (0 = IntObject.ofElement c), [])

/-- One after the other, until one of them matches. -/
def elements : List (Arg .int) → Trace
  | [], f => some (true, f, [])
  | arg :: args, f =>
    match element arg f with
    | (true, ws) => some (false, f.drop 1, ws)
    | (false, ws) => (elements args (f.drop 1)).map fun r => (r.1, r.2.1, ws ++ r.2.2)

def packed (args : List (Arg .int)) : Trace := behind stringHeadExt args.length (elements args)

def intList (args : List (Arg .int)) : Trace
  | [] => none
  | c :: f =>
    if c = TypeTag.stringExt then packed args (c :: f)
    else list (args.map (leaf format ndebug .int)) (c :: f)

end Trace

namespace MemoryPattern

variable (format : FloatFormat) (ndebug : Bool)

mutual

/-- What the pattern does, whatever is in the memory. -/
def trace : MemoryPattern → Trace
  | leaf t arg => .leaf format ndebug t arg
  | tuple contained => .tuple (traces contained)
  | list contained => .list (traces contained)
  | intList contained => .intList format ndebug contained
  | listOf t index => .listOf format ndebug t index
  | any index toAssign => .any ndebug index toAssign

def traces : List MemoryPattern → List Trace
  | [] => []
  | p :: contained => p.trace :: traces contained

end

end MemoryPattern

/-! ### A match is what its trace says -/

namespace Trace

variable {format : FloatFormat} {ndebug : Bool}

theorem of_leaf (t : LeafType) (arg : Arg t.kind) :
    (leaf format ndebug t arg).Of ((t.pattern arg.toFrom).toObject format ndebug).matchFn := by
  intro f m
  cases arg with
  | value val =>
    refine (t.carries_value (fun _ => m) format ndebug val f ()).trans ?_
    simp only [leaf, Option.map_map]
    rfl
  | pointer index =>
    rw [Arg.toFrom, t.matchFn_pointer]
    simp only [leaf, Reader.matcher, Option.map_map]
    rfl
  | any index =>
    have hsave := t.carries_any format ndebug (carriesAny_alone index m) f []
    rw [saveMatchedBytes_nil] at hsave
    refine hsave.trans ?_
    simp only [leaf, Option.map_map]
    rfl

theorem of_listOf (t : ListType) (index : ℕ) : (listOf format ndebug t index).Of
    ((t.pattern (Memory.pointer t.kind index)).toObject format ndebug).matchFn := by
  intro f m
  rw [t.matchFn_pattern]
  simp only [listOf, Reader.matcher, Option.map_map]
  rfl

/-- Where the collected bytes of an `any` go, and where it assigns them to. -/
def spread (index : ℕ) (toAssign : Option ℕ) (m : Memory) (v : AnyVars) : Memory :=
  match v.toAssign with
  | none => (Memory.buffer index).saveMatchedBytes v.matchedRawBytes m
  | some bytes => (Memory.any index toAssign).toAssign.set (some (m.buffers index ++ bytes))
      ((Memory.buffer index).saveMatchedBytes v.matchedRawBytes m)

theorem carriesObject_spread (index : ℕ) (toAssign : Option ℕ) (m : Memory) :
    CarriesObject (spread index toAssign m) AnyVars.any (Memory.any index toAssign) := by
  constructor
  · intro rawMsgPart v
    rcases v with ⟨matchedRawBytes, _ | bytes⟩ <;> cases toAssign
    all_goals
      simp only [spread, Any.saveMatchedBytes, AnyVars.any, Memory.any, Memory.buffer,
        Memory.placeholder, Memory.pointer, Function.update_self, Function.update_idem,
        List.append_assoc]
  · intro v
    rcases v with ⟨matchedRawBytes, _ | bytes⟩ <;> cases toAssign
    all_goals
      simp only [spread, Any.saveMatchedBytes, AnyVars.any, Memory.any, Memory.buffer,
        Memory.placeholder, Memory.pointer, Function.update_self, Function.update_idem]

theorem of_any (index : ℕ) (toAssign : Option ℕ) :
    (any ndebug index toAssign).Of ((Memory.any index toAssign).matchFn ndebug) := by
  intro f m
  have hcarries := (carriesObject_spread index toAssign m).matchTerm ndebug (f.length + 1) f
    ⟨[], none⟩
  simp only [spread, saveMatchedBytes_nil] at hcarries
  rw [AnyObject.matchFn, hcarries, any, AnyObject.matchFn]
  rcases hmatch : AnyVars.any.matchTerm ndebug (f.length + 1) f ⟨[], none⟩ with _ | ⟨res, rest, v⟩
  · rfl
  · have hassign : v.toAssign = some v.matchedRawBytes := AnyObject.toAssign_matchTerm hmatch
    have hbuffer : ((Memory.buffer index).saveMatchedBytes v.matchedRawBytes m).buffers index =
        m.buffers index ++ v.matchedRawBytes := Function.update_self index _ m.buffers
    simp only [Option.map_some, hassign, Write.applyAll, Write.apply, hbuffer]

/-- The traces of the objects, one each. -/
theorem of_all {traces : List Trace} {objs : List (Object Memory)}
    (h : List.Forall₂ (fun trace obj => trace.Of obj.matchFn) traces objs) :
    (all traces).Of (ETuple.matchAll objs) := by
  induction h with
  | nil => exact fun _ _ => rfl
  | @cons trace obj traces objs hfirst _ ih =>
    intro f m
    rcases htrace : trace f with _ | ⟨_ | _, f', ws⟩
    · simp only [ETuple.matchAll, all, hfirst f m, htrace, Option.map_none]
    · simp only [ETuple.matchAll, all, hfirst f m, htrace, Option.map_some]
    · simp only [ETuple.matchAll, all, hfirst f m, htrace, Option.map_some]
      rw [ih, Option.map_map]
      simp only [Function.comp_def, Write.applyAll_append]

theorem of_tuple {traces : List Trace} {objs : List (Object Memory)}
    (h : List.Forall₂ (fun trace obj => trace.Of obj.matchFn) traces objs) :
    (tuple traces).Of (makeETuple objs).matchFn := by
  intro f m
  show ETuple.matchFn objs f m = _
  simp only [ETuple.matchFn, tuple, behind, h.length_eq]
  split
  · exact of_all h _ m
  · rfl

theorem of_list {traces : List Trace} {objs : List (Object Memory)}
    (h : List.Forall₂ (fun trace obj => trace.Of obj.matchFn) traces objs) :
    (list traces).Of (ListMatcher.matchFn objs) := by
  intro f m
  rcases hhead : binaryToTerm listHeadExt f 0 with ⟨success, f', n⟩
  rcases hlen : success && decide (objs.length = n) with _ | _
  · simp only [ListMatcher.matchFn, list, behind, hhead, h.length_eq, hlen]
    rfl
  · simp only [ListMatcher.matchFn, list, behind, hhead, h.length_eq, hlen, if_true, of_all h f' m]
    rcases all traces f' with _ | ⟨matched, f'', ws⟩ <;> rfl

theorem of_elements (args : List (Arg .int)) : (elements args).Of
    (StringMatcher.matchNone (args.map fun arg => arg.toFrom.toIntObject)) := by
  induction args with
  | nil => exact fun _ _ => rfl
  | cons arg args ih =>
    intro f m
    have helement : (arg.toFrom.toIntObject).matchStringElement f m =
        some ((element arg f).1, f.drop 1, Write.applyAll (element arg f).2 m) := by
      cases arg <;> cases f <;> rfl
    simp only [List.map_cons, StringMatcher.matchNone, elements, helement]
    rcases element arg f with ⟨_ | _, ws⟩
    · simp only [ih (f.drop 1), Option.map_map, Function.comp_def, Write.applyAll_append]
    · rfl

theorem of_packed (args : List (Arg .int)) : (packed args).Of
    (StringMatcher.matchFn (args.map fun arg => arg.toFrom.toIntObject)) := by
  intro f m
  simp only [StringMatcher.matchFn, packed, behind, List.length_map]
  split
  · exact of_elements args _ m
  · rfl

theorem of_intList (args : List (Arg .int)) : (intList format ndebug args).Of
    (IntList.ofValue ((args.map Arg.toFrom).map From.toIntObject)).matchFn := by
  intro f m
  cases f with
  | nil => rfl
  | cons c f =>
    show IntList.dispatchOnTag _ _ (c :: f) m = _
    by_cases hc : c = TypeTag.stringExt
    · simp only [IntList.dispatchOnTag, intList, if_pos hc]
      rw [List.map_map]
      exact of_packed args (c :: f) m
    · simp only [IntList.dispatchOnTag, intList, if_neg hc]
      refine of_list ?_ (c :: f) m
      rw [List.map_map, List.map_map]
      exact List.forall₂_map_left_iff.mpr <| List.forall₂_map_right_iff.mpr <|
        List.forall₂_same.mpr fun arg _ => of_leaf .int arg

end Trace

namespace MemoryPattern

variable (format : FloatFormat) (ndebug : Bool)

mutual

/-- **To match is to find out about the writes and to carry them out.** -/
theorem of_trace : (p : MemoryPattern) → (p.trace format ndebug).Of (p.matchFn format ndebug)
  | leaf t arg => Trace.of_leaf t arg
  | tuple contained => Trace.of_tuple (of_traces contained)
  | list contained => Trace.of_list (of_traces contained)
  | intList contained => Trace.of_intList contained
  | listOf t index => Trace.of_listOf t index
  | any index toAssign => Trace.of_any index toAssign

theorem of_traces : (ps : List MemoryPattern) → List.Forall₂
    (fun (trace : Trace) (obj : Object Memory) => trace.Of obj.matchFn)
    (traces format ndebug ps) (Pattern.toObjects format ndebug (toPatterns ps))
  | [] => .nil
  | p :: ps => .cons (of_trace p) (of_traces ps)

end

theorem matchFn_eq (p : MemoryPattern) (f : MsgSeq) (m : Memory) : p.matchFn format ndebug f m =
    (p.trace format ndebug f).map fun r => (r.1, r.2.1, Write.applyAll r.2.2 m) :=
  p.of_trace format ndebug f m

end MemoryPattern

end TinchPp
