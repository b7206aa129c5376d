import TinchPp.Bindings

/-!
# What a failed match leaves behind

Reference-variables are to be bound upon a successful match. They are written while the message is
read, though, and nothing takes the writes back when something further on does not match. So a
failed match leaves the variables alone exactly if it fails before the first byte has been read into
one of them. Later writes cannot make up for earlier ones, whatever they are.

## Main results

* `Write.idle_of_unchanged` — if the writes leave all variables as they are, each of them does
* `MemoryPattern.writesNothing_iff` — the messages on which a pattern writes nothing
* `MemoryPattern.failed_binds_nothing_iff` — a failed match binds nothing, exactly when it writes
  nothing
-/

namespace TinchPp

open Wire

/-! ### Writes that do nothing -/

namespace Write

/-- No variable holds anything else afterwards. -/
def Idle : Write → Prop
  | change _ c => ∀ a, c.apply a = a
  | save _ _ => True
  | capture _ toAssign => toAssign = none

theorem Idle.vars_apply {w : Write} (h : w.Idle) (m : Memory) : (w.apply m).vars = m.vars := by
  cases w with
  | change x c =>
    have hc : ∀ a, c.apply a = a := h
    simp only [apply, hc, Function.update_eq_self]
  | save index rawMsgPart => rfl
  | capture index toAssign =>
    have hnone : toAssign = none := h
    rw [hnone]
    rfl

theorem vars_applyAll_of_idle {ws : List Write} (h : ∀ w ∈ ws, w.Idle) (m : Memory) :
    (applyAll ws m).vars = m.vars := by
  induction ws generalizing m with
  | nil => rfl
  | cons w ws ih =>
    obtain ⟨hw, hws⟩ := List.forall_mem_cons.mp h
    exact (ih hws (w.apply m)).trans (hw.vars_apply m)

/-- What a write does to the variables, and that there is no way back from it. The rest of the
memory is changed without regard to them. -/
theorem apply_vars (w : Write) (m : Memory) : ∃ (m' : Memory) (g : Variables → Variables),
    OneWay g ∧ (∀ vars, w.apply { m with vars := vars } = { m' with vars := g vars }) ∧
      ((∀ vars, g vars = vars) → w.Idle) := by
  cases w with
  | change x c =>
    refine ⟨m, fun vars => Function.update vars x (c.apply (vars x)),
      c.oneWay.part (fun vars => vars x) (fun a vars => Function.update vars x a)
        (fun a vars => Function.update_self x a vars) fun vars => Function.update_eq_self x vars,
      fun _ => rfl, fun hid a => ?_⟩
    have hx := congrFun (hid (Function.update m.vars x a)) x
    simpa only [Function.update_self] using hx
  | save index rawMsgPart =>
    exact ⟨(save index rawMsgPart).apply m, fun vars => vars, oneWay_id, fun _ => rfl,
      fun _ => trivial⟩
  | capture index toAssign =>
    cases toAssign with
    | none =>
      exact ⟨(capture index none).apply m, fun vars => vars, oneWay_id, fun _ => rfl, fun _ => rfl⟩
    | some j =>
      refine ⟨m, fun vars => Function.update vars ⟨.matchable, j⟩ (some (m.buffers index)),
        oneWay_of_idempotent fun vars => Function.update_idem _ _ vars, fun _ => rfl,
        fun hid => ?_⟩
      -- a variable that has been empty is not empty any more
      have hj := congrFun (hid fun x => x.kind.fresh) ⟨.matchable, j⟩
      simp only [Function.update_self] at hj
      cases hj

theorem oneWay_applyAll (ws : List Write) (m : Memory) :
    OneWay fun vars => (applyAll ws { m with vars := vars }).vars := by
  induction ws generalizing m with
  | nil => exact oneWay_id
  | cons w ws ih =>
    obtain ⟨m', g, hg, happly, -⟩ := w.apply_vars m
    simp only [applyAll, happly]
    exact (ih m').comp hg

/-- **If the writes leave all variables as they are, each of them does.** -/
theorem idle_of_unchanged {ws : List Write} {m : Memory}
    (h : ∀ vars, (applyAll ws { m with vars := vars }).vars = vars) : ∀ w ∈ ws, w.Idle := by
  induction ws generalizing m with
  | nil => exact fun _ hw => absurd hw List.not_mem_nil
  | cons w ws ih =>
    obtain ⟨m', g, -, happly, hidle⟩ := w.apply_vars m
    simp only [applyAll, happly] at h
    obtain ⟨hws, hw⟩ := (oneWay_applyAll ws m').of_comp h
    exact List.forall_mem_cons.mpr ⟨hidle hw, ih hws⟩

end Write

/-! ### Messages on which a pattern writes nothing -/

namespace Arg

variable (format : FloatFormat) (ndebug : Bool)

/-- On these bytes, the parser leaves the variable as it is, if there is one. -/
def WritesNothing (t : LeafType) : Arg t.kind → MsgSeq → Prop
  | .pointer _, f => ∀ a, ((t.reader format ndebug).change f).apply a = a
  | .value _, _ | .any _, _ => True

/-- The pattern matches, on any memory, and stops there. -/
def Accepts (t : LeafType) (arg : Arg t.kind) (f rest : MsgSeq) : Prop :=
  ∃ m m', ((t.pattern arg.toFrom).toObject format ndebug).matchFn f m = some (true, rest, m')

/-- The elements of a list, as far as they are reached. -/
def AllWriteNothing : List (Arg .int) → MsgSeq → Prop
  | [], _ => True
  | arg :: args, f => WritesNothing format ndebug .int arg f ∧
    ∀ rest, Accepts format ndebug .int arg f rest → AllWriteNothing args rest

/-- The elements of a packed string, as far as they are reached: a variable takes a byte, if there
is one, and a value that does not match goes on to the next. -/
def PackedWriteNothing : List (Arg .int) → MsgSeq → Prop
  | [], _ => True
  | .pointer _ :: args, f => f = [] ∧ PackedWriteNothing args []
  | .value val :: args, f => f.head?.map IntObject.ofElement ≠ some val → PackedWriteNothing args f.tail
  | .any _ :: args, f => f.head?.map IntObject.ofElement ≠ some 0 → PackedWriteNothing args f.tail

end Arg

namespace MemoryPattern

variable (format : FloatFormat) (ndebug : Bool)

/-- The pattern matches, on any memory, and stops there. -/
def Accepts (p : MemoryPattern) (f rest : MsgSeq) : Prop :=
  ∃ m m', p.matchFn format ndebug f m = some (true, rest, m')

mutual

/-- No variable is reached, or its parser finds nothing to write. -/
def WritesNothing : MemoryPattern → MsgSeq → Prop
  | leaf t arg, f => arg.WritesNothing format ndebug t f
  | tuple contained, f => ∀ rest, smallTupleHeadExt f 0 = (some rest, contained.length) →
    AllWriteNothing contained rest
  | list contained, f => ∀ rest, listHeadExt f 0 = (some rest, contained.length) →
    AllWriteNothing contained rest
  | intList contained, f =>
    (∀ rest, stringHeadExt f 0 = (some rest, contained.length) →
      Arg.PackedWriteNothing contained rest) ∧
    ∀ rest, listHeadExt f 0 = (some rest, contained.length) →
      Arg.AllWriteNothing format ndebug contained rest
  | listOf t _, f => ∀ a, ((t.reader format ndebug).change f).apply a = a
  | any _ toAssign, _ => toAssign = none

/-- The elements, as far as they are reached. -/
def AllWriteNothing : List MemoryPattern → MsgSeq → Prop
  | [], _ => True
  | p :: contained, f => p.WritesNothing f ∧
    ∀ rest, p.Accepts format ndebug f rest → AllWriteNothing contained rest

end

end MemoryPattern

/-! ### They are those whose writes do nothing -/

namespace Trace

variable {format : FloatFormat} {ndebug : Bool} {f rest : MsgSeq} {ws : List Write} {b : Bool}

theorem idle_leaf {t : LeafType} {arg : Arg t.kind}
    (h : leaf format ndebug t arg f = some (b, rest, ws)) :
    arg.WritesNothing format ndebug t f ↔ ∀ w ∈ ws, w.Idle := by
  cases arg with
  | value val =>
    obtain ⟨r, -, hr⟩ := Option.map_eq_some_iff.mp h
    cases hr
    simp only [Arg.WritesNothing, List.not_mem_nil, false_implies, implies_true]
  | pointer index =>
    obtain ⟨r, -, hr⟩ := Option.map_eq_some_iff.mp h
    cases hr
    simp only [Arg.WritesNothing, List.mem_singleton, forall_eq]
    rfl
  | any index =>
    obtain ⟨r, -, hr⟩ := Option.map_eq_some_iff.mp h
    cases hr
    simp only [Arg.WritesNothing, List.mem_singleton, forall_eq, true_iff]
    trivial

theorem idle_listOf {t : ListType} {index : ℕ}
    (h : listOf format ndebug t index f = some (b, rest, ws)) :
    (∀ a, ((t.reader format ndebug).change f).apply a = a) ↔ ∀ w ∈ ws, w.Idle := by
  obtain ⟨r, -, hr⟩ := Option.map_eq_some_iff.mp h
  cases hr
  simp only [List.mem_singleton, forall_eq]
  rfl

theorem idle_any {index : ℕ} {toAssign : Option ℕ}
    (h : any ndebug index toAssign f = some (b, rest, ws)) :
    toAssign = none ↔ ∀ w ∈ ws, w.Idle := by
  obtain ⟨r, -, hr⟩ := Option.map_eq_some_iff.mp h
  cases hr
  simp only [List.forall_mem_cons, List.not_mem_nil, false_implies, implies_true, and_true]
  exact ⟨fun hnone => ⟨trivial, hnone⟩, fun hidle => hidle.2⟩

/-- What an accepted message is to a trace. -/
theorem accepts_iff {trace : Trace} {matcher : Matcher Memory} (h : trace.Of matcher) :
    (∃ m m', matcher f m = some (true, rest, m')) ↔ ∃ ws, trace f = some (true, rest, ws) := by
  constructor
  · rintro ⟨m, m', hmatch⟩
    rw [h f m] at hmatch
    obtain ⟨⟨success, rest', ws⟩, htrace, hr⟩ := Option.map_eq_some_iff.mp hmatch
    cases hr
    exact ⟨ws, htrace⟩
  · rintro ⟨ws, htrace⟩
    exact ⟨.fresh, Write.applyAll ws .fresh, by rw [h f, htrace]; rfl⟩

/-- The first element and the others, if it matches. -/
theorem idle_cons {trace : Trace} {traces : List Trace} {first : Prop} {others : MsgSeq → Prop}
    (hfirst : ∀ {b rest ws}, trace f = some (b, rest, ws) → (first ↔ ∀ w ∈ ws, w.Idle))
    (hothers : ∀ {f b rest ws}, all traces f = some (b, rest, ws) →
      (others f ↔ ∀ w ∈ ws, w.Idle))
    (h : all (trace :: traces) f = some (b, rest, ws)) :
    (first ∧ ∀ rest, (∃ ws, trace f = some (true, rest, ws)) → others rest) ↔
      ∀ w ∈ ws, w.Idle := by
  rcases htrace : trace f with _ | ⟨_ | _, f', ws'⟩
  · simp only [all, htrace, reduceCtorEq] at h
  · -- the first one does not match, and so it is the last one
    simp only [all, htrace, Option.some.injEq, Prod.mk.injEq] at h
    obtain ⟨-, -, rfl⟩ := h
    rw [hfirst htrace]
    simp
  · simp only [all, htrace] at h
    obtain ⟨⟨b', rest', ws''⟩, hall, hr⟩ := Option.map_eq_some_iff.mp h
    cases hr
    rw [hfirst htrace, List.forall_mem_append, ← hothers hall]
    simp

/-- What is behind a head, or nothing if there is no head or another number of elements. -/
theorem idle_behind {head : Qi ℕ} {n : ℕ} {inner : Trace} {others : MsgSeq → Prop}
    (hinner : ∀ {f b rest ws}, inner f = some (b, rest, ws) → (others f ↔ ∀ w ∈ ws, w.Idle))
    (h : behind head n inner f = some (b, rest, ws)) :
    (∀ rest, head f 0 = (some rest, n) → others rest) ↔ ∀ w ∈ ws, w.Idle := by
  rcases hhead : head f 0 with ⟨_ | f', n'⟩
  · simp only [behind, binaryToTerm, hhead, Bool.false_and, Bool.false_eq_true, if_false,
      Option.some.injEq, Prod.mk.injEq] at h
    obtain ⟨-, -, rfl⟩ := h
    simp
  · by_cases hlen : n = n'
    · simp only [behind, binaryToTerm, hhead, hlen, decide_true, Bool.and_self, if_true] at h
      simp [hlen, hinner h]
    · simp only [behind, binaryToTerm, hhead, hlen, decide_false, Bool.and_false,
        Bool.false_eq_true, if_false, Option.some.injEq, Prod.mk.injEq] at h
      obtain ⟨-, -, rfl⟩ := h
      simp [Ne.symm hlen]

theorem idle_list {traces : List Trace} {others : MsgSeq → Prop}
    (hothers : ∀ {f b rest ws}, all traces f = some (b, rest, ws) →
      (others f ↔ ∀ w ∈ ws, w.Idle))
    (h : list traces f = some (b, rest, ws)) :
    (∀ rest, listHeadExt f 0 = (some rest, traces.length) → others rest) ↔
      ∀ w ∈ ws, w.Idle := by
  obtain ⟨⟨b', rest', ws'⟩, hbehind, hr⟩ := Option.map_eq_some_iff.mp h
  cases hr
  exact idle_behind hothers hbehind

/-- An element that is compared with a value, and another one if it differs. -/
theorem idle_elements_cons {arg : Arg .int} {args : List (Arg .int)} {val : Int32}
    {others : Prop}
    (helement : element arg f = (decide (f.head?.map IntObject.ofElement = some val), []))
    (hothers : ∀ {b rest ws}, elements args f.tail = some (b, rest, ws) →
      (others ↔ ∀ w ∈ ws, w.Idle))
    (h : elements (arg :: args) f = some (b, rest, ws)) :
    (f.head?.map IntObject.ofElement ≠ some val → others) ↔ ∀ w ∈ ws, w.Idle := by
  by_cases hmatch : f.head?.map IntObject.ofElement = some val
  · simp only [elements, helement, hmatch, decide_true, Option.some.injEq, Prod.mk.injEq] at h
    obtain ⟨-, -, rfl⟩ := h
    simp [hmatch]
  · simp only [elements, helement, hmatch, decide_false, List.nil_append, List.drop_one,
      Option.map_id'] at h
    simp [hmatch, hothers h]

theorem idle_elements {args : List (Arg .int)} (h : elements args f = some (b, rest, ws)) :
    Arg.PackedWriteNothing args f ↔ ∀ w ∈ ws, w.Idle := by
  induction args generalizing f b rest ws with
  | nil =>
    cases h
    simp [Arg.PackedWriteNothing]
  | cons arg args ih =>
    cases arg with
    | value val =>
      refine idle_elements_cons ?_ ih h
      cases f with
      | nil => rfl
      | cons c f => simp [element, eq_comm]
    | any index =>
      refine idle_elements_cons ?_ ih h
      cases f with
      | nil => rfl
      | cons c f => simp [element, eq_comm]
    | pointer index =>
      cases f with
      | nil =>
        simp only [elements, element, List.nil_append, List.drop_nil, Option.map_id'] at h
        simp [Arg.PackedWriteNothing, ih h]
      | cons c f =>
        -- the variable takes the byte, which is one of several it could hold
        simp only [elements, element, Option.some.injEq, Prod.mk.injEq] at h
        obtain ⟨-, -, rfl⟩ := h
        have hwritten : ¬ ∀ a, (Change.assignElement c).apply a = a := fun hall =>
          absurd ((hall (0 : Int32)).symm.trans (hall (1 : Int32))) (by decide)
        simpa [Arg.PackedWriteNothing, Write.Idle] using hwritten

/-- The elements of a list of integers, like those of any list. -/
theorem idle_ints {args : List (Arg .int)}
    (h : all (args.map (leaf format ndebug .int)) f = some (b, rest, ws)) :
    Arg.AllWriteNothing format ndebug args f ↔ ∀ w ∈ ws, w.Idle := by
  induction args generalizing f b rest ws with
  | nil =>
    cases h
    simp [Arg.AllWriteNothing]
  | cons arg args ih =>
    simp only [Arg.AllWriteNothing, Arg.Accepts, accepts_iff (of_leaf .int arg)]
    exact idle_cons idle_leaf ih h

theorem idle_intList {args : List (Arg .int)}
    (h : intList format ndebug args f = some (b, rest, ws)) :
    (∀ rest, stringHeadExt f 0 = (some rest, args.length) → Arg.PackedWriteNothing args rest) ∧
      (∀ rest, listHeadExt f 0 = (some rest, args.length) →
        Arg.AllWriteNothing format ndebug args rest) ↔ ∀ w ∈ ws, w.Idle := by
  cases f with
  | nil => cases h
  | cons c f =>
    by_cases hc : c = TypeTag.stringExt
    · have hother : ∀ rest, listHeadExt (c :: f) 0 ≠ (some rest, args.length) := by
        intro rest hhead
        obtain ⟨f', hf⟩ := eq_cons_of_seq_lit (congrArg Prod.fst hhead)
        cases hf
        cases hc
      rw [intList, if_pos hc] at h
      rw [← idle_behind idle_elements h]
      exact and_iff_left fun rest hhead => absurd hhead (hother rest)
    · have hother : ∀ rest, stringHeadExt (c :: f) 0 ≠ (some rest, args.length) := by
        intro rest hhead
        obtain ⟨f', hf⟩ := eq_cons_of_seq_lit (congrArg Prod.fst hhead)
        cases hf
        exact hc rfl
      rw [intList, if_neg hc] at h
      rw [← idle_list idle_ints h, List.length_map]
      exact and_iff_right fun rest hhead => absurd hhead (hother rest)

end Trace

namespace MemoryPattern

variable {format : FloatFormat} {ndebug : Bool} {f rest : MsgSeq} {ws : List Write} {b : Bool}

theorem length_traces (format : FloatFormat) (ndebug : Bool) (ps : List MemoryPattern) :
    (traces format ndebug ps).length = ps.length := by
  induction ps with
  | nil => rfl
  | cons p ps ih => rw [traces, List.length_cons, List.length_cons, ih]

mutual

/-- **The messages on which a pattern writes nothing**, by what it does. -/
theorem writesNothing_iff : (p : MemoryPattern) → {f : MsgSeq} → {b : Bool} → {rest : MsgSeq} →
    {ws : List Write} → p.trace format ndebug f = some (b, rest, ws) →
    (p.WritesNothing format ndebug f ↔ ∀ w ∈ ws, w.Idle)
  | leaf t arg, _, _, _, _, h => Trace.idle_leaf h
  | tuple contained, f, b, rest, ws, h => by
    rw [WritesNothing, ← length_traces format ndebug]
    exact Trace.idle_behind (allWriteNothing_iff contained) h
  | list contained, f, b, rest, ws, h => by
    rw [WritesNothing, ← length_traces format ndebug]
    exact Trace.idle_list (allWriteNothing_iff contained) h
  | intList contained, _, _, _, _, h => Trace.idle_intList h
  | listOf t index, _, _, _, _, h => Trace.idle_listOf h
  | any index toAssign, _, _, _, _, h => Trace.idle_any h

theorem allWriteNothing_iff : (ps : List MemoryPattern) → {f : MsgSeq} → {b : Bool} →
    {rest : MsgSeq} → {ws : List Write} →
    Trace.all (traces format ndebug ps) f = some (b, rest, ws) →
    (AllWriteNothing format ndebug ps f ↔ ∀ w ∈ ws, w.Idle)
  | [], _, _, _, _, h => by
    cases h
    simp [AllWriteNothing]
  | p :: ps, f, b, rest, ws, h => by
    simp only [AllWriteNothing, Accepts, Trace.accepts_iff (p.of_trace format ndebug)]
    exact Trace.idle_cons (writesNothing_iff p) (allWriteNothing_iff ps) h

end

/-- **A failed match binds nothing, exactly when it writes nothing**: on a message that the pattern
does not match, all variables hold what they have held before, whatever that is, if and only if no
variable is reached before the mismatch whose parser finds something to write. -/
theorem failed_binds_nothing_iff (p : MemoryPattern) (f : MsgSeq) {m₀ m₁ : Memory}
    {rest₀ : MsgSeq} (hfalse : p.matchFn format ndebug f m₀ = some (false, rest₀, m₁)) :
    (∀ m rest m', p.matchFn format ndebug f m = some (false, rest, m') → m'.vars = m.vars) ↔
      p.WritesNothing format ndebug f := by
  rw [p.matchFn_eq] at hfalse
  obtain ⟨⟨b, rest₁, ws⟩, htrace, hr⟩ := Option.map_eq_some_iff.mp hfalse
  cases hr
  have hmatch (m : Memory) : p.matchFn format ndebug f m =
      some (false, rest₁, Write.applyAll ws m) := by
    rw [p.matchFn_eq, htrace]
    rfl
  rw [writesNothing_iff p htrace]
  constructor
  · intro hkeeps
    exact Write.idle_of_unchanged fun vars => hkeeps { m₀ with vars := vars } _ _ (hmatch _)
  · intro hidle m rest m' h
    rw [hmatch m] at h
    cases h
    exact Write.vars_applyAll_of_idle hidle m

/-- `{X, 1}`, with a variable `X`. -/
def variableAndOne : MemoryPattern := .tuple [.leaf .int (.pointer 0), .leaf .int (.value 1)]

/-- The tuple `{5, 2}`. -/
def fiveAndTwo : MsgSeq := smallTupleHeadG 2 ++ smallIntegerG 5 ++ smallIntegerG 2

theorem failed_binds_nothing_iff_fiveAndTwo :
    (∀ m rest m', variableAndOne.matchFn .silent false fiveAndTwo m = some (false, rest, m') →
      m'.vars = m.vars) ↔ variableAndOne.WritesNothing .silent false fiveAndTwo :=
  failed_binds_nothing_iff variableAndOne fiveAndTwo
    (show variableAndOne.matchFn .silent false fiveAndTwo .fresh = some (false, [], _) from rfl)

/-- The two are not matched, but the variable is bound to the five. -/
theorem failed_match_binds : ¬ ∀ (format : FloatFormat) (ndebug : Bool) (p : MemoryPattern)
    (f : MsgSeq) (m : Memory) (rest : MsgSeq) (m' : Memory),
    p.matchFn format ndebug f m = some (false, rest, m') → m'.vars = m.vars := by
  intro hkeeps
  have hvars := hkeeps .silent false variableAndOne fiveAndTwo .fresh [] _ rfl
  have hfive : (5 : Int32) = 0 := congrFun hvars ⟨.int, 0⟩
  exact absurd hfive (by decide)

end MemoryPattern

end TinchPp
