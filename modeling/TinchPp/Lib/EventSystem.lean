import Mathlib.Data.List.Infix
import Mathlib.Logic.Relation

/-!
# Systems driven by events

A component of a program is often a state and a set of calls that change it, made in whatever
order the environment likes. `EventSystem.run` plays a list of calls on a partial, deterministic
step function; `none` is a call that never comes back (it is not enabled, it aborts, or it does
not terminate), and nothing follows it.

Two quantifiers over a run are needed again and again, and they are kept apart here:

* `Throughout P s es` — every *state* reached while the events `es` are played satisfies `P`;
* `EveryStep G s es` — every *step* taken meets the condition `G`, read off the state before the
  step and the event.

The rules below turn a fact about one step into a fact about all runs.
-/

namespace EventSystem

variable {σ ε : Type*}

/-- Play a list of events, one after the other. -/
def run (step : σ → ε → Option σ) : σ → List ε → Option σ
  | s, [] => some s
  | s, e :: es => (step s e).bind fun s' => run step s' es

variable {step : σ → ε → Option σ}

@[simp] theorem run_nil (s : σ) : run step s [] = some s := rfl

@[simp] theorem run_cons (s : σ) (e : ε) (es : List ε) :
    run step s (e :: es) = (step s e).bind fun s' => run step s' es := rfl

theorem run_append (s : σ) (es es' : List ε) :
    run step s (es ++ es') = (run step s es).bind fun s' => run step s' es' := by
  induction es generalizing s with
  | nil => rfl
  | cons e es ih =>
    rw [List.cons_append, run_cons, run_cons, Option.bind_assoc]
    exact congrArg _ (funext fun s' => ih s')

/-- A run of `es` and then `e` stops in the state `e` leads to. -/
theorem run_concat_eq_some {s t : σ} {es : List ε} {e : ε} :
    run step s (es ++ [e]) = some t ↔ ∃ s', run step s es = some s' ∧ step s' e = some t := by
  rw [run_append, Option.bind_eq_some_iff]
  refine exists_congr fun s' => and_congr_right fun _ => ?_
  rw [run_cons, Option.bind_eq_some_iff]
  simp

/-- What every step preserves, every run preserves. -/
theorem run_induction {P : σ → Prop} (hstep : ∀ s e t, P s → step s e = some t → P t) :
    ∀ {es : List ε} {s t : σ}, P s → run step s es = some t → P t := by
  intro es
  induction es with
  | nil =>
    intro s t hs h
    obtain rfl : s = t := by simpa using h
    exact hs
  | cons e es ih =>
    intro s t hs h
    obtain ⟨s', hs', ht⟩ := Option.bind_eq_some_iff.mp h
    exact ih (hstep s e s' hs hs') ht

/-- A fact about a state and the events that have led to it, kept by every step. -/
theorem run_history_induction {P : List ε → σ → Prop} {s₀ : σ} (hstart : P [] s₀)
    (hstep : ∀ es s e t, P es s → step s e = some t → P (es ++ [e]) t) :
    ∀ {es : List ε} {t : σ}, run step s₀ es = some t → P es t := by
  intro es
  induction es using List.reverseRecOn with
  | nil =>
    intro t h
    obtain rfl : s₀ = t := by simpa using h
    exact hstart
  | append_singleton es e ih =>
    intro t h
    obtain ⟨s, hs, ht⟩ := run_concat_eq_some.mp h
    exact hstep es s e t (ih hs) ht

/-! ### Every state, every step -/

/-- Every state reached while `es` is played from `s`, the first and the last included. -/
def Throughout (step : σ → ε → Option σ) (P : σ → Prop) (s : σ) (es : List ε) : Prop :=
  ∀ done, done <+: es → ∀ t, run step s done = some t → P t

/-- Every step of the run of `es` from `s`: `G` sees the state before the step and the event. -/
def EveryStep (step : σ → ε → Option σ) (G : σ → ε → Prop) (s : σ) (es : List ε) : Prop :=
  ∀ done e, done ++ [e] <+: es → ∀ t, run step s done = some t → G t e

variable {P : σ → Prop} {G H : σ → ε → Prop}

theorem Throughout.start {s : σ} {es : List ε} (h : Throughout step P s es) : P s :=
  h [] List.nil_prefix s rfl

theorem Throughout.mono {s : σ} {es : List ε} {Q : σ → Prop} (h : Throughout step P s es)
    (hPQ : ∀ t, P t → Q t) : Throughout step Q s es :=
  fun done hd t ht => hPQ t (h done hd t ht)

@[simp] theorem throughout_nil {s : σ} : Throughout step P s [] ↔ P s := by
  refine ⟨fun h => h.start, fun hs done hd t ht => ?_⟩
  rw [List.prefix_nil.mp hd, run_nil, Option.some_inj] at ht
  exact ht ▸ hs

@[simp] theorem everyStep_nil {s : σ} : EveryStep step G s [] := by
  intro done e hd
  simp at hd

theorem throughout_cons {s : σ} {e : ε} {es : List ε} :
    Throughout step P s (e :: es) ↔ P s ∧ ∀ s', step s e = some s' → Throughout step P s' es := by
  constructor
  · refine fun h => ⟨h.start, fun s' hs' done hd t ht => ?_⟩
    exact h (e :: done) (List.cons_prefix_cons.mpr ⟨rfl, hd⟩) t (by rw [run_cons, hs']; exact ht)
  · rintro ⟨hs, h⟩ done hd t ht
    cases done with
    | nil =>
      obtain rfl : s = t := by simpa using ht
      exact hs
    | cons d done =>
      obtain ⟨rfl, hrest⟩ := List.cons_prefix_cons.mp hd
      obtain ⟨s', hs', ht⟩ := Option.bind_eq_some_iff.mp ht
      exact h s' hs' done hrest t ht

theorem everyStep_cons {s : σ} {e : ε} {es : List ε} :
    EveryStep step G s (e :: es) ↔
      G s e ∧ ∀ s', step s e = some s' → EveryStep step G s' es := by
  constructor
  · refine fun h => ⟨h [] e (by simp) s rfl, fun s' hs' done d hd t ht => ?_⟩
    refine h (e :: done) d ?_ t (by rw [run_cons, hs']; exact ht)
    exact List.cons_prefix_cons.mpr ⟨rfl, hd⟩
  · rintro ⟨hs, h⟩ done d hd t ht
    cases done with
    | nil =>
      obtain rfl : s = t := by simpa using ht
      obtain ⟨rfl, -⟩ := List.cons_prefix_cons.mp hd
      exact hs
    | cons d' done =>
      obtain ⟨rfl, hrest⟩ := List.cons_prefix_cons.mp hd
      obtain ⟨s', hs', ht⟩ := Option.bind_eq_some_iff.mp ht
      exact h s' hs' done d hrest t ht

theorem everyStep_append {s : σ} {es es' : List ε} : EveryStep step G s (es ++ es') ↔
    EveryStep step G s es ∧ ∀ t, run step s es = some t → EveryStep step G t es' := by
  induction es generalizing s with
  | nil => simp
  | cons e es ih =>
    rw [List.cons_append, everyStep_cons, everyStep_cons, and_assoc]
    refine and_congr_right fun _ => ⟨fun h => ⟨fun s' hs' => (ih.mp (h s' hs')).1, ?_⟩, ?_⟩
    · intro t ht
      obtain ⟨s', hs', ht⟩ := Option.bind_eq_some_iff.mp ht
      exact (ih.mp (h s' hs')).2 t ht
    · rintro ⟨hes, hes'⟩ s' hs'
      refine ih.mpr ⟨hes s' hs', fun t ht => hes' t ?_⟩
      rw [run_cons, hs']
      exact ht

/-- A condition that the events meet in every state. -/
theorem everyStep_of_forall {s : σ} {es : List ε} (h : ∀ e ∈ es, ∀ t, G t e) :
    EveryStep step G s es :=
  fun _ e hd t _ => h e (hd.subset (List.mem_append_right _ (List.mem_singleton_self e))) t

/-- In a run that gets to its end, every step comes back. -/
theorem everyStep_isSome : ∀ {es : List ε} {s : σ}, (run step s es).isSome →
    EveryStep step (fun t e => (step t e).isSome) s es := by
  intro es
  induction es with
  | nil => exact fun _ => everyStep_nil
  | cons e es ih =>
    intro s h
    obtain ⟨t, ht⟩ := Option.isSome_iff_exists.mp h
    obtain ⟨s', hs', ht⟩ := Option.bind_eq_some_iff.mp ht
    refine everyStep_cons.mpr ⟨by rw [hs']; rfl, fun s'' hs'' => ih ?_⟩
    obtain rfl : s' = s'' := Option.some_inj.mp (hs'.symm.trans hs'')
    rw [ht]
    rfl

/-! ### From one step to all runs -/

/-- **A condition on the steps keeps an invariant of the states.** -/
theorem throughout_of_everyStep (hstep : ∀ s e t, P s → G s e → step s e = some t → P t) :
    ∀ {es : List ε} {s : σ}, P s → EveryStep step G s es → Throughout step P s es := by
  intro es
  induction es with
  | nil => exact fun hs _ => throughout_nil.mpr hs
  | cons e es ih =>
    intro s hs hG
    obtain ⟨hg, hG⟩ := everyStep_cons.mp hG
    exact throughout_cons.mpr ⟨hs, fun s' hs' => ih (hstep s e s' hs hg hs') (hG s' hs')⟩

/-- **When the condition is exact.** If, from a state that satisfies the invariant, a step meets
`G` exactly when it leads back into the invariant, then a run stays inside the invariant exactly
when all its steps meet `G`. A step that does not come back has to meet `G`. -/
theorem throughout_iff_everyStep
    (hstep : ∀ s e, P s → (G s e ↔ ∀ t, step s e = some t → P t)) :
    ∀ {es : List ε} {s : σ}, P s → (Throughout step P s es ↔ EveryStep step G s es) := by
  intro es
  induction es with
  | nil => exact fun hs => ⟨fun _ => everyStep_nil, fun _ => throughout_nil.mpr hs⟩
  | cons e es ih =>
    intro s hs
    rw [throughout_cons, everyStep_cons]
    constructor
    · rintro ⟨-, h⟩
      have hP : ∀ t, step s e = some t → P t := fun t ht => (h t ht).start
      exact ⟨(hstep s e hs).mpr hP, fun t ht => (ih (hP t ht)).mp (h t ht)⟩
    · rintro ⟨hg, h⟩
      exact ⟨hs, fun t ht => (ih ((hstep s e hs).mp hg t ht)).mpr (h t ht)⟩

/-- **The converse, with an invariant of its own.** As long as the run stays inside `P`, each step
can be shown to meet `G`, and so to keep the auxiliary invariant `J`. -/
theorem everyStep_of_throughout {J : σ → Prop}
    (hG : ∀ s e, J s → (∀ t, step s e = some t → P t) → G s e)
    (hJ : ∀ s e t, J s → G s e → step s e = some t → P t → J t) :
    ∀ {es : List ε} {s : σ}, J s → Throughout step P s es → EveryStep step G s es := by
  intro es
  induction es with
  | nil => exact fun _ _ => everyStep_nil
  | cons e es ih =>
    intro s hs hP
    obtain ⟨-, hP⟩ := throughout_cons.mp hP
    have hg : G s e := hG s e hs fun t ht => (hP t ht).start
    exact everyStep_cons.mpr ⟨hg, fun t ht => ih (hJ s e t hs hg ht (hP t ht).start) (hP t ht)⟩

/-- An invariant of all steps may be assumed of every state a run passes through. -/
theorem everyStep_iff_of_invariant {I : σ → Prop} (hI : ∀ s e t, I s → step s e = some t → I t)
    (hGH : ∀ s e, I s → (G s e ↔ H s e)) {es : List ε} {s : σ} (hs : I s) :
    EveryStep step G s es ↔ EveryStep step H s es := by
  have key : ∀ done t, run step s done = some t → I t := fun done t ht => run_induction hI hs ht
  exact ⟨fun h done e hd t ht => (hGH t e (key done t ht)).mp (h done e hd t ht),
    fun h done e hd t ht => (hGH t e (key done t ht)).mpr (h done e hd t ht)⟩

end EventSystem
