import Mathlib.Data.List.Basic
import TinchPp.Lib.EventSystem

/-!
# Simulations between systems driven by events

A system refines another one if a relation between their states is kept: what the first one does in
a step, the second one does in some steps, possibly none, that look the same. `obs` and `obs'` are
what can be seen of an event. Then a whole run of the first system is one of the second.

The steps of the second system may be known to meet a condition `G`, which the run of the first one
does not show.

The relation may be kept only in those runs that end well. `Ends` is what is true of the last state
of such a run, and if it is true of a state then it has been true before, as is the case for
whatever is said about all of a history.

## Main results

* `Simulates.exists_run` — from steps to runs
-/

namespace EventSystem

variable {σ τ ε δ ω : Type*}

/-- Each step that leads to a state with `Ends` is matched. -/
structure Simulates (step : σ → ε → Option σ) (step' : τ → δ → Option τ) (obs : ε → Option ω)
    (obs' : δ → Option ω) (Rel : σ → τ → Prop) (Ends : σ → Prop) (G : τ → δ → Prop) : Prop where
  ends_before : ∀ s e t, step s e = some t → Ends t → Ends s
  matched : ∀ s e t s', Rel s s' → Ends t → step s e = some t → ∃ ds t',
    run step' s' ds = some t' ∧ EveryStep step' G s' ds ∧ Rel t t' ∧
      ds.filterMap obs' = (obs e).toList

variable {step : σ → ε → Option σ} {step' : τ → δ → Option τ} {obs : ε → Option ω}
  {obs' : δ → Option ω} {Rel : σ → τ → Prop} {Ends : σ → Prop} {G : τ → δ → Prop}

/-- **A run is simulated by a run**, in which the same things are seen in the same order. -/
theorem Simulates.exists_run (hsim : Simulates step step' obs obs' Rel Ends G) {s t : σ}
    {s' : τ} {es : List ε} (hs : Rel s s') (h : run step s es = some t) (ht : Ends t) : ∃ ds t',
      run step' s' ds = some t' ∧ EveryStep step' G s' ds ∧ Rel t t' ∧
        ds.filterMap obs' = es.filterMap obs := by
  have hall : Ends t → ∃ ds t', run step' s' ds = some t' ∧ EveryStep step' G s' ds ∧ Rel t t' ∧
      ds.filterMap obs' = es.filterMap obs := by
    refine run_history_induction (P := fun es u => Ends u → ∃ ds t', run step' s' ds = some t' ∧
      EveryStep step' G s' ds ∧ Rel u t' ∧ ds.filterMap obs' = es.filterMap obs)
      (fun _ => ⟨[], s', rfl, everyStep_nil, hs, rfl⟩) (fun es u e v hu hstep hv => ?_) h
    obtain ⟨ds, u', hrun, hG, hrel, hobs⟩ := hu (hsim.ends_before u e v hstep hv)
    obtain ⟨ds', v', hrun', hG', hrel', hobs'⟩ := hsim.matched u e v u' hrel hv hstep
    refine ⟨ds ++ ds', v', ?_, everyStep_append.mpr ⟨hG, fun t ht => ?_⟩, hrel', ?_⟩
    · rw [run_append, hrun]
      exact hrun'
    · obtain rfl := Option.some_inj.mp (hrun.symm.trans ht)
      exact hG'
    · rw [List.filterMap_append, List.filterMap_append, hobs, hobs']
      rcases hseen : obs e with _ | o <;> simp [hseen]
  exact hall ht

end EventSystem
