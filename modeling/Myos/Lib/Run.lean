import Mathlib.Logic.Basic
import Mathlib.Tactic.Cases

/-!
# Runs

A system is a step relation labelled by events. `Steps step s es t` is a
run, `Steps.invariant` packages the one induction every safety result
needs, and `Steps.simulate` the one every refinement needs: a relation
between a concrete and an abstract state that each concrete step carries to
an abstract step with the same event.
-/

namespace Myos.Lib

variable {σ τ ε ε' : Type*}

/-- A run: the events in order, and the state reached. -/
inductive Steps (step : σ → ε → σ → Prop) : σ → List ε → σ → Prop
  | nil (s : σ) : Steps step s [] s
  | cons {s t u : σ} {e : ε} {es : List ε} :
      step s e t → Steps step t es u → Steps step s (e :: es) u

namespace Steps

variable {step : σ → ε → σ → Prop} {s t u : σ} {e : ε} {es es' : List ε}

/-- What holds at first and is kept by every step holds at the end. -/
theorem invariant (inv : σ → Prop) (keep : ∀ {s e t}, inv s → step s e t → inv t)
    (h : Steps step s es t) (hs : inv s) : inv t := by
  induction h with
  | nil s => exact hs
  | cons hstep _ ih => exact ih (keep hs hstep)

/-- A run of one step more. -/
theorem snoc (h : Steps step s es t) (hstep : step t e u) : Steps step s (es ++ [e]) u := by
  induction h with
  | nil s => exact .cons hstep (.nil u)
  | cons h' _ ih => exact .cons h' (ih hstep)

/-- Runs compose. -/
theorem append (h : Steps step s es t) (h' : Steps step t es' u) :
    Steps step s (es ++ es') u := by
  induction h with
  | nil s => exact h'
  | cons hstep _ ih => exact .cons hstep (ih h')

/-- The first step of a run. -/
theorem of_cons (h : Steps step s (e :: es) u) : ∃ t, step s e t ∧ Steps step t es u := by
  cases h with
  | cons hstep hrest => exact ⟨_, hstep, hrest⟩

/-- A run of two lists is a run of each, one after the other. -/
theorem of_append (h : Steps step s (es ++ es') u) : ∃ t, Steps step s es t ∧ Steps step t es' u := by
  induction es generalizing s with
  | nil => exact ⟨s, .nil s, h⟩
  | cons e es ih =>
    obtain ⟨s', hstep, hrest⟩ := h.of_cons
    obtain ⟨t, hfirst, hsecond⟩ := ih hrest
    exact ⟨t, .cons hstep hfirst, hsecond⟩

/-- Two step relations that agree where an invariant holds, and keep it, have
the same runs from there. -/
theorem congr {step' : σ → ε → σ → Prop} (inv : σ → Prop)
    (hiff : ∀ {s e t}, inv s → (step s e t ↔ step' s e t))
    (keep : ∀ {s e t}, inv s → step' s e t → inv t) (hs : inv s) :
    Steps step s es t ↔ Steps step' s es t := by
  constructor
  · intro h
    induction h with
    | nil s => exact .nil s
    | cons hstep _ ih =>
      have hstep' := (hiff hs).mp hstep
      exact .cons hstep' (ih (keep hs hstep'))
  · intro h
    induction h with
    | nil s => exact .nil s
    | cons hstep _ ih => exact .cons ((hiff hs).mpr hstep) (ih (keep hs hstep))

/-- FORWARD SIMULATION: a relation every concrete step carries to an
abstract step of the same event carries every run to an abstract run. -/
theorem simulate {astep : τ → ε → τ → Prop} {rel : σ → τ → Prop}
    (sim : ∀ {s e t a}, rel s a → step s e t → ∃ b, astep a e b ∧ rel t b)
    {a : τ} (h : Steps step s es t) (ha : rel s a) :
    ∃ b, Steps astep a es b ∧ rel t b := by
  induction h generalizing a with
  | nil s => exact ⟨a, .nil a, ha⟩
  | cons hstep _ ih =>
    obtain ⟨b, hab, hb⟩ := sim ha hstep
    obtain ⟨c, hbc, hc⟩ := ih hb
    exact ⟨c, .cons hab hbc, hc⟩

end Steps

end Myos.Lib
