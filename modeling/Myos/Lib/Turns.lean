import Myos.Lib.Run

/-!
# Turns on one processor

Parties that share a processor, and what they should not notice of it: everyone has a
context of their own, which stands still while another has the turn (`Bank`). A turn
(`Bank.Turn`) says what becomes of the context of the party that had it, whether it keeps
the turn or has to wait, and of a party that was not there before.

`Bank.IsTurn.waits` is the rule for a party that waits.
-/

namespace Myos.Lib

universe u v w

/-- The parties that are there, the context of each, and who has the turn. -/
structure Bank (ι : Type u) (γ : Type v) where
  live : ι → Prop
  own : ι → γ
  on : Option ι

namespace Bank

variable {ι : Type u} {γ : Type v} {ε : Type w}

/-- A turn of `p`: who keeps it goes on with a context in `goes`, who does not waits with
`waits`, and what comes to be has a context in `born`. -/
structure Turn (p : ι) (goes : γ → Prop) (waits : γ) (born : γ → Prop) (b b' : Bank ι γ) :
    Prop where
  on : b.on = some p
  next : ∀ q, b'.on = some q → b'.live q
  goes : b'.on = some p → goes (b'.own p)
  waits : b'.on ≠ some p → b'.live p → b'.own p = waits
  others : ∀ q, q ≠ p → b.live q → b'.live q ∧ b'.own q = b.own q
  born : ∀ q, ¬ b.live q → b'.live q → born (b'.own q)

/-- An event is a turn of whoever had it. -/
def IsTurn (step : Bank ι γ → ε → Bank ι γ → Prop) : Prop :=
  ∀ b e b', step b e b' → ∃ p goes waits born, Turn p goes waits born b b'

variable {step : Bank ι γ → ε → Bank ι γ → Prop} {b b' : Bank ι γ} {q : ι} {e : ε} {es : List ε}

/-- A party that does not have the turn is not moved. -/
theorem IsTurn.others (h : IsTurn step) (hstep : step b e b') (hon : b.on ≠ some q)
    (hq : b.live q) : b'.live q ∧ b'.own q = b.own q := by
  obtain ⟨p, goes, waits, born, hturn⟩ := h b e b' hstep
  refine hturn.others q (fun hqp => hon ?_) hq
  rw [hqp]
  exact hturn.on

/-- WAIT: in a run in which `q` never has the turn before a step, it is not moved. -/
theorem IsTurn.waits (h : IsTurn step)
    (hrun : Steps (fun b e b' => b.on ≠ some q ∧ step b e b') b es b') (hq : b.live q) :
    b'.live q ∧ b'.own q = b.own q := by
  refine Steps.invariant (fun x => x.live q ∧ x.own q = b.own q) ?_ hrun ⟨hq, rfl⟩
  rintro s e t ⟨hlive, hown⟩ ⟨hon, hstep⟩
  obtain ⟨hlive', hown'⟩ := h.others hstep hon hlive
  exact ⟨hlive', hown'.trans hown⟩

end Bank

end Myos.Lib
