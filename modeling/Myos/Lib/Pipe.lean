import Mathlib.Data.List.Basic
import Myos.Lib.Run

/-!
# Pipes

A system that takes items in and gives items out, in the order they came. What it holds
is a list; a step takes in the items of its event behind it, and gives out some from the
front (`Steps.conserved`). Of a whole run then nothing was lost, made up, doubled or moved.
-/

namespace Myos.Lib.Steps

variable {σ ε α : Type*} {step : σ → ε → σ → Prop} {s t : σ} {es : List ε}

/-- CONSERVE: if each step gives out from the front what it takes in at the back, in a way
that `gives` has, so does a run, and the items it gave out are known step by step. -/
theorem conserved (inv : σ → Prop) (held : σ → List α) (takes : ε → List α)
    (gives : σ → ε → List α → σ → Prop)
    (one : ∀ {s e t}, inv s → step s e t →
      inv t ∧ ∃ out, gives s e out t ∧ held s ++ takes e = out ++ held t)
    (h : Steps step s es t) (hs : inv s) : inv t ∧ ∃ outs : List (ε × List α),
      outs.map Prod.fst = es ∧
      Steps (fun s (x : ε × List α) t => step s x.1 t ∧ gives s x.1 x.2 t) s outs t ∧
      held s ++ es.flatMap takes = outs.flatMap Prod.snd ++ held t := by
  induction h with
  | nil s => exact ⟨hs, [], rfl, .nil s, by simp⟩
  | cons hstep _ ih =>
    obtain ⟨ht, out, hgives, hone⟩ := one hs hstep
    obtain ⟨hu, outs, hfst, hrun, hrest⟩ := ih ht
    refine ⟨hu, (_, out) :: outs, by simp [hfst], .cons ⟨hstep, hgives⟩ hrun, ?_⟩
    rw [List.flatMap_cons, List.flatMap_cons, ← List.append_assoc, hone, List.append_assoc, hrest,
      List.append_assoc]

/-- DELIVER: if what a step gives out goes to a sink, so does what a run gives out. -/
theorem delivered (inv : σ → Prop) (held sink : σ → List α) (takes : ε → List α)
    (one : ∀ {s e t}, inv s → step s e t →
      inv t ∧ ∃ out, sink t = sink s ++ out ∧ held s ++ takes e = out ++ held t)
    (h : Steps step s es t) (hs : inv s) :
    inv t ∧ ∃ out, sink t = sink s ++ out ∧ held s ++ es.flatMap takes = out ++ held t := by
  induction h with
  | nil s => exact ⟨hs, [], by simp, by simp⟩
  | cons hstep _ ih =>
    obtain ⟨ht, out, hsink, hone⟩ := one hs hstep
    obtain ⟨hu, out', hsink', hrest⟩ := ih ht
    refine ⟨hu, out ++ out', by rw [hsink', hsink, List.append_assoc], ?_⟩
    rw [List.flatMap_cons, ← List.append_assoc, hone, List.append_assoc, hrest, List.append_assoc]

end Myos.Lib.Steps
