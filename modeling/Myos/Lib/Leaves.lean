import Myos.Lib.Act

/-!
# What an action leaves alone

An observation of the state that is the same wherever an action ends (`Act.Leaves`). The
rules follow the ways an action is put together, so that a function is done part by part.
-/

namespace Myos.Lib.Act

universe u v w w'

variable {σ τ : Type u} {α β : Type v} {ω : Type w} {ω' : Type w'} {obs : σ → ω}

/-- Wherever `x` ends, the observation is what it was. -/
def Leaves (obs : σ → ω) (x : Act σ α) : Prop := Within (fun s s' => obs s' = obs s) x

namespace Leaves

theorem pure (a : α) : Leaves obs (Pure.pure a : Act σ α) := fun _ => rfl

theorem gets (f : σ → α) : Leaves obs (Act.gets f) := fun _ => rfl

theorem stop : Leaves obs (Act.stop : Act σ α) := fun _ => rfl

theorem deref (o : Option α) : Leaves obs (Act.deref o) := by
  cases o with
  | none => exact fun _ => rfl
  | some a => exact fun _ => rfl

/-- A function without an effect that the rules do not reach. -/
theorem of_fixed {x : Act σ α} (h : ∀ s, (x s).state = s) : Leaves obs x := fun s => by
  rw [h]

theorem modify {f : σ → σ} (h : ∀ s, obs (f s) = obs s) : Leaves obs (Act.modify f) := h

theorem bind {x : Act σ α} {f : α → Act σ β} (hx : Leaves obs x) (hf : ∀ a, Leaves obs (f a)) :
    Leaves obs (x >>= f) :=
  Within.bind (r := fun s s' => obs s' = obs s) (fun h h' => h'.trans h) hx hf

theorem ite {c : Prop} [Decidable c] {x y : Act σ α} (hx : Leaves obs x) (hy : Leaves obs y) :
    Leaves obs (if c then x else y) := by
  split
  · exact hx
  · exact hy

/-- An action of a part, where the whole shows no more of it than the part does. -/
theorem zoom {get : τ → σ} {put : σ → τ → τ} {obs' : τ → ω'}
    (hput : ∀ s t, obs s = obs (get t) → obs' (put s t) = obs' t) {x : Act σ α}
    (h : Leaves obs x) : Leaves obs' (Act.zoom get put x) := fun t => by
  show obs' (Act.zoom get put x t).state = obs' t
  rw [zoom_state]
  exact hput _ t (h (get t))

/-- An action of a part that the observation is not of. -/
theorem beside {get : τ → σ} {put : σ → τ → τ} {obs' : τ → ω'}
    (hput : ∀ s t, obs' (put s t) = obs' t) (x : Act σ α) : Leaves obs' (Act.zoom get put x) :=
  fun t => by
    show obs' (Act.zoom get put x t).state = obs' t
    rw [zoom_state]
    exact hput _ t

theorem of_ok {x : Act σ α} {s s' : σ} {a : α} (h : Leaves obs x) (hx : x s = .ok a s') :
    obs s' = obs s := by
  have hs := h s
  rwa [hx] at hs

end Leaves

end Myos.Lib.Act
