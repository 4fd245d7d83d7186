import Myos.Lib.Act

/-!
# Counted loops

`forLoop cond next body` is the loop `for (; cond i; i = next i) body`, given up
after a number of turns, which is no end of it. What a loop comes to is had a turn at a
time (`forLoop_turn`, `forLoop_end`).

`whileLoop cond body` is the loop `while (cond) body`, given up the same way. What code
with such loops in it comes to when there are turns enough is `Settles`: it is had part
by part (`Settles.bind`), and for a loop a turn at a time (`Settles.turn`,
`Settles.done`), at any number of turns past a bound.
-/

namespace Myos.Lib.Act

variable {σ ι : Type} {cond : ι → Bool} {next : ι → ι} {body : ι → Act σ Unit}

/-- `for (; cond i; i = next i) body`, with at most so many turns. -/
def forLoop (cond : ι → Bool) (next : ι → ι) (body : ι → Act σ Unit) : Nat → ι → Act σ Unit
  | 0, _ => stop
  | n + 1, i => if cond i then do body i; forLoop cond next body n (next i) else pure ()

section Turns

variable {s s' : σ} {i : ι} {n : Nat}

/-- A turn. -/
theorem forLoop_turn (hc : cond i = true) (hb : body i s = .ok () s') :
    forLoop cond next body (n + 1) i s = forLoop cond next body n (next i) s' := by
  rw [forLoop, if_pos hc, bind_ok hb]

/-- The end. -/
theorem forLoop_end (hc : cond i = false) : forLoop cond next body (n + 1) i s = .ok () s := by
  rw [forLoop, if_neg (by rw [hc]; decide)]
  rfl

end Turns

/-! ## Turns enough -/

/-- `while (cond) body`, with at most so many turns. -/
def whileLoop (cond : Act σ Bool) (body : Act σ Unit) : Nat → Act σ Unit
  | 0 => stop
  | n + 1 => do
    if ← cond then
      body
      whileLoop cond body n
    else return ()

/-- With turns enough, `x` hands on `a` and leaves `s'`. -/
def Settles {α : Type} (x : Nat → Act σ α) (s : σ) (a : α) (s' : σ) : Prop :=
  ∃ lower, ∀ t, lower ≤ t → x t s = .ok a s'

namespace Settles

variable {α β : Type} {s s' s'' : σ} {a : α} {b : β}

/-- It comes to one end. -/
theorem unique {x : Nat → Act σ α} {a' : α} (h : Settles x s a s') (h' : Settles x s a' s'') :
    s' = s'' := by
  obtain ⟨lower, hx⟩ := h
  obtain ⟨lower', hx'⟩ := h'
  have hleft := hx _ (Nat.le_max_left lower lower')
  rw [hx' _ (Nat.le_max_right lower lower')] at hleft
  injection hleft with _ hs
  exact hs.symm

/-- What has no loop in it. -/
theorem of_ok {x : Act σ α} (h : x s = .ok a s') : Settles (fun _ => x) s a s' := ⟨0, fun _ _ => h⟩

/-- One part after another. -/
theorem bind {x : Nat → Act σ α} {f : Nat → α → Act σ β} (h : Settles x s a s')
    (hf : Settles (fun t => f t a) s' b s'') : Settles (fun t => x t >>= f t) s b s'' := by
  obtain ⟨lower, hx⟩ := h
  obtain ⟨lower', hf⟩ := hf
  refine ⟨max lower lower', fun t ht => ?_⟩
  show (x t >>= f t) s = .ok b s''
  rw [bind_ok (hx t (Nat.le_trans (Nat.le_max_left _ _) ht))]
  exact hf t (Nat.le_trans (Nat.le_max_right _ _) ht)

variable {cond : Act σ Bool} {body : Act σ Unit}

/-- The loop is at its end. -/
theorem done (hc : cond s = .ok false s') : Settles (whileLoop cond body) s () s' := by
  refine ⟨1, fun t ht => ?_⟩
  obtain ⟨n, rfl⟩ := Nat.exists_eq_add_of_le' ht
  rw [whileLoop, bind_ok hc]
  rfl

/-- The loop has a turn to go. -/
theorem turn {u : σ} (hc : cond s = .ok true s') (hb : body s' = .ok () s'')
    (h : Settles (whileLoop cond body) s'' () u) : Settles (whileLoop cond body) s () u := by
  obtain ⟨lower, h⟩ := h
  refine ⟨lower + 1, fun t ht => ?_⟩
  obtain ⟨n, rfl⟩ := Nat.exists_eq_add_of_le' (Nat.le_trans (Nat.le_add_left 1 lower) ht)
  rw [whileLoop, bind_ok hc, if_pos rfl, bind_ok hb]
  exact h n (Nat.le_of_succ_le_succ ht)

end Settles

end Myos.Lib.Act
