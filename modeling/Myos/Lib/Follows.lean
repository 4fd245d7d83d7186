import Myos.Lib.Bitmap

/-!
# Two memories and the same stores

The same stores are made to two memories. Where the two agreed they agree after it, and at
the bytes that were stored as well (`Follows`); what they differ in stays a difference of
theirs. So a fact about code on one memory is had for every other one that has the same
where the code loads.
-/

namespace Myos.Lib

/-- `t'` agrees with `t` where `m'` did with `m`, and at `W`. -/
def Follows (W : Nat → Prop) (m m' t t' : Mem) : Prop := ∀ y, m' y = m y ∨ W y → t' y = t y

namespace Follows

variable {W W' : Nat → Prop} {m m' t t' u u' : Mem} {a n v no : Nat} {f : Mem}

theorem refl (m m' : Mem) : Follows (fun _ => False) m m' m m' := fun _ hy => hy.resolve_right id

theorem weaken (h : Follows W m m' t t') (hw : ∀ y, W' y → W y) : Follows W' m m' t t' :=
  fun y hy => h y (hy.imp_right (hw y))

theorem trans (h : Follows W m m' t t') (h' : Follows W' t t' u u') :
    Follows (fun y => W y ∨ W' y) m m' u u' := by
  rintro y (hy | hy | hy)
  · exact h' y (.inl (h y (.inl hy)))
  · exact h' y (.inl (h y (.inr hy)))
  · exact h' y (.inr hy)

/-- What agreed still does. -/
theorem same (h : Follows W m m' t t') {y : Nat} (hy : m' y = m y) : t' y = t y := h y (.inl hy)

/-- What was stored agrees. -/
theorem stored (h : Follows W m m' t t') {y : Nat} (hy : W y) : t' y = t y := h y (.inr hy)

/-- Stores that come after leave what was stored in agreement. -/
theorem after (h : Follows W m m' t t') (h' : Follows W' t t' u u') : Follows W m m' u u' :=
  (h.trans h').weaken fun _ => .inl

theorem before (h : Follows W m m' t t') (h' : Follows W' t t' u u') : Follows W' m m' u u' :=
  (h.trans h').weaken fun _ => .inr

theorem overlay (m m' : Mem) (a n : Nat) (f : Mem) :
    Follows (fun y => a ≤ y ∧ y < a + n) m m' (m.overlay a n f) (m'.overlay a n f) := by
  intro y hy
  by_cases hin : a ≤ y ∧ y < a + n
  · rw [Mem.overlay_in hin, Mem.overlay_in hin]
  · rw [Mem.overlay_out (by omega), Mem.overlay_out (by omega)]
    exact hy.resolve_right hin

theorem wr (m m' : Mem) (n a v : Nat) :
    Follows (fun y => a ≤ y ∧ y < a + n) m m' (Mem.wr n m a v) (Mem.wr n m' a v) :=
  overlay m m' a n _

/-- A bit is cleared in both, where the bitmaps agree in its word. -/
theorem clear (h : ∀ y, a + 4 * (no / 32) ≤ y → y < a + 4 * (no / 32) + 4 → m' y = m y) :
    Follows (fun _ => False) m m' (Bitmap.clear m a no) (Bitmap.clear m' a no) := by
  unfold Bitmap.clear
  rw [Mem.rd_congr h]
  exact (wr m m' 4 _ _).weaken fun _ hy => hy.elim

end Follows

end Myos.Lib
