import Mathlib.Data.List.Range
import Mathlib.Logic.Function.Basic

/-!
# Rings

A buffer of `cap` cells that is written at one place and read at another,
each going round. `window` is what lies between the two places, in order;
`gap` is how much that is. The two places alone cannot tell a full round from
none, so the ring holds one cell less than it has (`gap_succ`).
-/

namespace Myos.Lib.Ring

variable {α : Type*} {cap r w n : Nat} {buf : Nat → α} {x : α}

/-- The `n` cells from `r` on, going round at `cap`. -/
def window (cap : Nat) (buf : Nat → α) (r n : Nat) : List α :=
  (List.range n).map fun i => buf ((r + i) % cap)

/-- How far `w` is ahead of `r`. -/
def gap (cap r w : Nat) : Nat := (w + cap - r) % cap

theorem gap_lt (hr : r < cap) : gap cap r w < cap := Nat.mod_lt _ (Nat.zero_lt_of_lt hr)

/-- The two places coincide exactly if there is nothing between them. -/
theorem gap_eq_zero (hr : r < cap) (hw : w < cap) : gap cap r w = 0 ↔ r = w := by
  unfold gap
  rcases Nat.lt_or_ge w r with h | h
  · rw [Nat.mod_eq_of_lt (by omega)]
    omega
  · rw [show w + cap - r = (w - r) + cap by omega, Nat.add_mod_right, Nat.mod_eq_of_lt (by omega)]
    omega

/-- The place to write is a gap ahead of the place to read. -/
theorem add_gap (hr : r < cap) (hw : w < cap) : (r + gap cap r w) % cap = w := by
  unfold gap
  rcases Nat.lt_or_ge w r with h | h
  · rw [Nat.mod_eq_of_lt (by omega : w + cap - r < cap), show r + (w + cap - r) = w + cap by omega,
      Nat.add_mod_right, Nat.mod_eq_of_lt hw]
  · rw [show w + cap - r = (w - r) + cap by omega, Nat.add_mod_right,
      Nat.mod_eq_of_lt (by omega : w - r < cap), show r + (w - r) = w by omega, Nat.mod_eq_of_lt hw]

/-- A place further: a cell more, unless that was the last one. -/
theorem gap_succ (hr : r < cap) (hw : w < cap) : gap cap r ((w + 1) % cap) =
    if gap cap r w + 1 = cap then 0 else gap cap r w + 1 := by
  have hadd := add_gap hr hw
  have hlt := gap_lt (w := w) hr
  have hnext : (r + (gap cap r w + 1)) % cap = (w + 1) % cap := by
    rw [← Nat.add_assoc, ← Nat.mod_add_mod, hadd]
  have hback : ∀ k, k < cap → gap cap r ((r + k) % cap) = k := by
    intro k hk
    unfold gap
    rcases Nat.lt_or_ge (r + k) cap with h | h
    · rw [Nat.mod_eq_of_lt h, show r + k + cap - r = k + cap by omega, Nat.add_mod_right,
        Nat.mod_eq_of_lt hk]
    · rw [Nat.mod_eq_sub_mod h, Nat.mod_eq_of_lt (by omega : r + k - cap < cap),
        show r + k - cap + cap - r = k by omega, Nat.mod_eq_of_lt hk]
  split
  · next hfull => rw [← hnext, hfull, Nat.add_mod_right, Nat.mod_eq_of_lt hr, gap_eq_zero hr hr]
  · next hroom =>
    rw [← hnext]
    exact hback _ (by omega)

/-- A cell less. -/
theorem gap_pred (hr : r < cap) (hw : w < cap) (hne : r ≠ w) :
    gap cap ((r + 1) % cap) w + 1 = gap cap r w := by
  unfold gap
  rcases Nat.lt_or_ge (r + 1) cap with h | h
  · rw [Nat.mod_eq_of_lt h]
    rcases Nat.lt_or_ge w r with hwr | hwr
    · rw [Nat.mod_eq_of_lt (by omega), Nat.mod_eq_of_lt (by omega)]
      omega
    · rw [show w + cap - (r + 1) = (w - r - 1) + cap by omega, Nat.add_mod_right,
        Nat.mod_eq_of_lt (by omega), show w + cap - r = (w - r) + cap by omega, Nat.add_mod_right,
        Nat.mod_eq_of_lt (by omega)]
      omega
  · rw [show r + 1 = cap by omega, Nat.mod_self, Nat.sub_zero, Nat.add_mod_right,
      Nat.mod_eq_of_lt hw, Nat.mod_eq_of_lt (by omega)]
    omega

@[simp] theorem window_length : (window cap buf r n).length = n := by
  rw [window, List.length_map, List.length_range]

theorem window_zero : window cap buf r 0 = [] := rfl

/-- The first cell and the rest. -/
theorem window_cons (hr : r < cap) :
    window cap buf r (n + 1) = buf r :: window cap buf ((r + 1) % cap) n := by
  unfold window
  rw [List.range_succ_eq_map, List.map_cons, List.map_map, Nat.add_zero, Nat.mod_eq_of_lt hr]
  congr 1
  refine List.map_congr_left fun i _ => ?_
  rw [Function.comp_apply, Nat.mod_add_mod, show r + i.succ = r + 1 + i by omega]

/-- The last cell, and those before it. -/
theorem window_snoc :
    window cap buf r (n + 1) = window cap buf r n ++ [buf ((r + n) % cap)] := by
  unfold window
  rw [List.range_succ, List.map_append, List.map_singleton]

/-- A write outside does not show. -/
theorem window_update (hr : r < cap) (hw : w < cap) (hn : n ≤ gap cap r w) :
    window cap (Function.update buf w x) r n = window cap buf r n := by
  refine List.map_congr_left fun i hi => Function.update_of_ne ?_ _ _
  have hi' : i < gap cap r w := Nat.lt_of_lt_of_le (List.mem_range.mp hi) hn
  have hadd := add_gap hr hw
  have hlt := gap_lt (w := w) hr
  intro heq
  rw [← hadd] at heq
  rcases Nat.lt_or_ge (r + i) cap with h | h
  · rw [Nat.mod_eq_of_lt h] at heq
    rcases Nat.lt_or_ge (r + gap cap r w) cap with h' | h'
    · rw [Nat.mod_eq_of_lt h'] at heq
      omega
    · rw [Nat.mod_eq_sub_mod h', Nat.mod_eq_of_lt (by omega)] at heq
      omega
  · rw [Nat.mod_eq_sub_mod h, Nat.mod_eq_of_lt (by omega),
      Nat.mod_eq_sub_mod (by omega : cap ≤ r + gap cap r w), Nat.mod_eq_of_lt (by omega)] at heq
    omega

/-- PUSH: what is written becomes the last of what is unread. -/
theorem window_push (hr : r < cap) (hw : w < cap) :
    window cap (Function.update buf w x) r (gap cap r w + 1) =
      window cap buf r (gap cap r w) ++ [x] := by
  rw [window_snoc, window_update hr hw (Nat.le_refl _), add_gap hr hw, Function.update_self]

end Myos.Lib.Ring
