import Myos.Lib.Run
import Mathlib.Data.List.Range

/-!
# Rotations

A round robin over `n` places: from the place `c` the others are looked at in
the order `c + 1, …, n - 1, 0, …, c`, and the first that is ready is taken.
`ahead n c p` counts the places looked at before `p`. A turn that takes another
place than `p`, although `p` is ready, comes nearer to `p`; so no place is
taken twice while `p` waits.
-/

namespace Myos.Lib

/-- The place looked at after `i` others, from `c` on. -/
def placeAt (n c i : Nat) : Nat := if c + 1 + i < n then c + 1 + i else c + 1 + i - n

/-- How many places come before `p`, from `c` on. -/
def ahead (n c p : Nat) : Nat := if c < p then p - c - 1 else p + n - c - 1

/-- The places in the order they are looked at. -/
def rotation (n c : Nat) : List Nat := (List.range n).map (placeAt n c)

/-- The first place that is ready. -/
def turn (n : Nat) (ready : Nat → Bool) (c : Nat) : Option Nat := (rotation n c).find? ready

section Rotation

variable {n c p q r i : Nat} {ready : Nat → Bool}

theorem placeAt_lt (hc : c < n) (hi : i < n) : placeAt n c i < n := by
  unfold placeAt
  split <;> omega

theorem ahead_lt (hp : p < n) (hc : c < n) : ahead n c p < n := by
  unfold ahead
  split <;> omega

theorem placeAt_ahead (hc : c < n) (hp : p < n) : placeAt n c (ahead n c p) = p := by
  unfold placeAt ahead
  split <;> split <;> omega

theorem ahead_placeAt (hc : c < n) (hi : i < n) : ahead n c (placeAt n c i) = i := by
  unfold placeAt ahead
  split <;> split <;> omega

/-- Every place is looked at. -/
theorem mem_rotation (hc : c < n) : p ∈ rotation n c ↔ p < n := by
  unfold rotation
  rw [List.mem_map]
  constructor
  · rintro ⟨i, hi, rfl⟩
    exact placeAt_lt hc (List.mem_range.mp hi)
  · intro hp
    exact ⟨ahead n c p, List.mem_range.mpr (ahead_lt hp hc), placeAt_ahead hc hp⟩

/-- The place taken is ready, and none before it is. -/
theorem turn_eq_some (hc : c < n) : turn n ready c = some r ↔
    r < n ∧ ready r = true ∧ ∀ p < n, ready p = true → ahead n c r ≤ ahead n c p := by
  unfold turn rotation
  rw [List.find?_map, Option.map_eq_some_iff]
  constructor
  · rintro ⟨i, hi, rfl⟩
    obtain ⟨hready, hmem, hbefore⟩ := List.find?_range_eq_some.mp hi
    have hin : i < n := List.mem_range.mp hmem
    refine ⟨placeAt_lt hc hin, hready, fun p hp hpr => ?_⟩
    rw [ahead_placeAt hc hin]
    by_contra hlt
    have hnot := hbefore (ahead n c p) (by omega)
    rw [Function.comp_apply, placeAt_ahead hc hp, hpr] at hnot
    cases hnot
  · rintro ⟨hr, hready, hfirst⟩
    refine ⟨ahead n c r, List.find?_range_eq_some.mpr ⟨?_, List.mem_range.mpr (ahead_lt hr hc),
      fun j hj => ?_⟩, placeAt_ahead hc hr⟩
    · rw [Function.comp_apply, placeAt_ahead hc hr]
      exact hready
    · have hjn : j < n := hj.trans (ahead_lt hr hc)
      rw [Function.comp_apply, Bool.not_eq_true']
      by_contra hj'
      have hle := hfirst _ (placeAt_lt hc hjn) (Bool.of_not_eq_false hj')
      rw [ahead_placeAt hc hjn] at hle
      omega

/-- None is taken exactly if none is ready. -/
theorem turn_eq_none (hc : c < n) : turn n ready c = none ↔ ∀ p < n, ready p = false := by
  unfold turn
  rw [List.find?_eq_none]
  constructor
  · intro h p hp
    exact Bool.eq_false_iff.mpr (h p ((mem_rotation hc).mpr hp))
  · intro h p hp
    rw [h p ((mem_rotation hc).mp hp)]
    exact Bool.false_ne_true

/-- PASS: a turn that takes another place comes nearer to the one that waits. -/
theorem turn_nearer (hc : c < n) (hp : p < n) (hready : ready p = true)
    (hturn : turn n ready c = some r) (hne : r ≠ p) : ahead n r p < ahead n c p := by
  obtain ⟨hr, -, hfirst⟩ := (turn_eq_some hc).mp hturn
  have hle := hfirst p hp hready
  unfold ahead at *
  split at hle <;> split at hle <;> split <;> omega

end Rotation

end Myos.Lib
