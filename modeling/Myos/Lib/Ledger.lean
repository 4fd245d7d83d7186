import Mathlib.Data.Finset.Card
import Mathlib.Data.Finset.Range
import Mathlib.Tactic.Cases
import Myos.Lib.Bitmap

/-!
# Ledgers

Places hold numbers, nought standing for none, and a number is free or in use. A
ledger is sound when a number that a place holds is in range and in use, and no two
places hold the same one. Writing a free number to a place that holds none, and
marking it used, keeps a ledger sound and takes one number off those that are free.
-/

namespace Myos.Lib

universe u

/-- What the places hold, and which numbers are free. -/
structure Ledger (P : Type u) where
  val : P → Nat
  free : Nat → Bool

namespace Ledger

variable {P : Type u} {s : Ledger P} {q q' : P} {n lo hi : Nat}

/-- Every number below `lo` is set aside, and those from `hi` on are none. -/
structure Sound (lo hi : Nat) (s : Ledger P) : Prop where
  pos : 0 < lo
  range : ∀ q, s.val q ≠ 0 → lo ≤ s.val q ∧ s.val q < hi
  used : ∀ q, s.val q ≠ 0 → s.free (s.val q) = false
  inj : ∀ q q', s.val q ≠ 0 → s.val q = s.val q' → q = q'
  bounds : ∀ n, s.free n = true → lo ≤ n ∧ n < hi

/-- The number `n` goes to the place `q`. -/
def assign [DecidableEq P] (s : Ledger P) (q : P) (n : Nat) : Ledger P where
  val := Function.update s.val q n
  free := fun k => s.free k && decide (k ≠ n)

/-- How many numbers are free. -/
def available (hi : Nat) (s : Ledger P) : Nat := ((Finset.range hi).filter fun n => s.free n).card

/-- A free number is held nowhere. -/
theorem Sound.not_held (h : s.Sound lo hi) (hn : s.free n = true) (q : P) : s.val q ≠ n := by
  intro heq
  have hpos := h.pos
  have hlo := (h.bounds n hn).1
  have hused := h.used q (by omega)
  rw [heq, hn] at hused
  cases hused

section Assign

variable [DecidableEq P]

theorem assign_val_self : (s.assign q n).val q = n := by
  unfold assign
  exact Function.update_self ..

theorem assign_val_of_ne (h : q' ≠ q) : (s.assign q n).val q' = s.val q' := by
  unfold assign
  exact Function.update_of_ne h ..

theorem assign_free (k : Nat) : (s.assign q n).free k = (s.free k && decide (k ≠ n)) := rfl

/-- What is in use stays so. -/
theorem assign_used {k : Nat} (h : s.free k = false) : (s.assign q n).free k = false := by
  rw [assign_free, h, Bool.false_and]

/-- Handing a free number to a place keeps the ledger sound. -/
theorem Sound.assign (h : s.Sound lo hi) (hn : s.free n = true) :
    (s.assign q n).Sound lo hi := by
  have hval : ∀ k, (s.assign q n).val k = if k = q then n else s.val k := fun k => by
    by_cases hk : k = q
    · rw [hk, assign_val_self, if_pos rfl]
    · rw [assign_val_of_ne hk, if_neg hk]
  refine ⟨h.pos, fun k hk => ?_, fun k hk => ?_, fun k k' hk hkk => ?_, fun k hk => ?_⟩
  · rw [hval] at hk ⊢
    split at hk
    · next he => rw [if_pos he]; exact h.bounds n hn
    · next he => rw [if_neg he]; exact h.range k hk
  · rw [hval] at hk ⊢
    split at hk
    · next he => rw [if_pos he, assign_free]; simp
    · next he => rw [if_neg he]; exact assign_used (h.used k hk)
  · rw [hval, hval] at hkk
    rw [hval] at hk
    split at hk
    · next he =>
      rw [if_pos he] at hkk
      split at hkk
      · next he' => rw [he, he']
      · exact absurd hkk.symm (h.not_held hn k')
    · next he =>
      rw [if_neg he] at hkk
      split at hkk
      · exact absurd hkk (h.not_held hn k)
      · exact h.inj k k' hk hkk
  · rw [assign_free, Bool.and_eq_true] at hk
    exact h.bounds k hk.1

/-- It takes one number off those that are free. -/
theorem Sound.available_assign (h : s.Sound lo hi) (hn : s.free n = true) :
    (s.assign q n).available hi + 1 = s.available hi := by
  have hmem : n ∈ (Finset.range hi).filter fun k => s.free k :=
    Finset.mem_filter.mpr ⟨Finset.mem_range.mpr (h.bounds n hn).2, hn⟩
  have herase : ((Finset.range hi).filter fun k => (s.assign q n).free k) =
      ((Finset.range hi).filter fun k => s.free k).erase n := by
    ext k
    rw [Finset.mem_erase, Finset.mem_filter, Finset.mem_filter, assign_free, Bool.and_eq_true,
      decide_eq_true_iff]
    exact ⟨fun ⟨h1, h2, h3⟩ => ⟨h3, h1, h2⟩, fun ⟨h1, h2, h3⟩ => ⟨h2, h3, h1⟩⟩
  rw [available, herase, Finset.card_erase_add_one hmem, available]

end Assign

/-- The search of the numbers fails just if none is free. -/
theorem firstFrom_eq_none : Bitmap.firstFrom s.free hi 0 = none ↔ s.available hi = 0 := by
  rw [available, Finset.card_eq_zero, Finset.filter_eq_empty_iff]
  constructor
  · intro h k hk hfree
    refine Bitmap.firstFrom_ne_none (Nat.zero_le k) ?_ hfree h
    rw [Nat.zero_add]
    exact Finset.mem_range.mp hk
  · intro h
    by_contra hne
    obtain ⟨k, hk⟩ := Option.ne_none_iff_exists'.mp hne
    obtain ⟨-, hlt, hfree, -⟩ := Bitmap.firstFrom_eq_some hk
    rw [Nat.zero_add] at hlt
    exact h (Finset.mem_range.mpr hlt) hfree

/-- What the search finds is free. -/
theorem free_of_firstFrom (h : Bitmap.firstFrom s.free hi 0 = some n) : n < hi ∧ s.free n = true := by
  obtain ⟨-, hlt, hfree, -⟩ := Bitmap.firstFrom_eq_some h
  exact ⟨by rwa [Nat.zero_add] at hlt, hfree⟩

end Ledger

end Myos.Lib
