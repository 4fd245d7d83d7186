import Mathlib.Data.Nat.Bitwise
import Myos.Lib.Mem

/-!
# Bitmaps

A bitmap is a row of 32-bit words of a memory; bit `no` is a bit of the word
`no / 32`. Clearing a bit stores one word, changes that bit alone and no byte
outside the word. The search for a bit goes up from where it starts, and finds
the first that is set.
-/

namespace Myos.Lib.Bitmap

/-- Bit `no` of the bitmap at `a`. -/
def bit (m : Mem) (a no : Nat) : Bool := (Mem.rd 4 m (a + 4 * (no / 32))).testBit (no % 32)

/-- The bitmap with bit `no` cleared. -/
def clear (m : Mem) (a no : Nat) : Mem :=
  Mem.wr 4 m (a + 4 * (no / 32))
    (Mem.rd 4 m (a + 4 * (no / 32)) &&& (2 ^ 32 - 1 - 1 <<< (no % 32)))

/-- The first number from `i` on that has the property, of the next `n`. -/
def firstFrom (p : Nat → Bool) : Nat → Nat → Option Nat
  | 0, _ => none
  | n + 1, i => if p i then some i else firstFrom p n (i + 1)

variable {m m' : Mem} {a no : Nat}

/-- Masking a word with a bit tests the bit. -/
theorem land_bit_ne_zero (w k : Nat) : w &&& 1 <<< k ≠ 0 ↔ w.testBit k = true := by
  have hand : ∀ i, (w &&& 1 <<< k).testBit i = (w.testBit i && decide (k = i)) := fun i => by
    rw [Nat.testBit_and, Nat.one_shiftLeft, Nat.testBit_two_pow]
  constructor
  · intro h
    by_contra hk
    refine h (Nat.eq_of_testBit_eq fun i => ?_)
    rw [hand, Nat.zero_testBit]
    by_cases hi : k = i
    · rw [← hi, Bool.eq_false_of_not_eq_true hk, Bool.false_and]
    · rw [decide_eq_false hi, Bool.and_false]
  · intro h hz
    have := hand k
    rw [hz, Nat.zero_testBit, h, decide_eq_true rfl] at this
    cases this

/-- The mask of `set_bitmap` keeps every bit but one. -/
theorem testBit_mask {k : Nat} (hk : k < 32) (i : Nat) :
    (2 ^ 32 - 1 - 1 <<< k).testBit i = (decide (i < 32) && decide (i ≠ k)) := by
  have hlt : 2 ^ k < 2 ^ 32 := Nat.pow_lt_pow_right (by decide) hk
  rw [Nat.one_shiftLeft, show 2 ^ 32 - 1 - 2 ^ k = 2 ^ 32 - (2 ^ k + 1) by omega,
    Nat.testBit_two_pow_sub_succ hlt, Nat.testBit_two_pow]
  congr 1
  rw [← decide_not]
  exact decide_eq_decide.mpr ⟨fun h => Ne.symm h, fun h => Ne.symm h⟩

theorem clear_out {x : Nat} (h : x < a + 4 * (no / 32) ∨ a + 4 * (no / 32) + 4 ≤ x) :
    clear m a no x = m x := Mem.wr_out h

/-- Clearing a bit clears that bit and no other. -/
theorem bit_clear (m : Mem) (a no no' : Nat) :
    bit (clear m a no) a no' = (bit m a no' && decide (no' ≠ no)) := by
  by_cases hw : no' / 32 = no / 32
  · have hlt := Mem.rd_lt 4 m (a + 4 * (no / 32))
    unfold bit clear
    rw [hw, Mem.rd_wr_same, Nat.mod_eq_of_lt (Nat.lt_of_le_of_lt Nat.and_le_left hlt),
      Nat.testBit_and, testBit_mask (Nat.mod_lt _ (by decide)),
      decide_eq_true (Nat.mod_lt no' (by decide)), Bool.true_and]
    congr 1
    refine decide_eq_decide.mpr ⟨fun h heq => h (by rw [heq]), fun h heq => h ?_⟩
    omega
  · have hne : no' ≠ no := fun h => hw (by rw [h])
    rw [decide_eq_true hne, Bool.and_true]
    unfold bit clear
    rw [Mem.rd_wr_disjoint (by omega)]

/-- A bitmap of `n` bytes depends on these. -/
theorem bit_congr {n : Nat} (hno : no / 32 * 4 + 4 ≤ n)
    (h : ∀ x, a ≤ x → x < a + n → m' x = m x) : bit m' a no = bit m a no := by
  unfold bit
  rw [Mem.rd_congr fun x h1 h2 => h x (by omega) (by omega)]

section First

variable {p : Nat → Bool} {n i k : Nat}

/-- What is found is the first that has the property. -/
theorem firstFrom_eq_some (h : firstFrom p n i = some k) :
    i ≤ k ∧ k < i + n ∧ p k = true ∧ ∀ j, i ≤ j → j < k → p j = false := by
  induction n generalizing i with
  | zero => cases h
  | succ n ih =>
    rw [firstFrom] at h
    by_cases hp : p i = true
    · rw [if_pos hp] at h
      rw [← Option.some.inj h]
      exact ⟨Nat.le_refl i, by omega, hp, fun j h1 h2 => absurd h2 (by omega)⟩
    · rw [if_neg hp] at h
      obtain ⟨h1, h2, h3, h4⟩ := ih h
      refine ⟨by omega, by omega, h3, fun j hj hjk => ?_⟩
      by_cases hji : j = i
      · rw [hji]
        exact Bool.eq_false_of_not_eq_true hp
      · exact h4 j (by omega) hjk

/-- The search depends on the numbers it looks at. -/
theorem firstFrom_congr {p' : Nat → Bool} (h : ∀ j, i ≤ j → j < i + n → p j = p' j) :
    firstFrom p n i = firstFrom p' n i := by
  induction n generalizing i with
  | zero => rfl
  | succ n ih =>
    rw [firstFrom, firstFrom, h i (Nat.le_refl i) (by omega),
      ih fun j h1 h2 => h j (by omega) (by omega)]

/-- Where one has the property, one is found. -/
theorem firstFrom_ne_none {j : Nat} (h1 : i ≤ j) (h2 : j < i + n) (hp : p j = true) :
    firstFrom p n i ≠ none := by
  induction n generalizing i with
  | zero => omega
  | succ n ih =>
    rw [firstFrom]
    by_cases hi : p i = true
    · rw [if_pos hi]
      exact Option.some_ne_none i
    · rw [if_neg hi]
      have hne : i ≠ j := fun h => hi (h ▸ hp)
      exact ih (by omega) (by omega)

end First

end Myos.Lib.Bitmap
