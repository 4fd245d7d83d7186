import Mathlib.Data.Nat.Basic
import Mathlib.Algebra.Order.Ring.Nat
import Mathlib.Tactic.Ring
import Mathlib.Tactic.SplitIfs

/-!
# Byte memories

A memory is a byte at every address. Everything that stores — a word, a
fill, a block copy — is `overlay`: the bytes of one region replaced, every
other byte left. Words are little endian, of any number of bytes.

The two laws a proof about layout needs are the ones stated here: a word
reads back from where it was stored (`rd_wr_same`), and a word that a store
does not reach reads as before (`rd_overlay_disjoint`).
-/

namespace Myos.Lib

/-- A byte at every address. -/
abbrev Mem := Nat → UInt8

namespace Mem

/-- Replace the `n` bytes from `a` on by the first `n` bytes of `f`. -/
def overlay (m : Mem) (a n : Nat) (f : Mem) : Mem := fun x =>
  if a ≤ x ∧ x < a + n then f (x - a) else m x

theorem overlay_in {m f : Mem} {a n x : Nat} (h : a ≤ x ∧ x < a + n) :
    m.overlay a n f x = f (x - a) := if_pos h

theorem overlay_out {m f : Mem} {a n x : Nat} (h : x < a ∨ a + n ≤ x) :
    m.overlay a n f x = m x := if_neg (by omega)

/-- Regions that do not meet are replaced in either order. -/
theorem overlay_comm {m f g : Mem} {a b k n : Nat} (h : a + k ≤ b ∨ b + n ≤ a) :
    (m.overlay a k f).overlay b n g = (m.overlay b n g).overlay a k f := by
  funext x
  by_cases ha : a ≤ x ∧ x < a + k
  · rw [overlay_out (by omega), overlay_in ha, overlay_in ha]
  · by_cases hb : b ≤ x ∧ x < b + n
    · rw [overlay_in hb, overlay_out (by omega), overlay_in hb]
    · rw [overlay_out (by omega), overlay_out (by omega), overlay_out (by omega),
        overlay_out (by omega)]

/-- Fill a region with one byte. -/
def fill (m : Mem) (a n : Nat) (b : UInt8) : Mem := m.overlay a n fun _ => b

/-- The `n`-byte little-endian word at `a`. -/
def rd : Nat → Mem → Nat → Nat
  | 0, _, _ => 0
  | n + 1, m, a => (m a).toNat + 256 * rd n m (a + 1)

/-- Store the low `n` bytes of `v` at `a`, little endian. -/
def wr (n : Nat) (m : Mem) (a v : Nat) : Mem :=
  m.overlay a n fun i => UInt8.ofNat (v / 256 ^ i)

theorem rd_lt (n : Nat) (m : Mem) (a : Nat) : rd n m a < 256 ^ n := by
  induction n generalizing a with
  | zero => simp [rd]
  | succ n ih =>
    have hb : (m a).toNat < 256 := (m a).toNat_lt
    have ht := ih (a + 1)
    simp only [rd, Nat.pow_succ]
    omega

/-- A word depends only on its own bytes. -/
theorem rd_congr {n : Nat} {m m' : Mem} {a : Nat}
    (h : ∀ x, a ≤ x → x < a + n → m' x = m x) : rd n m' a = rd n m a := by
  induction n generalizing a with
  | zero => rfl
  | succ n ih =>
    simp only [rd]
    rw [h a (Nat.le_refl a) (by omega), ih fun x h1 h2 => h x (by omega) (by omega)]

/-- Moving the memory moves its words. -/
theorem rd_shift {n : Nat} {m m' : Mem} {a b : Nat}
    (h : ∀ i, i < n → m' (a + i) = m (b + i)) : rd n m' a = rd n m b := by
  induction n generalizing a b with
  | zero => rfl
  | succ n ih =>
    simp only [rd]
    rw [show m' a = m b from h 0 (Nat.succ_pos n), ih (a := a + 1) (b := b + 1)]
    intro i hi
    have := h (i + 1) (by omega)
    rw [show a + 1 + i = a + (i + 1) by omega, show b + 1 + i = b + (i + 1) by omega]
    exact this

/-- A word a store does not reach. -/
theorem rd_overlay_disjoint {n k : Nat} {m f : Mem} {a b : Nat}
    (h : a + n ≤ b ∨ b + k ≤ a) : rd n (m.overlay b k f) a = rd n m a :=
  rd_congr fun x h1 h2 => overlay_out (by omega)

/-- A word wholly inside the region that was replaced. -/
theorem rd_overlay_inside {n k : Nat} {m f : Mem} {a b : Nat}
    (h1 : b ≤ a) (h2 : a + n ≤ b + k) : rd n (m.overlay b k f) a = rd n f (a - b) :=
  rd_shift fun i hi => by
    rw [overlay_in (by omega)]
    congr 1
    omega

/-- A region of nought reads as nought. -/
theorem rd_zero {n : Nat} {m : Mem} {a : Nat} (h : ∀ x, a ≤ x → x < a + n → m x = 0) :
    rd n m a = 0 := by
  induction n generalizing a with
  | zero => rfl
  | succ n ih =>
    simp only [rd]
    rw [h a (Nat.le_refl a) (by omega), ih fun x h1 h2 => h x (by omega) (by omega)]
    rfl

/-- A word that is nought has no other byte. -/
theorem zero_of_rd {n : Nat} {m : Mem} {a x : Nat} (h : rd n m a = 0) (h1 : a ≤ x) (h2 : x < a + n) :
    m x = 0 := by
  induction n generalizing a with
  | zero => omega
  | succ n ih =>
    simp only [rd] at h
    rcases Nat.eq_or_lt_of_le h1 with rfl | hlt
    · have hlow : (m a).toNat = 0 := by omega
      exact UInt8.toNat_inj.mp hlow
    · have hrest : rd n m (a + 1) = 0 := by omega
      exact ih hrest hlt (by omega)

private theorem rd_digits (n v : Nat) (m : Mem) (a k : Nat)
    (h : ∀ i, i < n → m (a + i) = UInt8.ofNat (v / 256 ^ (k + i))) :
    rd n m a = v / 256 ^ k % 256 ^ n := by
  induction n generalizing a k with
  | zero => simp [rd, Nat.mod_one]
  | succ n ih =>
    have h0 : m a = UInt8.ofNat (v / 256 ^ k) := h 0 (Nat.succ_pos n)
    have hrest := ih (a + 1) (k + 1) fun i hi => by
      rw [show a + 1 + i = a + (i + 1) by omega, show k + 1 + i = k + (i + 1) by omega]
      exact h (i + 1) (by omega)
    have hd : v / 256 ^ (k + 1) = v / 256 ^ k / 256 := by
      rw [Nat.pow_succ, Nat.div_div_eq_div_mul]
    simp only [rd, h0, hrest, hd, UInt8.toNat_ofNat']
    rw [show (256 : Nat) ^ (n + 1) = 256 * 256 ^ n by rw [Nat.pow_succ, Nat.mul_comm]]
    rw [Nat.mod_mul]

/-- A word reads back from where it was stored. -/
theorem rd_wr_same (n : Nat) (m : Mem) (a v : Nat) : rd n (wr n m a v) a = v % 256 ^ n := by
  have h := rd_digits n v (wr n m a v) a 0 fun i hi => by
    rw [wr, overlay_in (by omega), Nat.zero_add, Nat.add_sub_cancel_left]
  simpa using h

/-- A word reads as before where the store does not reach. -/
theorem rd_wr_disjoint {n k : Nat} {m : Mem} {a b v : Nat} (h : a + n ≤ b ∨ b + k ≤ a) :
    rd n (wr k m b v) a = rd n m a :=
  rd_overlay_disjoint h

/-- A byte a word's store does not reach. -/
theorem wr_out {n : Nat} {m : Mem} {a v x : Nat} (h : x < a ∨ a + n ≤ x) : wr n m a v x = m x :=
  overlay_out h

/-- Storing the same word again changes nothing. -/
theorem wr_same {n : Nat} {m : Mem} {a v : Nat} (h : rd n m a = v) : wr n m a v = m := by
  funext x
  by_cases hx : a ≤ x ∧ x < a + n
  · rw [wr, overlay_in hx]
    have key : ∀ (k b : Nat), k < n → b = a → UInt8.ofNat (rd n m b / 256 ^ k) = m (b + k) := by
      intro k b hk hb
      clear h hx hb
      induction n generalizing b k with
      | zero => omega
      | succ n ih =>
        cases k with
        | zero =>
          apply UInt8.toNat.inj
          have hlt : (m b).toNat < 256 := (m b).toNat_lt
          simp only [rd, Nat.pow_zero, Nat.div_one, UInt8.toNat_ofNat', Nat.add_zero]
          omega
        | succ k =>
          have hlt : (m b).toNat < 256 := (m b).toNat_lt
          have := ih k (b + 1) (by omega)
          rw [show b + (k + 1) = b + 1 + k by omega, ← this, Nat.pow_succ, Nat.mul_comm,
            ← Nat.div_div_eq_div_mul]
          congr 2
          simp only [rd]
          omega
    rw [← h, key (x - a) a (by omega) rfl]
    congr 1
    omega
  · rw [wr, overlay, if_neg hx]

end Mem

end Myos.Lib
