import Mathlib.Data.Nat.Basic
import Mathlib.Tactic.Linarith

/-!
# The address layout

The constants and address macros of `include/amd64/mem_layout.h`,
`include/kern/mm.h` and `kernel/proc.c`. Addresses and table entries are
naturals below `2 ^ 64`; an addition that the code makes in an
`unsigned long` is reduced where it can leave that range.

The macros on `struct page *` are on the index of the frame's record in the
array `pages` (`Option Nat`, the null pointer being `none`), so that
`PA2PAGE` is the identity and `VA2PAGE` a shift.

The second half turns the shifts and masks of the source into the division
and remainder that arithmetic is done with.
-/

namespace Myos.Kernel

def pageSize : Nat := 4096
def utext : Nat := 0x0000000080000000
@[irreducible] def kbase : Nat := 0xFFFFFFFF80000000
def ustacktop : Nat := 0x0000000090000000 - pageSize

def pteShift : Nat := 12
def pgdShift : Nat := pteShift + 9
def pdpShift : Nat := pgdShift + 9
def pmlShift : Nat := pdpShift + 9

def pgzero : Nat := 0x1
def pteU : Nat := 0x4
def pteW : Nat := 0x2
def pteP : Nat := 0x1
def pteCow : Nat := 0x800
/-- The page-size bit of a table entry; the processor looks at it, `mm.c` does not. -/
def ptePs : Nat := 0x80

/-- Arithmetic in an `unsigned long`. -/
def u64 (x : Nat) : Nat := x % 2 ^ 64

def kpa2va (pa : Nat) : Nat := u64 (pa + kbase)

/-- `KVA2PA`, and `VA - KBASE` wherever the code writes it out. -/
def kva2pa (va : Nat) : Nat := u64 (va + (2 ^ 64 - kbase))

/-- `VA2PAGE` as an index into `pages`. -/
def va2page (va : Nat) : Nat := kva2pa va >>> pteShift

def pmlIndex (va : Nat) : Nat := va >>> pmlShift &&& 0x1ff
def pdpIndex (va : Nat) : Nat := va >>> pdpShift &&& 0x1ff
def pgdIndex (va : Nat) : Nat := va >>> pgdShift &&& 0x1ff
def pteIndex (va : Nat) : Nat := va >>> pteShift &&& 0x1ff

/-! ## In arithmetic -/

theorem land_511 (x : Nat) : x &&& 0x1ff = x % 512 :=
  Nat.and_two_pow_sub_one_eq_mod x 9

theorem land_pteP (e : Nat) : e &&& pteP = e % 2 := Nat.and_one_is_mod e

/-- A mask below twelve bits looks at the low twelve bits. -/
theorem land_low {e k : Nat} (hk : k < pageSize) : e &&& k = e % pageSize &&& k := by
  have hle : e &&& k < 2 ^ 12 := Nat.lt_of_le_of_lt Nat.and_le_right hk
  have hpow : pageSize = 2 ^ 12 := rfl
  have hk' : k % 2 ^ 12 = k := Nat.mod_eq_of_lt hk
  rw [← Nat.mod_eq_of_lt hle, Nat.and_mod_two_pow, hpow, hk']

theorem pmlIndex_eq (va : Nat) : pmlIndex va = va / 2 ^ 39 % 512 := by
  rw [pmlIndex, land_511, Nat.shiftRight_eq_div_pow]; rfl

theorem pdpIndex_eq (va : Nat) : pdpIndex va = va / 2 ^ 30 % 512 := by
  rw [pdpIndex, land_511, Nat.shiftRight_eq_div_pow]; rfl

theorem pgdIndex_eq (va : Nat) : pgdIndex va = va / 2 ^ 21 % 512 := by
  rw [pgdIndex, land_511, Nat.shiftRight_eq_div_pow]; rfl

theorem pteIndex_eq (va : Nat) : pteIndex va = va / 2 ^ 12 % 512 := by
  rw [pteIndex, land_511, Nat.shiftRight_eq_div_pow]; rfl

theorem pmlIndex_lt (va : Nat) : pmlIndex va < 512 := by rw [pmlIndex_eq]; omega
theorem pdpIndex_lt (va : Nat) : pdpIndex va < 512 := by rw [pdpIndex_eq]; omega
theorem pgdIndex_lt (va : Nat) : pgdIndex va < 512 := by rw [pgdIndex_eq]; omega
theorem pteIndex_lt (va : Nat) : pteIndex va < 512 := by rw [pteIndex_eq]; omega

/-- The four indices say which page of the 48-bit space an address is in. -/
theorem page_eq_of_indices {va va' : Nat} (hva : va < 2 ^ 48) (hva' : va' < 2 ^ 48)
    (h4 : pmlIndex va = pmlIndex va') (h3 : pdpIndex va = pdpIndex va')
    (h2 : pgdIndex va = pgdIndex va') (h1 : pteIndex va = pteIndex va') :
    va / pageSize = va' / pageSize := by
  rw [pmlIndex_eq, pmlIndex_eq] at h4
  rw [pdpIndex_eq, pdpIndex_eq] at h3
  rw [pgdIndex_eq, pgdIndex_eq] at h2
  rw [pteIndex_eq, pteIndex_eq] at h1
  unfold pageSize
  omega

/-- Addresses of one page have the same indices. -/
theorem indices_of_page_eq {va va' : Nat} (h : va / pageSize = va' / pageSize) :
    pmlIndex va = pmlIndex va' ∧ pdpIndex va = pdpIndex va' ∧
      pgdIndex va = pgdIndex va' ∧ pteIndex va = pteIndex va' := by
  unfold pageSize at h
  simp only [pmlIndex_eq, pdpIndex_eq, pgdIndex_eq, pteIndex_eq]
  omega

end Myos.Kernel
