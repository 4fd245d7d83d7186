import Myos.Image.DirectorySlots
import Myos.Kernel.Directory

/-!
# The names in the directory

`create_file_image` copies 14 characters of a name and no nought after them, and `strcmp`
compares names up to the nought. `looked` counts the characters a comparison looks at,
`Stands` says what an entry is once it is made, and that it stays so through the calls
that follow (`Stands.after`).
-/

namespace Myos.Image

open Myos.Lib
open Myos.Kernel (Fs Mm Spells Mounted kbase blkSize rootInode inodesInTable inodeSize blockOff
  directSize nameOff inoOff diSizeOff)

/-! ## A name in an entry -/

section Spelled

variable {m m' : Mem} {a b : Nat} {name stored : List UInt8}

/-- A name that is the same in two places. -/
theorem spelled_shift (h : ∀ i ≤ name.length, m' (b + i) = m (a + i)) :
    spelled m' b name = spelled m a name := by
  induction name generalizing a b with
  | nil =>
    have h0 : m' b = m a := h 0 (Nat.le_refl 0)
    rw [spelled, spelled, h0]
  | cons c cs ih =>
    have h0 : m' b = m a := h 0 (Nat.zero_le _)
    rw [spelled, spelled, h0, ih fun i hi => ?_]
    have hnext := h (i + 1) (by rw [List.length_cons]; omega)
    rwa [Nat.add_comm i, ← Nat.add_assoc, ← Nat.add_assoc] at hnext

/-- For the names there are, it is what the kernel means. -/
theorem spelled_iff_spells (h : 0 ∉ name) : spelled m a name = true ↔ Spells m a name := by
  induction name generalizing a with
  | nil => exact decide_eq_true_iff
  | cons c cs ih =>
    rw [List.mem_cons, not_or] at h
    rw [spelled, Bool.and_eq_true, decide_eq_true_iff, ih h.2]
    exact ⟨fun hs => ⟨hs.1, Ne.symm h.1, hs.2⟩, fun hs => ⟨hs.1, hs.2.2⟩⟩

/-- What was stored for a name spells this name only. -/
theorem spelled_stored (h : ∀ i ≤ name.length, m (a + i) = stored.getD i 0) (hname : 0 ∉ name)
    (hstored : 0 ∉ stored) : spelled m a name = true ↔ stored = name := by
  induction name generalizing a stored with
  | nil =>
    have h0 : m a = stored.getD 0 0 := h 0 (Nat.le_refl 0)
    rw [spelled, decide_eq_true_iff, h0]
    cases stored with
    | nil => exact iff_of_true rfl rfl
    | cons d ds =>
      rw [List.mem_cons, not_or] at hstored
      exact iff_of_false (fun he => hstored.1 he.symm) (by simp)
  | cons c cs ih =>
    have h0 : m a = stored.getD 0 0 := h 0 (Nat.zero_le _)
    rw [List.mem_cons, not_or] at hname
    rw [spelled, Bool.and_eq_true, decide_eq_true_iff, h0]
    cases stored with
    | nil => exact iff_of_false (fun he => hname.1 he.1) (by simp)
    | cons d ds =>
      rw [List.mem_cons, not_or] at hstored
      rw [@ih _ ds (fun i hi => ?_) hname.2 hstored.2]
      · exact List.cons_eq_cons.symm
      · have hnext := h (i + 1) (by rw [List.length_cons]; omega)
        rwa [Nat.add_comm i, ← Nat.add_assoc, Nat.add_comm 1 i, List.getD_cons_succ] at hnext

end Spelled

/-! ## What a comparison looks at -/

/-- How many characters of the string at an address `strcmp` looks at (`strcmpLoop_looked`). -/
def looked (m : Mem) : Nat → List UInt8 → Nat
  | _, [] => 1
  | a, c :: cs => if m a = c then looked m (a + 1) cs + 1 else 1

section Looked

variable {m : Mem} {s : Mm} {a d va n : Nat} {name : List UInt8}

/-- As far as the characters agree they are looked at. -/
theorem lt_looked (h : ∀ i < n, m (a + i) = name.getD i 0) (hlen : n ≤ name.length) :
    n < looked m a name := by
  induction name generalizing a n with
  | nil =>
    obtain rfl : n = 0 := Nat.le_zero.mp hlen
    exact Nat.one_pos
  | cons c cs ih =>
    cases n with
    | zero =>
      rw [looked]
      split <;> omega
    | succ n =>
      have h0 : m a = c := h 0 (Nat.succ_pos n)
      rw [looked, if_pos h0]
      refine Nat.succ_lt_succ (ih (fun i hi => ?_) (Nat.le_of_succ_le_succ hlen))
      have hnext := h (i + 1) (Nat.succ_lt_succ hi)
      rwa [Nat.add_comm i, ← Nat.add_assoc, Nat.add_comm 1 i, List.getD_cons_succ] at hnext

theorem looked_spelled (h : spelled m a name = true) : looked m a name = name.length + 1 := by
  induction name generalizing a with
  | nil => rfl
  | cons c cs ih =>
    rw [spelled, Bool.and_eq_true, decide_eq_true_iff] at h
    rw [looked, if_pos h.1, ih h.2, List.length_cons]

/-- `strcmp` ends within `n` turns just if it looks at `n` characters at most. -/
theorem strcmpLoop_looked (hva : s.Reads va name) (hd : d + name.length < 2 ^ 31) :
    (∃ r, Myos.Kernel.strcmpLoop n (kbase + d) va s = .ok r s) ↔ looked s.mem d name ≤ n := by
  induction name generalizing d va n with
  | nil =>
    cases n with
    | zero => exact iff_of_false (fun ⟨r, h⟩ => by cases h) (Nat.not_succ_le_zero 0)
    | succ n =>
      have h0 : Myos.Kernel.load 1 va s = .ok 0 s := hva
      refine iff_of_true ?_ (Nat.succ_pos n)
      rw [Myos.Kernel.strcmpLoop, Act.bind_ok (Myos.Kernel.load_byte (by omega)), Act.bind_ok h0]
      by_cases hz : (s.mem d).toNat = 0
      · rw [hz, if_neg (by decide)]
        exact ⟨0, rfl⟩
      · rw [if_pos (.inl hz), if_neg hz]
        exact ⟨1, rfl⟩
  | cons c cs ih =>
    rw [List.length_cons] at hd
    obtain ⟨hc, hne, hrest⟩ := hva
    cases n with
    | zero =>
      refine iff_of_false (fun ⟨r, h⟩ => by cases h) ?_
      rw [looked]
      split <;> omega
    | succ n =>
      have hload : Myos.Kernel.load 1 va s = .ok c.toNat s := hc
      have hpos : c.toNat ≠ 0 := fun h => hne (UInt8.toNat_inj.mp h)
      rw [Myos.Kernel.strcmpLoop, Act.bind_ok (Myos.Kernel.load_byte (by omega)), Act.bind_ok hload,
        if_pos (.inr hpos), looked]
      by_cases hsame : s.mem d = c
      · rw [hsame, if_pos rfl, if_pos rfl, Nat.add_assoc, ih hrest (by omega)]
        exact Nat.succ_le_succ_iff.symm
      · rw [if_neg fun h => hsame (UInt8.toNat_inj.mp h), if_neg hsame]
        exact iff_of_true ⟨1, rfl⟩ (Nat.succ_pos n)

end Looked

/-! ## Entries that stand -/

/-- The inode of entry `n`. -/
def entryIno (m : Mem) (n : Nat) : Nat := Mem.rd 2 (dirents m) (directSize * n + inoOff)

/-- Whether entry `n` has the name. -/
def named (m : Mem) (n : Nat) (name : List UInt8) : Bool :=
  spelled (dirents m) (directSize * n + nameOff) name

/-- Entry `n` is the one of the file. -/
structure Stands (m : Mem) (n ino : Nat) (name : List UInt8) : Prop where
  slot : n / entries < rootBlocks m
  bytes : ∀ k < directSize, dirents m (directSize * n + k) = dirent ino name k
  used : inoFree m ino = false

/-- No other entry of the first block has the name. -/
def Sole (m : Mem) (n : Nat) (name : List UInt8) : Prop :=
  ∀ e < entries, e ≠ n → named m e name = false

section Stands

variable {m m' : Mem} {n e : Nat} {ino : Fin inodes} {name : List UInt8} {c : Call}

/-- Where an entry is in the image. -/
theorem named_slotAt (hn : n / entries < rootBlocks m) (hlen : name.length ≤ 13) :
    named m n name = spelled m (slotAt m n + nameOff) name := by
  refine spelled_shift fun i hi => ?_
  rw [Nat.add_assoc, Nat.add_assoc]
  exact dirents_slot hn (by unfold nameOff directSize; omega)

/-- A short name is known just if an entry of the first block has it. -/
theorem known_iff (hlen : name.length ≤ 13) :
    Known m name ↔ 0 < rootBlocks m ∧ ∃ e < entries, named m e name = true := by
  refine and_congr_right fun hpos => exists_congr fun e => and_congr_right fun he => ?_
  rw [named_slotAt (by rwa [Nat.div_eq_of_lt he]) hlen, slotAt, Nat.div_eq_of_lt he,
    Nat.mod_eq_of_lt he]

theorem Call.Enters.unknown (h : c.Enters m) (hm : Formed m) : ¬ Known m c.name := by
  obtain ⟨-, ⟨-, hr⟩ | ⟨hk, -⟩⟩ := walkPath_eq_ok hm.toRooted hm.small.le h.1
  · exact absurd hr (by decide)
  · exact hk

/-- The name of an entry. -/
theorem Stands.name_byte (h : Stands m n ino name) {i : Nat} (hi : i < 14) :
    dirents m (directSize * n + nameOff + i) = name.getD i 0 := by
  rw [Nat.add_assoc, h.bytes _ (by unfold nameOff directSize; omega), dirent,
    Mem.overlay_in (by omega), Nat.add_sub_cancel_left]

/-- The number of its inode. -/
theorem Stands.entryIno (h : Stands m n ino name) : entryIno m n = ino := by
  have hsame : Image.entryIno m n = Mem.rd 2 (dirent ino name) inoOff := by
    refine Mem.rd_shift fun i hi => ?_
    rw [Nat.add_assoc]
    exact h.bytes _ (by unfold inoOff directSize; omega)
  have hlow : Mem.rd 2 (dirent ino name) inoOff = Mem.rd 2 (Mem.wr 2 (fun _ => 0) inoOff ino) inoOff :=
    Mem.rd_overlay_disjoint (.inl (by decide))
  rw [hsame, hlow, Mem.rd_wr_same]
  exact Nat.mod_eq_of_lt (ino.isLt.trans (by decide))

/-- An entry with a name is not handed out again. -/
theorem Stands.not_vacant (h : Stands m n ino name) (hname : 0 ∉ name) (hne : name ≠ []) :
    vacant m n = false := by
  refine decide_eq_false fun hz => ?_
  have hbyte := h.name_byte (by decide : 0 < 14)
  rw [Nat.add_zero, hz] at hbyte
  cases name with
  | nil => exact hne rfl
  | cons c cs =>
    rw [List.mem_cons, not_or] at hname
    exact hname.1 hbyte

theorem Made.stands (h : Made m m' ino name) : Stands m' (slotFor m) ino name := by
  refine ⟨?_, fun k hk => ?_, ?_⟩
  · rw [h.blocks]
    exact Nat.lt_of_lt_of_le (Nat.lt_succ_self _) (Nat.le_max_right _ _)
  · rw [h.dirents, Mem.overlay_in (by omega), Nat.add_sub_cancel_left]
  · rw [h.inoFree]
    simp

/-- Any other entry is left. -/
theorem Made.byte_ne (h : Made m m' ino name) (hne : n ≠ slotFor m) {k : Nat} (hk : k < directSize) :
    Image.dirents m' (directSize * n + k) = Image.dirents m (directSize * n + k) := by
  rw [h.dirents, Mem.overlay_out]
  unfold directSize at *
  omega

theorem Made.named_ne (h : Made m m' ino c.name) (hne : n ≠ slotFor m) (hlen : name.length ≤ 13) :
    named m' n name = named m n name := by
  refine spelled_shift fun i hi => ?_
  rw [Nat.add_assoc]
  exact h.byte_ne hne (by unfold nameOff directSize; omega)

/-- CALL: an entry with a name stands. -/
theorem Stands.after (h : Stands m n ino name) (hm : Formed m) (hfree : c.Enters m → 1 ≤ freeInodes m)
    (hname : 0 ∉ name) (hne : name ≠ []) : Stands (c.after m) n ino name := by
  by_cases hc : c.Enters m
  · obtain ⟨ino', hino, -⟩ := freeIno_table (hfree hc)
    have hmade := hc.made hm.toRooted hm.small hino
    have hother : n ≠ slotFor m := by
      rintro rfl
      have hempty := hmade.empty
      rw [h.not_vacant hname hne] at hempty
      cases hempty
    refine ⟨?_, fun k hk => ?_, ?_⟩
    · rw [hmade.blocks]
      exact Nat.lt_of_lt_of_le h.slot (Nat.le_max_left _ _)
    · rw [hmade.byte_ne hother hk]
      exact h.bytes k hk
    · rw [hmade.inoFree, h.used, Bool.false_and]
  · have hkept := Call.kept hm.toRooted hm.small hc
    refine ⟨?_, fun k hk => ?_, ?_⟩
    · rw [hkept.blocks]
      exact h.slot
    · rw [hkept.dirents]
      exact h.bytes k hk
    · rw [hkept.inoFree]
      exact h.used

end Stands

end Myos.Image
