import Mathlib.Order.Interval.Finset.Nat
import Myos.Image.Chunks

/-!
# A formatted image

What the steps of `main` before the first file leave: in the bitmaps every block but the
first fourteen is free and every inode but the root, the root inode is an empty
directory, and the rest is as it was before. Where that was nought, the image is sane.
-/

namespace Myos.Image

open Myos.Lib
open Myos.Kernel (blkSize rootInode bitLength inodeSize diSizeOff blockOff blockSlot)

/-- The root inode. -/
def root : Fin inodes := ⟨rootInode, by decide⟩

/-- The inode that the first file gets. -/
def firstIno : Fin inodes := ⟨1, by decide⟩

/-- Whether an inode is free. -/
def inoFree (m : Mem) (no : Nat) : Bool := decide (no < blocks) && Bitmap.bit m inoBitmap no

/-- The bitmap with `n` bits from `i` on cleared. -/
def cleared (m : Mem) (bitmap : Nat) : Nat → Nat → Mem
  | 0, _ => m
  | n + 1, i => cleared (Bitmap.clear m bitmap i) bitmap n (i + 1)

section Cleared

variable {m : Mem} {bitmap n i : Nat}

theorem setBitmaps_run (hb : bitmap + blkSize ≤ imgSize) (h : i + n ≤ blocks) :
    setBitmaps bitmap n i m = .ok () (cleared m bitmap n i) := by
  induction n generalizing m i with
  | zero => rfl
  | succ n ih =>
    rw [setBitmaps, Act.bind_ok (setBitmap_run hb (by omega)), ih (by omega)]
    rfl

/-- The bits from `i` on are clear, the others as before. -/
theorem bit_cleared (k : Nat) : Bitmap.bit (cleared m bitmap n i) bitmap k =
    (Bitmap.bit m bitmap k && decide (k < i ∨ i + n ≤ k)) := by
  induction n generalizing m i with
  | zero => rw [cleared, decide_eq_true (by omega), Bool.and_true]
  | succ n ih =>
    rw [cleared, ih, Bitmap.bit_clear, Bool.and_assoc]
    congr 1
    rw [← Bool.decide_and]
    exact decide_eq_decide.mpr (by omega)

/-- No byte outside the bitmap changes. -/
theorem cleared_out {x : Nat} (h : i + n ≤ blocks) (hx : x < bitmap ∨ bitmap + blkSize ≤ x) :
    cleared m bitmap n i x = m x := by
  induction n generalizing m i with
  | zero => rfl
  | succ n ih =>
    rw [cleared, ih (by omega)]
    refine Bitmap.clear_out ?_
    unfold blocks at h
    unfold blkSize at hx
    omega

end Cleared

/-- The image after the steps of `main` that format it. -/
def formatted (m : Mem) : Mem :=
  let m := m.overlay (blkSize * 1) blkSize superBlock
  let m := m.overlay blkBitmap blkSize fun _ => 0xFF
  let m := m.overlay inoBitmap blkSize fun _ => 0xFF
  let m := cleared m blkBitmap 14 0
  let m := m.overlay (inode rootInode) inodeSize fun _ => 0
  let m := Mem.wr 4 m (inode rootInode + diSizeOff) 0
  let m := Mem.wr 2 m (inode rootInode + diTypeOff) 1
  Bitmap.clear m inoBitmap 0

theorem format_run (m : Mem) : format m = .ok () (formatted m) := by
  unfold format formatted
  rw [Act.bind_ok (copyIn_ok (by decide)), Act.bind_ok (copyIn_ok (by decide)),
    Act.bind_ok (copyIn_ok (by decide)), Act.bind_ok (setBitmaps_run (by decide) (by decide)),
    Act.bind_ok (copyIn_ok (by decide)), Act.bind_ok (store_ok (by decide)),
    Act.bind_ok (store_ok (by decide)), setBitmap_run (by decide) (by decide)]

/-! ## What it is like -/

section Formatted

variable {m : Mem} {no x : Nat} {ino : Fin inodes}

/-- Every bit of a filled bitmap is set. -/
theorem bit_fill (m : Mem) (a : Nat) (h : no < blocks) :
    Bitmap.bit (m.overlay a blkSize fun _ => 0xFF) a no = true := by
  have hword : Mem.rd 4 (m.overlay a blkSize fun _ => 0xFF) (a + 4 * (no / 32)) = 2 ^ 32 - 1 := by
    unfold blocks at h
    rw [Mem.rd_overlay_inside (by omega) (by unfold blkSize; omega)]
    simp [Mem.rd]
  rw [Bitmap.bit, hword, Nat.testBit_two_pow_sub_one]
  exact decide_eq_true (Nat.mod_lt _ (by decide))

theorem formatted_blkFree : blkFree (formatted m) no = decide (firstBlock ≤ no ∧ no < blocks) := by
  unfold blkFree
  by_cases hno : no < blocks
  · have hwords : no / 32 * 4 + 4 ≤ blkSize := by
      unfold blocks at hno
      unfold blkSize
      omega
    have hstep : ∀ m' : Mem, (∀ x, blkBitmap ≤ x → x < blkBitmap + blkSize →
        formatted m x = m' x) → Bitmap.bit (formatted m) blkBitmap no = Bitmap.bit m' blkBitmap no :=
      fun m' h => Bitmap.bit_congr (n := blkSize) hwords fun x h1 h2 => (h x h1 h2)
    rw [hstep (cleared ((((m.overlay (blkSize * 1) blkSize superBlock).overlay blkBitmap blkSize
      fun _ => 0xFF).overlay inoBitmap blkSize fun _ => 0xFF)) blkBitmap 14 0) ?_, bit_cleared]
    · have hfill := bit_fill (m.overlay (blkSize * 1) blkSize superBlock) blkBitmap hno
      have hsame : Bitmap.bit (((m.overlay (blkSize * 1) blkSize superBlock).overlay blkBitmap
          blkSize fun _ => 0xFF).overlay inoBitmap blkSize fun _ => 0xFF) blkBitmap no = true := by
        rw [← hfill]
        refine Bitmap.bit_congr (n := blkSize) hwords fun x h1 h2 => Mem.overlay_out (.inl ?_)
        unfold blkBitmap blkSize at h2
        unfold inoBitmap blkSize
        omega
      rw [hsame, Bool.true_and, decide_eq_true hno, Bool.true_and]
      refine decide_eq_decide.mpr ?_
      unfold firstBlock
      omega
    · intro x h1 h2
      unfold blkBitmap blkSize at h1 h2
      unfold formatted
      rw [Bitmap.clear_out (.inl (by unfold inoBitmap blkSize; omega)),
        Mem.wr_out (.inl (by rw [inode_eq]; unfold rootInode; omega)),
        Mem.wr_out (.inl (by rw [inode_eq]; unfold rootInode; omega)),
        Mem.overlay_out (.inl (by rw [inode_eq]; unfold rootInode; omega))]
  · rw [decide_eq_false hno, Bool.false_and, decide_eq_false fun h => hno h.2]

theorem formatted_inoFree : inoFree (formatted m) no = decide (1 ≤ no ∧ no < blocks) := by
  unfold inoFree
  by_cases hno : no < blocks
  · have hwords : no / 32 * 4 + 4 ≤ blkSize := by
      unfold blocks at hno
      unfold blkSize
      omega
    have hfill := bit_fill ((m.overlay (blkSize * 1) blkSize superBlock).overlay blkBitmap blkSize
      fun _ => 0xFF) inoBitmap hno
    unfold formatted
    rw [Bitmap.bit_clear]
    have hsame : ∀ m' : Mem, (∀ x, inoBitmap ≤ x → x < inoBitmap + blkSize →
        m' x = ((m.overlay (blkSize * 1) blkSize superBlock).overlay blkBitmap blkSize
          fun _ => 0xFF).overlay inoBitmap blkSize (fun _ => 0xFF) x) →
        Bitmap.bit m' inoBitmap no = true := fun m' h => by
      rw [← hfill]
      exact Bitmap.bit_congr (n := blkSize) hwords fun x h1 h2 => h x h1 h2
    rw [hsame _ fun x h1 h2 => by
      unfold inoBitmap blkSize at h1 h2
      rw [Mem.wr_out (.inl (by rw [inode_eq]; unfold rootInode; omega)),
        Mem.wr_out (.inl (by rw [inode_eq]; unfold rootInode; omega)),
        Mem.overlay_out (.inl (by rw [inode_eq]; unfold rootInode; omega)),
        cleared_out (by decide) (.inr (by unfold blkBitmap blkSize; omega))],
      Bool.true_and, decide_eq_true hno, Bool.true_and]
    exact decide_eq_decide.mpr (by omega)
  · rw [decide_eq_false hno, Bool.false_and, decide_eq_false fun h => hno h.2]

/-- The rest is as it was before. -/
theorem formatted_out (h : x < blkSize ∨ inode rootInode + inodeSize ≤ x) : formatted m x = m x := by
  rw [inode_eq] at h
  unfold rootInode inodeSize blkSize at h
  unfold formatted
  rw [Bitmap.clear_out (by unfold inoBitmap blkSize; omega),
    Mem.wr_out (by rw [inode_eq]; unfold rootInode diTypeOff; omega),
    Mem.wr_out (by rw [inode_eq]; unfold rootInode diSizeOff; omega),
    Mem.overlay_out (by rw [inode_eq]; unfold rootInode inodeSize; omega),
    cleared_out (by decide) (by unfold blkBitmap blkSize; omega),
    Mem.overlay_out (by unfold inoBitmap blkSize; omega),
    Mem.overlay_out (by unfold blkBitmap blkSize; omega),
    Mem.overlay_out (by unfold blkSize; omega)]

/-- The root inode has no size and no blocks. -/
theorem formatted_root (h1 : inode rootInode ≤ x) (h2 : x < inode rootInode + inodeSize)
    (h3 : x < inode rootInode + diTypeOff ∨ inode rootInode + diTypeOff + 2 ≤ x) :
    formatted m x = 0 := by
  have hino : inode rootInode = 16384 := rfl
  rw [hino] at h1 h2 h3
  have hclear : formatted m x = Mem.wr 4 ((cleared (((m.overlay (blkSize * 1) blkSize
      superBlock).overlay blkBitmap blkSize fun _ => 0xFF).overlay inoBitmap blkSize
      fun _ => 0xFF) blkBitmap 14 0).overlay (inode rootInode) inodeSize fun _ => 0)
      (inode rootInode + diSizeOff) 0 x := by
    unfold formatted
    rw [Bitmap.clear_out (.inr (by unfold inoBitmap blkSize; omega)), Mem.wr_out (by omega)]
  rw [hclear, hino]
  by_cases hsize : x < 16384 + diSizeOff + 4
  · have hword : 16384 + diSizeOff ≤ x ∧ x < 16384 + diSizeOff + 4 :=
      ⟨by unfold diSizeOff; omega, hsize⟩
    rw [Mem.wr, Mem.overlay_in hword, Nat.zero_div]
    rfl
  · rw [Mem.wr_out (.inr (by omega)), Mem.overlay_in ⟨h1, h2⟩]

theorem formatted_size : fileSize (formatted m) root = 0 := by
  refine Mem.rd_zero fun x h1 h2 => formatted_root h1 ?_ (.inl ?_)
  · exact h2.trans (by decide)
  · exact h2.trans (by decide)

theorem formatted_slot (i : Fin 11) : Place.val (formatted m) (.slot root i) = 0 := by
  obtain ⟨h1, h2⟩ := @slot_inode root _ i.isLt
  refine Mem.rd_zero fun x h3 h4 => formatted_root ?_ (h4.trans_le h2) (.inr ?_)
  · exact (Nat.le_add_right _ 10).trans (h1.trans h3)
  · exact (show inode rootInode + diTypeOff + 2 ≤ inode root + 10 by decide).trans (h1.trans h3)

end Formatted

/-! ## On nought -/

/-- An image that is all nought. -/
def blank : Mem := fun _ => 0

section Blank

theorem blank_val (q : Place) : q.val (formatted blank) = 0 := by
  have hslot : ∀ (ino : Fin inodes) (i : Fin 11), Place.val (formatted blank) (.slot ino i) = 0 := by
    intro ino i
    by_cases hroot : ino = root
    · rw [hroot]
      exact formatted_slot i
    · have hne : ino.val ≠ 0 := fun he => hroot (Fin.ext he)
      refine Mem.rd_zero fun x h1 _ => formatted_out (.inr ?_)
      rw [blockSlot_eq] at h1
      rw [inode_eq]
      unfold rootInode inodeSize
      omega
  cases q with
  | slot ino i => exact hslot ino i
  | entry ino k => exact if_pos (hslot ino 10)

/-- A blank image is sane once it is formatted. -/
theorem blank_sane : Sane (formatted blank) where
  sound :=
    { pos := by decide
      range := fun q hq => absurd (blank_val q) hq
      used := fun q hq => absurd (blank_val q) hq
      inj := fun q _ hq => absurd (blank_val q) hq
      bounds := fun no hno => of_decide_eq_true (formatted_blkFree.symm.trans hno) }
  clean no hno x hx := by
    obtain ⟨hlo, -⟩ := of_decide_eq_true (formatted_blkFree.symm.trans hno)
    refine formatted_out (.inr ?_)
    rw [inode_eq]
    unfold firstBlock at hlo
    unfold rootInode inodeSize
    unfold blkSize at hx
    omega

theorem blank_fresh (ino : Fin inodes) : Fresh (formatted blank) ino where
  size := by
    by_cases hroot : ino = root
    · rw [hroot]
      exact formatted_size
    · have hne : ino.val ≠ 0 := fun he => hroot (Fin.ext he)
      refine Mem.rd_zero fun x h1 _ => formatted_out (.inr ?_)
      unfold diSizeOff at h1
      rw [inode_eq] at h1
      rw [inode_eq]
      unfold rootInode inodeSize
      omega
  slots i := blank_val (.slot ino i)

/-- How many blocks it has for files. -/
theorem blank_freeBlocks : freeBlocks (formatted blank) = 32754 := by
  unfold freeBlocks Ledger.available
  have hset : ((Finset.range blocks).filter fun n => (ledger (formatted blank)).free n) =
      Finset.Ico firstBlock blocks := by
    ext n
    rw [Finset.mem_filter, Finset.mem_range, Finset.mem_Ico]
    show n < blocks ∧ blkFree (formatted blank) n = true ↔ _
    rw [formatted_blkFree, decide_eq_true_iff]
    exact ⟨fun h => h.2, fun h => ⟨h.2, h⟩⟩
  rw [hset, Nat.card_Ico]
  rfl

end Blank

end Myos.Image
