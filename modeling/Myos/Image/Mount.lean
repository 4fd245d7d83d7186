import Myos.Image.Dirents
import Myos.Kernel.Remount

/-!
# An image that the kernel mounts

`read_superblock` brings one block of the inode table to memory, the first of the ten
that the image builder writes to. For the inodes in it the kernel sees the size, the
slots and the blocks that the image has (`Mounts`); the others are past the frame of the
table.
-/

namespace Myos.Image

open Myos.Lib
open Myos.Kernel (Fs FreeList Mounted Synced readSuperblock readSuperblock_run blkSize pageSize
  kbase frameVa inodesInTable inodeSize blockOff blockSlot diSizeOff directSize)

/-- The kernel has mounted the image: it had four frames for that. -/
def Mounts (m : Mem) (s : Fs) : Prop :=
  ∃ (s₀ : Fs) (l : List Nat), FreeList s₀.mm l ∧ s₀.mm.npages ≤ 2 ^ 19 ∧ s₀.starved = false ∧
    4 ≤ l.length ∧ s₀.disk = m ∧ readSuperblock s₀ = .ok () s

/-- The kernel has the image at hand: the table and the bitmap in frames of their own, the rest on
disk. -/
def Serves (m : Mem) (s : Fs) (l : List Nat) : Prop :=
  ∃ ft fb, Mounted s ft fb l ∧ Synced s ft fb ∧ s.disk = m

section Mounts

variable {m : Mem} {s : Fs} {ft fb ino x : Nat} {l : List Nat}

theorem Mounts.serves (h : Mounts m s) : ∃ l, Serves m s l := by
  obtain ⟨s₀, l₀, hl, hn, hst, hroom, rfl, hrun⟩ := h
  obtain ⟨s', ft, fb, l', hrun', hm, hsync, hdisk⟩ := readSuperblock_run hl hn hst hroom
  obtain rfl : s' = s := by
    rw [hrun] at hrun'
    cases hrun'
    rfl
  exact ⟨l', ft, fb, hm, hsync, hdisk⟩

/-- Every image can be mounted. -/
theorem mounts_sample (m : Mem) : ∃ s, Mounts m s := by
  have hl : FreeList (Myos.Kernel.sampleFile.fs.setDisk m).mm [8, 9, 10, 11, 12, 13, 14, 15] :=
    Myos.Kernel.sampleFile_list
  have hn : Myos.Kernel.sampleFile.fs.mm.npages ≤ 2 ^ 19 := by decide
  obtain ⟨s', -, -, -, hrun, -⟩ := readSuperblock_run hl hn rfl (by decide)
  exact ⟨s', _, _, hl, hn, rfl, by decide, rfl, hrun⟩

theorem Serves.disk (h : Serves m s l) : s.disk = m := by
  obtain ⟨ft, fb, -, -, hdisk⟩ := h
  exact hdisk

/-- A byte of the table, in memory and in the image. -/
theorem Serves.byte (h : Serves m s l) (hino : ino < inodesInTable) (hx : x < inodeSize) :
    s.mm.mem (s.inode ino - kbase + x) = m (inode ino + x) := by
  obtain ⟨ft, fb, hm, hsync, hdisk⟩ := h
  have hfit : inodeSize * ino + x < blkSize := by
    unfold inodesInTable at hino
    unfold inodeSize blkSize at *
    omega
  have hva : s.inode ino - kbase + x = pageSize * ft + (inodeSize * ino + x) := by
    unfold Fs.inode
    rw [hm.table, frameVa]
    omega
  rw [hva, hsync.table _ hfit, hdisk, inode, inoTable, Nat.mul_comm blkSize 4, Nat.add_assoc]

/-- The slots of an inode. -/
theorem Serves.slot (h : Serves m s l) (i : Fin inodes) (hi : i.val < inodesInTable) (k : Fin 11) :
    s.slot (s.inode i) k = Place.val m (.slot i k) := by
  obtain ⟨ft, fb, hm, hsync, hdisk⟩ := h
  rw [hsync.slot hm hi (Nat.le_of_lt_succ k.isLt), hdisk, Place.val_slot, blockSlot_eq]
  unfold Myos.Kernel.diskSlot blkSize inodeSize blockOff
  congr 1
  omega

/-- The blocks of a file. -/
theorem Serves.blockNo (h : Serves m s l) (i : Fin inodes) (hi : i.val < inodesInTable) {b : Nat}
    (hb : b < fileBlocks) : s.blockNo (s.inode i) b = blockNo m i b := by
  have hten : s.slot (s.inode i) 10 = indirect m i := h.slot i hi 10
  unfold Fs.blockNo Image.blockNo
  by_cases hlow : b < 10
  · rw [if_pos hlow, filePlace_slot hlow]
    exact h.slot i hi ⟨b, by omega⟩
  · have hmod : (b - 10) % 2048 = b - 10 := by
      unfold fileBlocks at hb
      exact Nat.mod_eq_of_lt (by omega)
    rw [if_neg hlow, if_pos (show b < 2058 from hb), hten, filePlace_entry hlow, Place.val_entry,
      Fs.indirect, h.disk]
    simp only [hmod]

/-- The size of a file. -/
theorem Serves.size (h : Serves m s l) (i : Fin inodes) (hi : i.val < inodesInTable) :
    Mem.rd 4 s.mm.mem (s.inode i - kbase + diSizeOff) = fileSize m i := by
  refine Mem.rd_shift fun x hx => ?_
  rw [Nat.add_assoc, Nat.add_assoc]
  exact h.byte hi (by unfold diSizeOff inodeSize; omega)

end Mounts

end Myos.Image
