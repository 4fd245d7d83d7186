import Myos.Kernel.FileWrite
import Myos.Lib.Bitmap

/-!
# A mounted image

After `read_superblock` two frames of memory hold the inode table and the
block bitmap (`Mounted`). The maps of the inodes, the free blocks and the disk
fit together (`Mapped`): a block that has a number is in use, no two places
name one disk block, and none names a block that holds the numbers of others.

What a call on one block does is said once. A write that succeeds stores to
one block, which the map named before or which was free (`Stored`); a read
changes none of this.
-/

namespace Myos.Kernel

open Myos.Lib

/-- The inodes of the table that is in memory. -/
def inodesInTable : Nat := 128

/-- `&ino_table[ino]`. -/
def Fs.inode (s : Fs) (ino : Nat) : Nat := s.inoTable + inodeSize * ino

/-- The bitmap in memory has the block free. -/
def Fs.blkFree (s : Fs) (no : Nat) : Bool :=
  decide (no < blkSize * 8) && Bitmap.bit s.mm.mem (s.blkBitmap - kbase) no

/-- The frames of the inode table and the bitmap are in use. -/
structure Mounted (s : Fs) (ft fb : Nat) (l : List Nat) : Prop where
  free : FreeList s.mm l
  npages : s.mm.npages ≤ 2 ^ 19
  served : s.starved = false
  table : s.inoTable = frameVa ft
  bitmap : s.blkBitmap = frameVa fb
  apart : ft ≠ fb
  table_lt : ft < 2 ^ 19
  bitmap_lt : fb < 2 ^ 19
  table_out : ft ∉ l
  bitmap_out : fb ∉ l

/-! ## The bitmap in memory -/

section BlkBitmap

variable {s : Mm} {l : List Nat} {bitmap no : Nat}

theorem isBlkempty_run (hk : Kept l bitmap pageSize) (hno : no < blkSize * 8) :
    ∃ w, isBlkempty bitmap no s = .ok w s ∧
      (w ≠ 0 ↔ Bitmap.bit s.mem (bitmap - kbase) no = true) := by
  have hword : Kept l (bitmap + 4 * (no / 32)) 4 := hk.part (by
    unfold blkSize at hno
    unfold pageSize
    omega)
  refine ⟨_, by unfold isBlkempty bitLength; rw [Act.bind_ok (hword.load (by decide) 4)]; rfl, ?_⟩
  rw [Bitmap.land_bit_ne_zero, Nat.sub_add_comm hk.lo]
  rfl

theorem getFreeNoLoop_run (hk : Kept l bitmap pageSize) (n i : Nat) (hi : i + n ≤ blkSize * 8) :
    getFreeNoLoop bitmap n i s =
      .ok (match Bitmap.firstFrom (Bitmap.bit s.mem (bitmap - kbase)) n i with
        | some k => (k : Int)
        | none => -1) s := by
  induction n generalizing i with
  | zero => rfl
  | succ n ih =>
    obtain ⟨w, hw, hbit⟩ := isBlkempty_run (s := s) hk (by omega : i < blkSize * 8)
    rw [getFreeNoLoop, Act.bind_ok hw, Bitmap.firstFrom]
    by_cases h : w ≠ 0
    · rw [if_pos h, if_pos (hbit.mp h)]
      rfl
    · rw [if_neg h, if_neg fun h' => h (hbit.mpr h'), ih (i + 1) (by omega)]

theorem setBitmap_run (hk : Kept l bitmap pageSize) (hno : no < blkSize * 8) :
    setBitmap bitmap no s = .ok () (s.setMem (Bitmap.clear s.mem (bitmap - kbase) no)) := by
  have hword : Kept l (bitmap + 4 * (no / 32)) 4 := hk.part (by
    unfold blkSize at hno
    unfold pageSize
    omega)
  unfold setBitmap bitLength Bitmap.clear
  rw [Act.bind_ok (hword.load (by decide) 4), hword.store (by decide) 4, Nat.sub_add_comm hk.lo]

end BlkBitmap

/-- The block taken in the bitmap. -/
def Fs.taken (s : Fs) (no : Nat) : Fs :=
  Fs.setMm (s.mm.setMem (Bitmap.clear s.mm.mem (s.blkBitmap - kbase) no)) s

/-- The block taken in the bitmap, and its number stored at `ptr`. -/
def Fs.given (s : Fs) (ptr no : Nat) : Fs :=
  Fs.setMm ((s.taken no).mm.setMem (Mem.wr 2 (s.taken no).mm.mem (ptr - kbase) no))
    (s.taken no)

namespace Fs

variable (s : Fs) (ptr no : Nat)

@[simp] theorem taken_blkBitmap : (s.taken no).blkBitmap = s.blkBitmap := setMm_blkBitmap _ s
@[simp] theorem taken_inoTable : (s.taken no).inoTable = s.inoTable := setMm_inoTable _ s
@[simp] theorem taken_disk : (s.taken no).disk = s.disk := setMm_disk _ s
@[simp] theorem given_blkBitmap : (s.given ptr no).blkBitmap = s.blkBitmap := by
  rw [given, setMm_blkBitmap, taken_blkBitmap]
@[simp] theorem given_inoTable : (s.given ptr no).inoTable = s.inoTable := by
  rw [given, setMm_inoTable, taken_inoTable]
@[simp] theorem given_disk : (s.given ptr no).disk = s.disk := by
  rw [given, setMm_disk, taken_disk]

@[simp] theorem given_inode (j : Nat) : (s.given ptr no).inode j = s.inode j := by
  rw [inode, inode, given_inoTable]

theorem given_cr3 : (s.given ptr no).mm.cr3 = s.mm.cr3 := by
  rw [given, setMm_mm, Mm.setMem_cr3, taken, setMm_mm, Mm.setMem_cr3]

theorem taken_mem_eq :
    (s.taken no).mm.mem = Bitmap.clear s.mm.mem (s.blkBitmap - kbase) no := rfl

theorem given_mem_eq :
    (s.given ptr no).mm.mem = Mem.wr 2 (s.taken no).mm.mem (ptr - kbase) no := rfl

end Fs

section Slots

variable {f ino i j k x : Nat}

/-- The entries of the inodes lie in one frame. -/
theorem slot_div (hino : ino < inodesInTable) (hi : i ≤ 10)
    (h1 : pageSize * f + (inodeSize * ino + blockOff + 2 * i) ≤ x)
    (h2 : x < pageSize * f + (inodeSize * ino + blockOff + 2 * i) + 2) : x / pageSize = f := by
  unfold inodesInTable at hino
  unfold inodeSize blockOff pageSize at *
  omega

/-- No two of them meet. -/
theorem slot_apart (hi : i ≤ 10) (hk : k ≤ 10) (h : ¬ (j = ino ∧ i = k)) :
    pageSize * f + (inodeSize * j + blockOff + 2 * i) + 2 ≤
        pageSize * f + (inodeSize * ino + blockOff + 2 * k) ∨
      pageSize * f + (inodeSize * ino + blockOff + 2 * k) + 2 ≤
        pageSize * f + (inodeSize * j + blockOff + 2 * i) := by
  unfold inodeSize blockOff
  omega

end Slots

namespace Mounted

variable {s : Fs} {ft fb ino no : Nat} {l : List Nat}

/-- A store to memory leaves the frames what they are. -/
theorem setMem (h : Mounted s ft fb l) (m : Mem) : Mounted (Fs.setMm (s.mm.setMem m) s) ft fb l where
  free := h.free.congr rfl rfl rfl
  npages := h.npages
  served := h.served
  table := h.table
  bitmap := h.bitmap
  apart := h.apart
  table_lt := h.table_lt
  bitmap_lt := h.bitmap_lt
  table_out := h.table_out
  bitmap_out := h.bitmap_out

/-- The list of the free frames may be any. -/
theorem relist {l' : List Nat} (h : Mounted s ft fb l) (hl : FreeList s.mm l') :
    Mounted s ft fb l' :=
  { h with
    free := hl
    table_out := fun hf => h.table_out ((h.free.mem ft).mpr ((hl.mem ft).mp hf))
    bitmap_out := fun hf => h.bitmap_out ((h.free.mem fb).mpr ((hl.mem fb).mp hf)) }

theorem kept_bitmap (h : Mounted s ft fb l) : Kept l s.blkBitmap pageSize := by
  rw [h.bitmap]
  exact kept_frame h.bitmap_lt h.bitmap_out

theorem kept_inode (h : Mounted s ft fb l) (hino : ino < inodesInTable) :
    Kept l (s.inode ino) inodeSize := by
  unfold Fs.inode
  rw [h.table]
  refine (kept_frame h.table_lt h.table_out).part ?_
  unfold inodesInTable at hino
  unfold inodeSize pageSize
  omega

/-- Where an entry of an inode is. -/
theorem blockSlot_sub (h : Mounted s ft fb l) (ino i : Nat) :
    blockSlot (s.inode ino) i - kbase = pageSize * ft + (inodeSize * ino + blockOff + 2 * i) := by
  unfold Fs.inode blockSlot
  rw [h.table, frameVa]
  omega

theorem bitmap_sub (h : Mounted s ft fb l) : s.blkBitmap - kbase = pageSize * fb := by
  rw [h.bitmap]
  exact Nat.add_sub_cancel_left _ _

/-- `get_free_no` finds a free block, if there is one. -/
theorem getFreeNo_run (h : Mounted s ft fb l) :
    (getFreeNo s.blkBitmap s.mm = .ok (-1) s.mm ∧ ∀ no, s.blkFree no = false) ∨
    ∃ no < blkSize * 8, s.blkFree no = true ∧ getFreeNo s.blkBitmap s.mm = .ok (no : Int) s.mm := by
  have hfind := getFreeNoLoop_run (s := s.mm) h.kept_bitmap (blkSize * 8) 0 (by omega)
  cases hno : Bitmap.firstFrom (Bitmap.bit s.mm.mem (s.blkBitmap - kbase)) (blkSize * 8) 0 with
  | none =>
    rw [hno] at hfind
    refine .inl ⟨hfind, fun n => ?_⟩
    by_contra hfree
    obtain ⟨hlt, hbit⟩ := Bool.and_eq_true_iff.mp (Bool.eq_true_of_not_eq_false hfree)
    have hlt' : n < 0 + blkSize * 8 := by
      rw [Nat.zero_add]
      exact of_decide_eq_true hlt
    exact Bitmap.firstFrom_ne_none (Nat.zero_le n) hlt' hbit hno
  | some no =>
    rw [hno] at hfind
    obtain ⟨-, hlt, hbit, -⟩ := Bitmap.firstFrom_eq_some hno
    rw [Nat.zero_add] at hlt
    refine .inr ⟨no, hlt, ?_, hfind⟩
    unfold Fs.blkFree
    rw [decide_eq_true hlt, hbit]
    rfl

/-- `get_blk` takes a free block, if there is one. -/
theorem getBlk_run (h : Mounted s ft fb l) :
    (getBlk s = .ok (-1) s ∧ ∀ no, s.blkFree no = false) ∨
    ∃ no, s.blkFree no = true ∧ getBlk s = .ok (no : Int) (s.taken no) := by
  unfold getBlk
  rcases h.getFreeNo_run with ⟨hfind, hfull⟩ | ⟨no, hlt, hfree, hfind⟩
  · rw [Act.gets_bind_apply, Act.bind_ok (fsMm_ok hfind), if_pos (by decide)]
    exact .inl ⟨rfl, hfull⟩
  · have hneg : ¬ (no : Int) < 0 := by omega
    rw [Act.gets_bind_apply, Act.bind_ok (fsMm_ok hfind), if_neg hneg, Int.toNat_natCast]
    exact .inr ⟨no, hfree, Act.bind_ok (fsMm_ok (setBitmap_run h.kept_bitmap hlt))⟩

/-- What the bitmap has depends on its own frame. -/
theorem blkFree_congr {s' : Fs} (h : Mounted s ft fb l) (hb : s'.blkBitmap = s.blkBitmap)
    (hm : ∀ x, x / pageSize = fb → s'.mm.mem x = s.mm.mem x) (no : Nat) :
    s'.blkFree no = s.blkFree no := by
  unfold Fs.blkFree
  rw [hb, h.bitmap_sub]
  by_cases hno : no < blkSize * 8
  · rw [Bitmap.bit_congr (n := pageSize) (by unfold blkSize at hno; unfold pageSize; omega)
      fun x h1 h2 => hm x (by unfold pageSize at *; omega)]
  · rw [decide_eq_false hno, Bool.false_and, Bool.false_and]

/-- An entry of an inode depends on the frame of the table. -/
theorem slot_congr {s' : Fs} (h : Mounted s ft fb l) (hino : ino < inodesInTable) {i : Nat}
    (hi : i ≤ 10) (hm : ∀ x, x / pageSize = ft → s'.mm.mem x = s.mm.mem x) :
    s'.slot (s.inode ino) i = s.slot (s.inode ino) i := by
  unfold Fs.slot
  rw [h.blockSlot_sub]
  exact Mem.rd_congr fun x h1 h2 => hm x (slot_div hino hi h1 h2)

/-- Taking a block stores to the frame of the bitmap. -/
theorem taken_mem (h : Mounted s ft fb l) (hno : no < blkSize * 8) {x : Nat}
    (hx : x / pageSize ≠ fb) : (s.taken no).mm.mem x = s.mm.mem x := by
  refine Bitmap.clear_out ?_
  rw [h.bitmap_sub]
  unfold blkSize at hno
  unfold pageSize at *
  omega

variable {b : Nat}

/-- Giving a block stores to the two frames. -/
theorem given_mem (h : Mounted s ft fb l) (hino : ino < inodesInTable) (hb : b ≤ 10)
    (hno : no < blkSize * 8) {x : Nat} (hx : x / pageSize ≠ fb) (hx' : x / pageSize ≠ ft) :
    (s.given (blockSlot (s.inode ino) b) no).mm.mem x = s.mm.mem x := by
  refine (Mem.wr_out ?_).trans (h.taken_mem hno hx)
  rw [h.blockSlot_sub]
  by_contra hx''
  exact hx' (slot_div hino hb (Nat.not_lt.mp fun h1 => hx'' (.inl h1))
    (Nat.not_le.mp fun h2 => hx'' (.inr h2)))

theorem given (h : Mounted s ft fb l) (ptr : Nat) : Mounted (s.given ptr no) ft fb l :=
  (h.setMem _).setMem _

/-- The entry is the number, and every other entry is as it was. -/
theorem given_slot (h : Mounted s ft fb l) (hino : ino < inodesInTable) (hb : b ≤ 10)
    (hno : no < blkSize * 8) {j i : Nat} (hj : j < inodesInTable) (hi : i ≤ 10) :
    (s.given (blockSlot (s.inode ino) b) no).slot (s.inode j) i =
      if j = ino ∧ i = b then no else s.slot (s.inode j) i := by
  have htaken : (s.taken no).slot (s.inode j) i = s.slot (s.inode j) i :=
    h.slot_congr hj hi fun x hx => h.taken_mem hno fun hx' => h.apart (hx.symm.trans hx')
  by_cases heq : j = ino ∧ i = b
  · obtain ⟨rfl, rfl⟩ := heq
    rw [if_pos ⟨rfl, rfl⟩]
    exact (Mem.rd_wr_same 2 _ _ no).trans (Nat.mod_eq_of_lt (Nat.lt_trans hno (by decide)))
  · rw [if_neg heq, ← htaken]
    refine Mem.rd_wr_disjoint ?_
    rw [h.blockSlot_sub, h.blockSlot_sub]
    exact slot_apart hi hb heq

/-- The map has the block at its place, and every other as it was. -/
theorem given_blockNo (h : Mounted s ft fb l) (hino : ino < inodesInTable) (hb : b < 10)
    (hno : no < blkSize * 8) {j : Nat} (hj : j < inodesInTable) (c : Nat) :
    (s.given (blockSlot (s.inode ino) b) no).blockNo (s.inode j) c =
      if j = ino ∧ c = b then no else s.blockNo (s.inode j) c := by
  have h10 := h.given_slot hino (Nat.le_of_lt hb) hno hj (Nat.le_refl 10)
  rw [if_neg fun heq => Nat.ne_of_lt hb heq.2.symm] at h10
  by_cases hc : c < 10
  · have hslot := h.given_slot hino (Nat.le_of_lt hb) hno hj (Nat.le_of_lt hc)
    rw [Fs.blockNo, Fs.blockNo, if_pos hc, if_pos hc, hslot]
  · have hne : ¬ (j = ino ∧ c = b) := fun heq => hc (heq.2 ▸ hb)
    unfold Fs.blockNo Fs.indirect
    rw [if_neg hc, if_neg hc, if_neg hne, h10, Fs.given_disk]

/-- The block is no longer free, and every other is as it was. -/
theorem given_blkFree (h : Mounted s ft fb l) (hino : ino < inodesInTable) (hb : b ≤ 10) (n : Nat) :
    (s.given (blockSlot (s.inode ino) b) no).blkFree n = (s.blkFree n && decide (n ≠ no)) := by
  have htaken : (s.taken no).blkFree n = (s.blkFree n && decide (n ≠ no)) := by
    unfold Fs.blkFree
    rw [Fs.taken_blkBitmap, Fs.taken_mem_eq, Bitmap.bit_clear, Bool.and_assoc]
  have hm : Mounted (s.taken no) ft fb l := h.setMem _
  have hbitmap : (s.given (blockSlot (s.inode ino) b) no).blkBitmap = (s.taken no).blkBitmap := by
    rw [Fs.given_blkBitmap, Fs.taken_blkBitmap]
  rw [← htaken]
  refine hm.blkFree_congr hbitmap (fun x hx => ?_) n
  rw [Fs.given_mem_eq]
  refine Mem.wr_out ?_
  rw [h.blockSlot_sub]
  by_contra hx'
  exact h.apart ((slot_div hino hb (Nat.not_lt.mp fun h1 => hx' (.inl h1))
    (Nat.not_le.mp fun h2 => hx' (.inr h2))).symm.trans hx)

end Mounted

/-! ## The maps of the inodes -/

/-- The maps of the inodes `P` and the bitmap fit together. -/
structure Mapped (s : Fs) (P : Nat → Prop) : Prop where
  lt : ∀ i, P i → i < inodesInTable
  /-- Nought stands for no block. -/
  zero : s.blkFree 0 = false
  used : ∀ i b, P i → s.blkFree (s.blockNo (s.inode i) b) = false
  ind : ∀ i, P i → s.blkFree (s.slot (s.inode i) 10) = false
  inj : ∀ i b j c, P i → P j → s.blockNo (s.inode i) b ≠ 0 →
    s.blockNo (s.inode i) b = s.blockNo (s.inode j) c → i = j ∧ b = c
  off : ∀ i b j, P i → P j → s.blockNo (s.inode i) b ≠ 0 →
    s.blockNo (s.inode i) b ≠ s.slot (s.inode j) 10

/-- It is a matter of the maps and of the free blocks. -/
theorem Mapped.congr {s s' : Fs} {P : Nat → Prop} (h : Mapped s P)
    (hno : ∀ i b, P i → s'.blockNo (s'.inode i) b = s.blockNo (s.inode i) b)
    (hten : ∀ i, P i → s'.slot (s'.inode i) 10 = s.slot (s.inode i) 10)
    (hfree : ∀ no, s'.blkFree no = s.blkFree no) : Mapped s' P := by
  refine ⟨h.lt, by rw [hfree]; exact h.zero, fun i b hi => ?_, fun i hi => ?_,
    fun i b j c hi hj => ?_, fun i b j hi hj => ?_⟩
  · rw [hno i b hi, hfree]
    exact h.used i b hi
  · rw [hten i hi, hfree]
    exact h.ind i hi
  · rw [hno i b hi, hno j c hj]
    exact h.inj i b j c hi hj
  · rw [hno i b hi, hten j hj]
    exact h.off i b j hi hj

/-- The `n` bytes `data`, written at `x` of inode `i`, went to block `d`: the map
names it there, and named it before or had no block there and took a free one. -/
structure Stored (s s' : Fs) (P : Nat → Prop) (i x n : Nat) (data : Nat → UInt8) (d : Nat) :
    Prop where
  pos : d ≠ 0
  table : s'.inoTable = s.inoTable
  there : s'.blockNo (s.inode i) (x / blkSize) = d
  others : ∀ j b, P j → ¬ (j = i ∧ b = x / blkSize) →
    s'.blockNo (s.inode j) b = s.blockNo (s.inode j) b
  ind : ∀ j, P j → s'.slot (s.inode j) 10 = s.slot (s.inode j) 10
  block : s.blockNo (s.inode i) (x / blkSize) = d ∧ (∀ no, s'.blkFree no = s.blkFree no) ∨
    s.blockNo (s.inode i) (x / blkSize) = 0 ∧ s.blkFree d = true ∧
      ∀ no, s'.blkFree no = (s.blkFree no && decide (no ≠ d))
  disk : ∀ y, s'.disk y =
    s.disk.overlay (blkSize * d + x % blkSize) n data y

namespace Stored

variable {s s' : Fs} {P : Nat → Prop} {i x n d : Nat} {data : Nat → UInt8}

theorem inode (h : Stored s s' P i x n data d) (j : Nat) : s'.inode j = s.inode j := by
  rw [Fs.inode, Fs.inode, h.table]

/-- What was taken stays taken. -/
theorem blkFree (h : Stored s s' P i x n data d) {no : Nat} (hno : s.blkFree no = false) :
    s'.blkFree no = false := by
  rcases h.block with ⟨-, hfree⟩ | ⟨-, -, hfree⟩
  · rw [hfree, hno]
  · rw [hfree, hno, Bool.false_and]

theorem blkFree_block (h : Stored s s' P i x n data d) (hm : Mapped s P) (hi : P i) :
    s'.blkFree d = false := by
  rcases h.block with ⟨hd, hfree⟩ | ⟨-, -, hfree⟩
  · rw [hfree, ← hd, hm.used i _ hi]
  · rw [hfree, decide_eq_false (fun hne => hne rfl), Bool.and_false]

/-- No other place names the block. -/
theorem apart (h : Stored s s' P i x n data d) (hm : Mapped s P) (hi : P i) {j b : Nat}
    (hj : P j) (hne : ¬ (j = i ∧ b = x / blkSize)) : d ≠ s.blockNo (s.inode j) b := by
  intro heq
  rcases h.block with ⟨hd, -⟩ | ⟨-, hfree, -⟩
  · obtain ⟨h1, h2⟩ := hm.inj i _ j b hi hj (by rw [hd]; exact h.pos) (hd.trans heq)
    exact hne ⟨h1.symm, h2.symm⟩
  · rw [heq, hm.used j b hj] at hfree
    cases hfree

/-- It holds the numbers of no other blocks. -/
theorem not_ind (h : Stored s s' P i x n data d) (hm : Mapped s P) (hi : P i) {j : Nat}
    (hj : P j) : d ≠ s.slot (s.inode j) 10 := by
  intro heq
  rcases h.block with ⟨hd, -⟩ | ⟨-, hfree, -⟩
  · exact hm.off i _ j hi hj (by rw [hd]; exact h.pos) (hd.trans heq)
  · rw [heq, hm.ind j hj] at hfree
    cases hfree

/-- The same bytes, given otherwise. -/
theorem data_congr {data' : Nat → UInt8} (h : Stored s s' P i x n data d)
    (hd : ∀ j, j < n → data' j = data j) : Stored s s' P i x n data' d := by
  refine ⟨h.pos, h.table, h.there, h.others, h.ind, h.block, fun y => ?_⟩
  rw [h.disk]
  by_cases hin : blkSize * d + x % blkSize ≤ y ∧ y < blkSize * d + x % blkSize + n
  · rw [Mem.overlay_in hin, Mem.overlay_in hin, hd _ (by omega)]
  · rw [Mem.overlay_out (by omega), Mem.overlay_out (by omega)]

/-- STEP: the maps fit together after the write. -/
theorem mapped (h : Stored s s' P i x n data d) (hm : Mapped s P) (hi : P i) : Mapped s' P := by
  have hother : ∀ j b, P j → s'.blockNo (s.inode j) b = d ∧ j = i ∧ b = x / blkSize ∨
      s'.blockNo (s.inode j) b = s.blockNo (s.inode j) b ∧ ¬ (j = i ∧ b = x / blkSize) := by
    intro j b hj
    by_cases heq : j = i ∧ b = x / blkSize
    · exact .inl ⟨by rw [heq.1, heq.2]; exact h.there, heq⟩
    · exact .inr ⟨h.others j b hj heq, heq⟩
  refine ⟨hm.lt, h.blkFree hm.zero, fun j b hj => ?_, fun j hj => ?_,
    fun j b k c hj hk hne heq => ?_, fun j b k hj hk hne => ?_⟩
  · rw [h.inode]
    rcases hother j b hj with ⟨hno, -⟩ | ⟨hno, -⟩
    · rw [hno]
      exact h.blkFree_block hm hi
    · rw [hno]
      exact h.blkFree (hm.used j b hj)
  · rw [h.inode, h.ind j hj]
    exact h.blkFree (hm.ind j hj)
  · rw [h.inode] at hne heq
    rw [h.inode] at heq
    rcases hother j b hj with ⟨hno, hji, hb⟩ | ⟨hno, hapart⟩
    · rcases hother k c hk with ⟨-, hki, hc⟩ | ⟨hno', hapart⟩
      · exact ⟨hji.trans hki.symm, hb.trans hc.symm⟩
      · rw [hno, hno'] at heq
        exact absurd heq (h.apart hm hi hk hapart)
    · rcases hother k c hk with ⟨hno', -⟩ | ⟨hno', -⟩
      · rw [hno, hno'] at heq
        exact absurd heq.symm (h.apart hm hi hj hapart)
      · rw [hno] at hne heq
        rw [hno'] at heq
        exact hm.inj j b k c hj hk hne heq
  · rw [h.inode] at hne ⊢
    rw [h.inode, h.ind k hk]
    rcases hother j b hj with ⟨hno, -⟩ | ⟨hno, -⟩
    · rw [hno]
      exact h.not_ind hm hi hk
    · rw [hno] at hne ⊢
      exact hm.off j b k hj hk hne

end Stored

/-- The disk and the two frames are as they were. -/
structure Still (s s' : Fs) (ft fb : Nat) : Prop where
  table : s'.inoTable = s.inoTable
  bitmap : s'.blkBitmap = s.blkBitmap
  disk : s'.disk = s.disk
  mem : ∀ x, x / pageSize = ft ∨ x / pageSize = fb → s'.mm.mem x = s.mm.mem x

namespace Still

variable {s s' : Fs} {ft fb j : Nat} {l : List Nat} {P : Nat → Prop}

theorem inode (h : Still s s' ft fb) (j : Nat) : s'.inode j = s.inode j := by
  rw [Fs.inode, Fs.inode, h.table]

theorem slot (h : Still s s' ft fb) (hs : Mounted s ft fb l) (hj : j < inodesInTable) {i : Nat}
    (hi : i ≤ 10) : s'.slot (s.inode j) i = s.slot (s.inode j) i :=
  hs.slot_congr hj hi fun x hx => h.mem x (.inl hx)

theorem blockNo (h : Still s s' ft fb) (hs : Mounted s ft fb l) (hj : j < inodesInTable)
    (b : Nat) : s'.blockNo (s.inode j) b = s.blockNo (s.inode j) b := by
  unfold Fs.blockNo Fs.indirect
  rw [h.disk, h.slot hs hj (Nat.le_refl 10)]
  by_cases hb : b < 10
  · rw [if_pos hb, if_pos hb, h.slot hs hj (Nat.le_of_lt hb)]
  · rw [if_neg hb, if_neg hb]

theorem blkFree (h : Still s s' ft fb) (hs : Mounted s ft fb l) (no : Nat) :
    s'.blkFree no = s.blkFree no :=
  hs.blkFree_congr h.bitmap (fun x hx => h.mem x (.inr hx)) no

/-- STEP: the maps fit together as before. -/
theorem mapped (h : Still s s' ft fb) (hs : Mounted s ft fb l) (hm : Mapped s P) :
    Mapped s' P :=
  hm.congr (fun j b hj => by rw [h.inode, h.blockNo hs (hm.lt j hj)])
    (fun j hj => by rw [h.inode, h.slot hs (hm.lt j hj) (Nat.le_refl 10)]) (h.blkFree hs)

end Still

/-! ## A call on one block -/

/-- `n` bytes at `x` are asked for, of a file open at `x` whose inode is `i`. -/
structure Asks (s : Fs) (i x n : Nat) (file : File) : Prop where
  inode : file.inode = s.inode i
  offset : file.offset = x
  lt : x / blkSize < 2058
  fits : x % blkSize + n ≤ blkSize

section OneBlock

variable {s s' : FileSt} {ft fb i x n d k buf : Nat} {l l' : List Nat} {P : Nat → Prop}
  {pa : Nat → Nat}

/-- A buffer that is apart from the two frames. -/
theorem Target.free {m : Mm} (h : Target m (ft :: fb :: l) buf n pa) : Target m l buf n pa := by
  have hrest := h.rest (c := 0) (k := n) (Nat.le_of_eq (Nat.zero_add n))
    (fun f hf => List.mem_cons_of_mem ft (List.mem_cons_of_mem fb hf)) rfl fun _ _ _ => rfl
  exact hrest

theorem Origin.free {m : Mm} (h : Origin m (ft :: fb :: l) buf n pa) : Origin m l buf n pa := by
  have hrest := h.rest (c := 0) (k := n) (Nat.le_of_eq (Nat.zero_add n))
    (fun f hf => List.mem_cons_of_mem ft (List.mem_cons_of_mem fb hf)) rfl fun _ _ => rfl
  exact hrest

/-- The inodes lie in the frame of the table. -/
theorem Mounted.inode_div {f : Fs} (h : Mounted f ft fb l) (hi : i < inodesInTable) {y : Nat}
    (h1 : f.inode i - kbase ≤ y) (h2 : y < f.inode i - kbase + inodeSize) : y / pageSize = ft := by
  have hsub : f.inode i - kbase = pageSize * ft + inodeSize * i := by
    rw [Fs.inode, h.table, frameVa]
    omega
  rw [hsub] at h1 h2
  unfold inodesInTable at hi
  unfold pageSize inodeSize at *
  omega

/-- Such a buffer is none of the inode. -/
theorem Mounted.clear {f : Fs} (h : Mounted f ft fb l) (hi : i < inodesInTable)
    (htarget : Target f.mm (ft :: fb :: l) buf n pa) : Clear (f.inode i) inodeSize pa n := by
  intro j hj
  have hout := htarget.out j hj
  rw [List.mem_cons, not_or] at hout
  by_contra hcon
  exact hout.1 (h.inode_div hi (by omega) (by omega))

/-- A call inside one block has one chunk. -/
theorem chunk_one (hfit : x % blkSize + n ≤ blkSize) : chunk x n = n := by
  unfold chunk
  omega

/-- Frames may be taken; the two that are in use stay. -/
theorem Mounted.next {f f' : Fs} (h : Mounted f ft fb l) (hl : FreeList f'.mm l')
    (hsub : ∀ g, g ∈ l' → g ∈ l) (hn : f'.mm.npages = f.mm.npages)
    (ht : f'.inoTable = f.inoTable) (hb : f'.blkBitmap = f.blkBitmap)
    (hst : f'.starved = false) : Mounted f' ft fb l' where
  free := hl
  npages := by rw [hn]; exact h.npages
  served := hst
  table := ht.trans h.table
  bitmap := hb.trans h.bitmap
  apart := h.apart
  table_lt := h.table_lt
  bitmap_lt := h.bitmap_lt
  table_out := fun hf => h.table_out (hsub _ hf)
  bitmap_out := fun hf => h.bitmap_out (hsub _ hf)

theorem Mounted.wrote {addr : Nat → Nat} {c : Nat} (h : Mounted s.fs ft fb l)
    (hw : Wrote s l s' l' k c pa addr) (hst : s'.starved = false) : Mounted s'.fs ft fb l' :=
  h.next hw.free hw.sub hw.npages (by rw [hw.rest]; rfl) (by rw [hw.rest]; rfl) hst

theorem Mounted.reads {c : Nat} {data : Nat → UInt8} (h : Mounted s.fs ft fb l)
    (hr : Reads s l s' l' c pa data) (hst : s'.starved = false) : Mounted s'.fs ft fb l' :=
  h.next hr.free hr.sub hr.npages (by rw [hr.rest]; rfl) (by rw [hr.rest]; rfl) hst

/-- What a write to the block `d` did, once the block has its place in the map. -/
theorem stored_of_wrote {f : Fs} (h : Mounted s.fs ft fb l)
    (hm : ∀ j, P j → j < inodesInTable) (hi : P i) (hpos : d ≠ 0)
    (hfit : x % blkSize + n ≤ blkSize)
    (hw : Wrote s l s' l' n n pa fun j => blkSize * d + (x % blkSize + j))
    (hd : ∀ j, P j → d ≠ s.fs.slot (s.fs.inode j) 10)
    (htable : s.fs.inoTable = f.inoTable) (hdisk : s.fs.disk = f.disk)
    (hmem : ∀ j, j < n → s.fs.mm.mem (pa j) = f.mm.mem (pa j))
    (hmap : ∀ j b, P j → s.fs.blockNo (s.fs.inode j) b =
      if j = i ∧ b = x / blkSize then d else f.blockNo (f.inode j) b)
    (hind : ∀ j, P j → s.fs.slot (s.fs.inode j) 10 = f.slot (f.inode j) 10)
    (hblock : f.blockNo (f.inode i) (x / blkSize) = d ∧
        (∀ no, s.fs.blkFree no = f.blkFree no) ∨
      f.blockNo (f.inode i) (x / blkSize) = 0 ∧ f.blkFree d = true ∧
        ∀ no, s.fs.blkFree no = (f.blkFree no && decide (no ≠ d))) :
    Stored f s'.fs P i x n (fun j => f.mm.mem (pa j)) d := by
  have hkept : ∀ j, P j → Kept l (s.fs.inode j) inodeSize := fun j hj => h.kept_inode (hm j hj)
  have hinode : ∀ j, f.inode j = s.fs.inode j := fun j => by rw [Fs.inode, Fs.inode, htable]
  have hsame : ∀ j b, P j → s'.fs.blockNo (f.inode j) b =
      if j = i ∧ b = x / blkSize then d else f.blockNo (f.inode j) b := fun j b hj => by
    have hno := hw.blockNo_off (hkept j hj) hfit b fun _ => hd j hj
    rw [hmap j b hj] at hno
    rw [← hno, hinode]
  have hfree : ∀ no, s'.fs.blkFree no = s.fs.blkFree no := fun no =>
    h.blkFree_congr (by rw [hw.rest]; rfl)
      (fun y hy => hw.mem y (by rw [hy]; exact h.bitmap_out)) no
  refine ⟨hpos, by rw [hw.rest]; exact htable, ?_, fun j b hj hne => ?_, fun j hj => ?_, ?_,
    fun y => ?_⟩
  · rw [hsame i _ hi, if_pos ⟨rfl, rfl⟩]
  · rw [hsame j b hj, if_neg hne]
  · rw [← hind j hj, hinode]
    exact hw.slot (hkept j hj) (Nat.le_refl 10)
  · rcases hblock with ⟨h1, h2⟩ | ⟨h1, h2, h3⟩
    · exact .inl ⟨h1, fun no => (hfree no).trans (h2 no)⟩
    · exact .inr ⟨h1, h2, fun no => (hfree no).trans (h3 no)⟩
  · by_cases hin : blkSize * d + x % blkSize ≤ y ∧ y < blkSize * d + x % blkSize + n
    · obtain ⟨j, rfl⟩ := Nat.exists_eq_add_of_le hin.1
      have hj : j < n := by omega
      rw [Mem.overlay_in hin, Nat.add_sub_cancel_left, ← hmem j hj, ← hw.bytes j hj, Nat.add_assoc]
    · rw [Mem.overlay_out (by omega), hw.disk y fun j hj => by omega, hdisk]

/-- A turn of `file_write` at an entry that names no block. -/
theorem fileWriteAt_gives {ptr stop pos : Nat} (t : Nat) (h : Mounted s.fs ft fb l)
    (hent : Entry s.fs l ptr 0) :
    (fileWriteAt n stop t pos buf (some ptr) s = .ok (-1) s ∧ ∀ no, s.fs.blkFree no = false) ∨
    ∃ no, s.fs.blkFree no = true ∧ fileWriteAt n stop t pos buf (some ptr) s =
      fileWriteStore n stop t pos buf (some ptr) ptr (FileSt.setFs (s.fs.given ptr no) s) := by
  have hload : fileFs (fsMm (load 2 ptr)) s = .ok 0 s := fileFs_ok hent.load
  unfold fileWriteAt
  rw [Act.deref_bind_apply, Act.bind_ok hload, if_pos rfl]
  rcases h.getBlk_run with ⟨hnone, hall⟩ | ⟨no, hfree, hget⟩
  · refine .inl ⟨?_, hall⟩
    rw [Act.bind_ok (fileFs_ok hnone), if_pos (by decide)]
    rfl
  · obtain ⟨f, hf⟩ : ∃ f, f = s.fs.taken no := ⟨_, rfl⟩
    have hstore : fsMm (store 2 ptr no) f = .ok () (s.fs.given ptr no) := by
      rw [Fs.given, ← hf]
      exact fsMm_ok (hent.kept.store (by decide) 2 no)
    have hneg : ¬ (no : Int) < 0 := by omega
    rw [← hf] at hget
    refine .inr ⟨no, hfree, ?_⟩
    rw [Act.bind_ok (fileFs_ok hget), if_neg hneg, Int.toNat_natCast,
      Act.bind_ok (fileFs_ok (s := FileSt.setFs f s) hstore)]
    rfl

/-- A write inside one block has one chunk: it goes to block `no`, and the call returns. -/
theorem fileWriteStore_one {ptr no : Nat} (t : Nat) (diskno : Option Nat)
    (hl : FreeList s.fs.mm l) (hnp : s.fs.mm.npages ≤ 2 ^ 19) (hent : Entry s.fs l ptr no)
    (hfit : x % blkSize + n ≤ blkSize) (hpos : x + n < 2 ^ 31) (horigin : Origin s.fs.mm l buf n pa)
    (hns : (fileWriteStore n (x + n) (t + 1) x buf diskno ptr s).state.starved = false) :
    ∃ s' l', Wrote s l s' l' n n pa (fun i => blkSize * no + (x % blkSize + i)) ∧
      s'.starved = false ∧ fileWriteStore n (x + n) (t + 1) x buf diskno ptr s = .ok n s' := by
  have hchunk := chunk_one hfit
  rcases fileWriteStore_run (t + 1) diskno hl hnp hent (by rw [hchunk] : n ≤ chunk x n) horigin
    hpos hns with ⟨hne, -⟩ | ⟨s', l', hw, hturn⟩
  · exact absurd hchunk.symm hne
  · have hend : fileWriteLoop n (x + n) (t + 1) (x + n : Nat) diskno (buf + n) s' = .ok n s' := by
      rw [fileWriteLoop_end n (x + n) t (x + n) _ diskno (Nat.lt_irrefl _) hpos,
        int32_nat (by omega)]
    rw [hturn, hchunk, hend] at hns
    rw [hchunk] at hw
    exact ⟨s', l', hw, hns, by rw [hturn, hchunk, hend]⟩

/-- A direct block that is not there: `walk_block` reads nothing, and `get_blk` gives it a
number if there is one. -/
theorem fileWrite_new (h : Mounted s.fs ft fb l) (hm : Mapped s.fs P) (hi : P i)
    (hinode : s.file.inode = s.fs.inode i) (hlow : x / blkSize < 10)
    (hno : s.fs.blockNo (s.fs.inode i) (x / blkSize) = 0) (hfit : x % blkSize + n ≤ blkSize)
    (hn : 0 < n) (hpos : x + n < 2 ^ 31) (horigin : Origin s.fs.mm (ft :: fb :: l) buf n pa)
    (t : Nat) (hns : (fileWriteLoop n (x + n) (t + 1 + 1) x none buf s).state.starved = false) :
    (fileWriteLoop n (x + n) (t + 1 + 1) x none buf s = .ok (-1) s ∧
      ∀ no, s.fs.blkFree no = false) ∨
    ∃ s' l' d, fileWriteLoop n (x + n) (t + 1 + 1) x none buf s = .ok n s' ∧
      Mounted s'.fs ft fb l' ∧ Stored s.fs s'.fs P i x n (fun j => s.fs.mm.mem (pa j)) d := by
  have hkept := h.kept_inode (hm.lt i hi)
  rw [fileWriteLoop_succ n (x + n) (t + 1) x buf none (by omega) (by omega), hinode] at hns ⊢
  obtain ⟨b, hbx⟩ : ∃ b, b = x / blkSize := ⟨_, rfl⟩
  rw [← hbx] at hno hlow hns ⊢
  have hb10 : b ≤ 10 := Nat.le_of_lt hlow
  have hwalk : fileFs (walkBlock (s.fs.inode i) b none 1) s =
      .ok (0, some (blockSlot (s.fs.inode i) b)) s := fileFs_ok (walkBlock_direct none 1 hlow)
  have hent : Entry s.fs l (blockSlot (s.fs.inode i) b) 0 := by
    rw [Fs.blockNo, if_pos hlow] at hno
    exact ⟨hkept.slot hb10, hno⟩
  rw [Act.bind_ok hwalk] at hns ⊢
  rcases fileWriteAt_gives (t + 1) h hent with hnone | ⟨no, hfree, hgives⟩
  · exact .inl hnone
  · refine .inr ?_
    obtain ⟨s₁, hs₁⟩ : ∃ s₁,
        s₁ = FileSt.setFs (s.fs.given (blockSlot (s.fs.inode i) b) no) s := ⟨_, rfl⟩
    have hlt : no < blkSize * 8 := by
      unfold Fs.blkFree at hfree
      exact of_decide_eq_true (Bool.and_eq_true_iff.mp hfree).1
    rw [← hs₁] at hgives
    rw [hgives] at hns ⊢
    have hmem₁ : ∀ y, y / pageSize ∉ ft :: fb :: l → s₁.fs.mm.mem y = s.fs.mm.mem y := by
      intro y hy
      rw [List.mem_cons, List.mem_cons, not_or, not_or] at hy
      rw [hs₁]
      exact h.given_mem (hm.lt i hi) hb10 hlt hy.2.1 hy.1
    have hm₁ : Mounted s₁.fs ft fb l := by
      rw [hs₁]
      exact h.given _
    have hent₁ : Entry s₁.fs l (blockSlot (s.fs.inode i) b) no := by
      refine ⟨hkept.slot hb10, ?_⟩
      have hslot := h.given_slot (b := b) (hm.lt i hi) hb10 hlt (hm.lt i hi) hb10
      rw [if_pos ⟨rfl, rfl⟩, Fs.slot] at hslot
      rw [hs₁]
      exact hslot
    have horigin₁ : Origin s₁.fs.mm l buf n pa :=
      horigin.rest (c := 0) (by omega)
        (fun f hf => List.mem_cons_of_mem _ (List.mem_cons_of_mem _ hf))
        (by rw [hs₁]; exact Fs.given_cr3 _ _ _) hmem₁
    obtain ⟨s', l', hw, hst, hrun⟩ :=
      fileWriteStore_one t _ hm₁.free hm₁.npages hent₁ hfit hpos horigin₁ hns
    rw [hrun]
    have hno0 : no ≠ 0 := fun hz => by
      rw [hz, hm.zero] at hfree
      cases hfree
    have hinode₁ : ∀ j, s₁.fs.inode j = s.fs.inode j := fun j => by
      rw [hs₁]
      exact Fs.given_inode _ _ _ j
    have hten : ∀ j, P j → s₁.fs.slot (s.fs.inode j) 10 = s.fs.slot (s.fs.inode j) 10 := by
      intro j hj
      have hslot := h.given_slot (b := b) (hm.lt i hi) hb10 hlt (hm.lt j hj) (Nat.le_refl 10)
      rw [if_neg fun heq => Nat.ne_of_lt hlow heq.2.symm] at hslot
      rw [hs₁]
      exact hslot
    have hstored := stored_of_wrote hm₁ hm.lt hi hno0 hfit hw
      (fun j hj heq => ?_) (f := s.fs) ?_ ?_ (fun j hj => hmem₁ _ (horigin.out j hj))
      (fun j c hj => ?_) (fun j hj => ?_) (.inr ⟨hbx ▸ hno, hfree, fun m => ?_⟩)
    · exact ⟨s', l', no, rfl, hm₁.wrote hw hst, hstored⟩
    · rw [hinode₁, hten j hj] at heq
      rw [heq, hm.ind j hj] at hfree
      cases hfree
    · rw [hs₁]
      exact Fs.given_inoTable _ _ _
    · rw [hs₁]
      exact Fs.given_disk _ _ _
    · rw [hinode₁, ← hbx, hs₁]
      exact h.given_blockNo (hm.lt i hi) hlow hlt (hm.lt j hj) c
    · rw [hinode₁, hten j hj]
    · rw [hs₁]
      exact h.given_blkFree (hm.lt i hi) hb10 m

/-- STEP: a write inside one block, which is direct or has a number, stores it, or no
block is free. -/
theorem fileWrite_block (h : Mounted s.fs ft fb l) (hm : Mapped s.fs P) (hi : P i)
    (hinode : s.file.inode = s.fs.inode i) (ho : s.file.offset = x) (hx : x / blkSize < 2058)
    (hfit : x % blkSize + n ≤ blkSize) (hn : 0 < n)
    (hb : x / blkSize < 10 ∨ s.fs.blockNo (s.fs.inode i) (x / blkSize) ≠ 0)
    (horigin : Origin s.fs.mm (ft :: fb :: l) buf n pa)
    (hns : (fileWrite buf n s).state.starved = false) :
    (fileWrite buf n s = .ok (-1) s ∧ ∀ no, s.fs.blkFree no = false) ∨
    ∃ s' l' d, fileWrite buf n s = .ok n s' ∧ Mounted s'.fs ft fb l' ∧
      Stored s.fs s'.fs P i x n (fun j => s.fs.mm.mem (pa j)) d := by
  have hpos : x + n < 2 ^ 31 := by
    unfold blkSize at *
    omega
  obtain ⟨t, ht⟩ : ∃ t, (2 : Nat) ^ 32 = t + 1 + 1 := ⟨2 ^ 32 - 2, by decide⟩
  have hrun : fileWrite buf n s = fileWriteLoop n (x + n) (t + 1 + 1) x none buf s := by
    unfold fileWrite
    rw [Act.gets_bind_apply, ho, ← Nat.cast_add, u32_nat (by omega), ht]
  rw [hrun] at hns ⊢
  by_cases hno : s.fs.blockNo (s.fs.inode i) (x / blkSize) = 0
  · exact fileWrite_new h hm hi hinode (hb.resolve_right fun hne => hne hno) hno hfit hn hpos
      horigin t hns
  · refine .inr ?_
    have hchunk := chunk_one hfit
    have hkept := h.kept_inode (hm.lt i hi)
    rcases fileWriteLoop_turn (t + 1) none h.free h.npages (hinode ▸ hkept)
      (by omega : x < x + n) hpos (by rw [hinode]; exact hno)
      (by rw [hchunk] : n ≤ chunk x n) horigin.free hns with ⟨hne, -⟩ | ⟨s', l', dn, hw, hturn⟩
    · exact absurd hchunk.symm hne
    · have hend : fileWriteLoop n (x + n) (t + 1) (x + n : Nat) dn (buf + n) s' = .ok n s' := by
        rw [fileWriteLoop_end n (x + n) t (x + n) _ dn (Nat.lt_irrefl _) hpos,
          int32_nat (by omega)]
      rw [hturn, hchunk, hend] at hns
      rw [hchunk, hinode] at hw
      rw [hturn, hchunk, hend]
      refine ⟨s', l', _, rfl, h.wrote hw hns, stored_of_wrote h hm.lt hi hno hfit hw
        (fun j hj => hm.off i _ j hi hj hno) rfl rfl (fun _ _ => rfl) (fun j b hj => ?_)
        (fun _ _ => rfl) (.inl ⟨rfl, fun _ => rfl⟩)⟩
      by_cases heq : j = i ∧ b = x / blkSize
      · rw [if_pos heq, heq.1, heq.2]
      · rw [if_neg heq]

/-- `file_read` inside one block, from the number of the block on. -/
theorem fileReadAt_one {ptr no : Nat} {r : Int} (t : Nat) (hl : FreeList s.fs.mm l)
    (hnp : s.fs.mm.npages ≤ 2 ^ 19) (ho : s.file.offset = x) (hx : x + n < 2 ^ 31)
    (hfit : x % blkSize + n ≤ blkSize)
    (htarget : Target s.fs.mm l buf n pa) (hload : fileFs (fsMm (load 2 ptr)) s = .ok no s)
    (hrun : fileReadAt n x (t + 1) 0 x buf (some ptr) s = .ok r s') (hns : s'.starved = false) :
    ∃ l' c data, c ≤ n ∧ Reads s l s' l' c pa data := by
  have hint : int32 s.file.offset = s.file.offset := by
    rw [ho, int32_nat (by omega)]
  by_cases hno : no = 0
  · unfold fileReadAt at hrun
    rw [Act.deref_bind_apply, Act.bind_ok hload, if_neg (not_not.mpr hno)] at hrun
    injection hrun with _ hs
    subst hs
    exact ⟨l, 0, fun _ => 0, Nat.zero_le n, Reads.refl hl hint _⟩
  · have hchunk := chunk_one hfit
    obtain ⟨s₁, l', hread, hturn⟩ := fileReadAt_run (t + 1) hl hnp hload hno
      (show 0 + n < 2 ^ 32 by omega) (by rw [hchunk]; exact htarget) (by rw [hrun]; exact hns)
    rw [hchunk] at hread hturn
    rw [hturn, fileReadLoop_end t x _ (by omega)] at hrun
    injection hrun with _ hs
    subst hs
    exact ⟨l', n, _, Nat.le_refl n, hread⟩

/-- STEP: a read inside one block changes its buffer and free frames. -/
theorem fileRead_block {r : Int} (h : Mounted s.fs ft fb l) (hino : i < inodesInTable)
    (hinode : s.file.inode = s.fs.inode i) (ho : s.file.offset = x) (hx : x / blkSize < 2058)
    (hfit : x % blkSize + n ≤ blkSize) (htarget : Target s.fs.mm l buf n pa)
    (hrun : fileRead buf n x s = .ok r s') (hns : s'.starved = false) :
    ∃ l' c data, c ≤ n ∧ Reads s l s' l' c pa data := by
  have hpos : x + n < 2 ^ 31 := by
    unfold blkSize at *
    omega
  have hint : int32 s.file.offset = s.file.offset := by
    rw [ho, int32_nat (by omega)]
  obtain ⟨t, ht⟩ : ∃ t, (2 : Nat) ^ 32 = t + 1 + 1 := ⟨2 ^ 32 - 2, by decide⟩
  unfold fileRead at hrun
  rw [ht] at hrun
  rcases Nat.eq_zero_or_pos n with rfl | hn
  · rw [fileReadLoop_end _ _ _ (Nat.lt_irrefl 0)] at hrun
    cases hrun
    exact ⟨l, 0, fun _ => 0, Nat.le_refl 0, Reads.refl h.free hint _⟩
  · by_cases hreach : s.fs.Reaches s.file.inode (x / blkSize)
    · obtain ⟨ptr, f, l₁, htook, hent, hturn⟩ := fileReadLoop_entry (o := x) (t + 1) none h.free
        h.npages (hinode ▸ h.kept_inode hino) hn (by omega) hreach (by rw [hrun]; exact hns)
      rw [hturn] at hrun
      have htarget₁ : Target f.mm l₁ buf n pa :=
        htarget.rest (c := 0) (by omega) htook.sub htook.cr3 fun x hx _ => htook.mem x hx
      obtain ⟨l', c, data, hc, hread⟩ := fileReadAt_one (s := FileSt.setFs f s) t htook.free
        (by show f.mm.npages ≤ _; rw [htook.npages]; exact h.npages) ho hpos hfit htarget₁
        (fileFs_ok hent.load) hrun hns
      exact ⟨l', c, data, hc, Reads.after htook hread⟩
    · -- `walk_block` hands out the null pointer: the number is what is loaded there.
      have hlow : ¬ x / blkSize < 10 := fun hlow => hreach (.inl hlow)
      have h10 : s.fs.slot (s.fs.inode i) 10 = 0 := by
        by_contra h10
        exact hreach (.inr ⟨hx, by rw [hinode]; exact h10⟩)
      have hwalk : fileFs (walkBlock (s.fs.inode i) (x / blkSize) none 0) s =
          .ok (-1, some 0) s := fileFs_ok (walkBlock_none none hlow hx (h.kept_inode hino) h10)
      have hself : fileReadLoop n x (t + 1 + 1) 0 none buf s =
          fileReadAt n x (t + 1) 0 x buf (some 0) s := by
        rw [fileReadLoop_succ (o := x) (t + 1) none hn (by omega), hinode, Nat.add_zero,
          Act.bind_ok hwalk]
      rw [hself] at hrun
      cases hkpa : s.fs.mm.kpa 0 with
      | none =>
        have hnull : load 2 0 s.fs.mm = .fault s.fs.mm := by
          unfold load
          rw [hkpa]
        have hload : fileFs (fsMm (load 2 0)) s = .fault s :=
          Act.zoom_fault (Act.zoom_fault hnull)
        unfold fileReadAt at hrun
        rw [Act.deref_bind_apply, Act.bind_fault hload] at hrun
        cases hrun
      | some pa₀ =>
        exact fileReadAt_one t h.free h.npages ho hpos hfit htarget
          (fileFs_ok (fsMm_ok (load_ok hkpa))) hrun hns

/-- Frames that are taken are none of the two. -/
theorem Took.still {f f' : Fs} (hs : Mounted f ft fb l) (h : Took f l f' l') : Still f f' ft fb where
  table := h.inoTable
  bitmap := h.blkBitmap
  disk := h.disk
  mem x hx := h.mem x fun hxl => by
    rcases hx with hx | hx
    · exact hs.table_out (hx ▸ hxl)
    · exact hs.bitmap_out (hx ▸ hxl)

/-- A read to bytes outside the two frames leaves them as they are. -/
theorem Reads.still {c : Nat} {data : Nat → UInt8} (hs : Mounted s.fs ft fb l)
    (h : Reads s l s' l' c pa data) (hc : c ≤ n) (htarget : Target s.fs.mm (ft :: fb :: l) buf n pa) :
    Still s.fs s'.fs ft fb := by
  have hrest : s'.fs.inoTable = s.fs.inoTable ∧ s'.fs.blkBitmap = s.fs.blkBitmap ∧
      s'.fs.disk = s.fs.disk := by
    rw [h.rest]
    exact ⟨rfl, rfl, rfl⟩
  refine ⟨hrest.1, hrest.2.1, hrest.2.2, fun x hx => h.mem x (fun hxl => ?_) fun i hi hxi => ?_⟩
  · rcases hx with hx | hx
    · exact hs.table_out (hx ▸ hxl)
    · exact hs.bitmap_out (hx ▸ hxl)
  · have hout := htarget.out i (by omega)
    rw [← hxi, List.mem_cons, List.mem_cons, not_or, not_or] at hout
    rcases hx with hx | hx
    · exact hout.1 hx
    · exact hout.2.1 hx

/-- With frames for it, a read inside one block finds them. -/
theorem Mounted.fileRead_serves (h : Mounted s.fs ft fb l) (buf : Nat) (hx : x / blkSize < 2058)
    (hfit : x % blkSize + n ≤ blkSize) (hf : framesFor (x / blkSize) ≤ l.length) :
    (fileRead buf n x s).state.starved = false := by
  obtain ⟨t, ht⟩ : ∃ t, (2 : Nat) ^ 32 = t + 1 := ⟨2 ^ 32 - 1, by decide⟩
  unfold fileRead
  rw [ht]
  rcases Nat.eq_zero_or_pos n with rfl | hn
  · rw [fileReadLoop_end _ _ _ (Nat.lt_irrefl 0)]
    exact h.served
  · have hpos : x + n < 2 ^ 31 := by
      unfold blkSize at *
      omega
    have hspends : Spends (fun s : FileSt => s.fs.mm) (framesFor (x / blkSize))
        (fileFs (walkBlock s.file.inode (x / blkSize) none 0) >>= fun r =>
          fileReadAt n x t 0 x buf r.2) := by
      rw [framesFor_split]
      refine Spends.bind (Spends.fileFs (walkBlock_spends _ _ none 0)) fun r => fileReadAt_spends ?_
      rw [chunk_one hfit]
      exact fileReadLoop_end_spends t x r.2 (by omega)
    rw [fileReadLoop_succ (o := x) t none hn (by omega)]
    exact (hspends s l h.free h.npages hf h.served).1

/-- A read inside one block that has a number returns its bytes. -/
theorem Mounted.fileRead_one {f : Fs} {file : File} (h : Mounted f ft fb l)
    (hi : i < inodesInTable) (hask : Asks f i x n file)
    (hno : f.blockNo (f.inode i) (x / blkSize) ≠ 0) (hf : framesFor (x / blkSize) ≤ l.length)
    (htarget : Target f.mm (ft :: fb :: l) buf n pa) :
    ∃ s', fileRead buf n x ⟨f, file⟩ = .ok n s' ∧
      ∀ j, j < n → s'.fs.mm.mem (pa j) = f.fileByte (f.inode i) (x + j) := by
  have hx := hask.lt
  have hlt : x + n < 2 ^ 30 := by
    have hfits := hask.fits
    unfold blkSize at *
    omega
  have hone : ∀ j, j < n → (x + j) / blkSize = x / blkSize := fun j hj =>
    (chunk_block (by rw [chunk_one hask.fits]; exact hj : j < chunk x n)).1
  have hns := h.fileRead_serves (s := ⟨f, file⟩) buf hx hask.fits hf
  obtain ⟨s', l', hrun, hread⟩ := fileReadLoop_run (s := ⟨f, file⟩) (2 ^ 32) none h.free h.npages
    (by rw [hask.inode]; exact h.kept_inode hi) (Nat.zero_le n) (by omega) hlt
    (.inr (.inl ⟨rfl, Nat.le_sub_of_add_le' hask.fits⟩))
    (fun j _ hj => by rw [hone j hj, hask.inode]; exact hno)
    (by rw [hask.offset, int32_nat (by omega)]) htarget.free
    (by rw [hask.inode]; exact h.clear hi htarget) hns
  refine ⟨s', hrun, fun j hj => ?_⟩
  rw [hread.bytes j hj, FileSt.bytesFrom, hask.inode, Nat.add_zero]

/-- With frames for it, a write inside one block finds them, and takes no more. -/
theorem Mounted.fileWrite_serves (h : Mounted s.fs ft fb l) (buf : Nat)
    (ho : s.file.offset = x) (hx : x / blkSize < 2058) (hfit : x % blkSize + n ≤ blkSize)
    (hf : framesFor (x / blkSize) ≤ l.length) :
    (fileWrite buf n s).state.starved = false ∧
      ∃ l', FreeList (fileWrite buf n s).state.fs.mm l' ∧
        l.length ≤ l'.length + framesFor (x / blkSize) := by
  have hpos : x + n < 2 ^ 31 := by
    unfold blkSize at *
    omega
  obtain ⟨t, ht⟩ : ∃ t, (2 : Nat) ^ 32 = t + 1 := ⟨2 ^ 32 - 1, by decide⟩
  unfold fileWrite
  rw [Act.gets_bind_apply, ho, ← Nat.cast_add, u32_nat (by omega), ht]
  rcases Nat.eq_zero_or_pos n with rfl | hn
  · rw [fileWriteLoop_end _ _ _ _ _ _ (by omega : ¬ x < x + 0) (by omega)]
    exact ⟨h.served, l, h.free, Nat.le_add_right _ _⟩
  · have hspends : Spends (fun s : FileSt => s.fs.mm) (framesFor (x / blkSize))
        (fileFs (walkBlock s.file.inode (x / blkSize) none 1) >>= fun r =>
          fileWriteAt n (x + n) t x buf r.2) := by
      rw [framesFor_split]
      refine Spends.bind (Spends.fileFs (walkBlock_spends _ _ none 1)) fun r =>
        fileWriteAt_spends ?_
      rw [chunk_one hfit, ← Nat.cast_add, int32_nat (by omega)]
      exact fileWriteLoop_end_spends t r.2 (Nat.lt_irrefl _) hpos
    rw [fileWriteLoop_succ n (x + n) t x buf none (by omega) (by omega)]
    have hall := hspends s l h.free h.npages hf h.served
    exact ⟨hall.1, hall.2.2⟩

end OneBlock

end Myos.Kernel
