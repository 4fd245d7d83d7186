import Myos.Kernel.State
import Myos.Kernel.Page

/-!
# The file system

`kernel/ide.c`, `kernel/fs.c` and `lib.c`'s `strcmp`: blocks between disk and
memory, the bitmaps, the map of an inode's blocks, and the search of the root
directory. The inode table and the block bitmap are blocks in memory that
`read_superblock` read once; every other block is read anew, into a fresh
frame, by `bread`.

A pointer an out parameter was not set to (`diskno` before the first call) is
`none`; following it stops the code. A null pointer is the address nought, and
what is there is up to the tables of the running process.
-/

namespace Myos.Kernel

open Myos.Lib

def blkSize : Nat := 4096
def rootInode : Nat := 0
def bitLength : Nat := 32

/-! ## Layout of the records -/

/-- `sizeof(struct inode_t)`, and the offsets of `di_size` and `block`. -/
def inodeSize : Nat := 32
def diSizeOff : Nat := 0
def blockOff : Nat := 10

/-- `sizeof(struct direct_t)`, and the offsets of `ino` and `name`. -/
def directSize : Nat := 16
def inoOff : Nat := 0
def nameOff : Nat := 2

/-! ## Memory from the file system -/

namespace Fs

def setMm (m : Mm) (s : Fs) : Fs := { s with mm := m }
def setDisk (s : Fs) (d : Mem) : Fs := { s with disk := d }

@[simp] theorem setMm_mm (m : Mm) (s : Fs) : (setMm m s).mm = m := rfl
@[simp] theorem setMm_disk (m : Mm) (s : Fs) : (setMm m s).disk = s.disk := rfl
@[simp] theorem setMm_blkBitmap (m : Mm) (s : Fs) : (setMm m s).blkBitmap = s.blkBitmap := rfl
@[simp] theorem setMm_inoTable (m : Mm) (s : Fs) : (setMm m s).inoTable = s.inoTable := rfl
@[simp] theorem setMm_setMm (m m' : Mm) (s : Fs) : setMm m' (setMm m s) = setMm m' s := rfl
@[simp] theorem setMm_self (s : Fs) : setMm s.mm s = s := rfl
@[simp] theorem setDisk_mm (s : Fs) (d : Mem) : (s.setDisk d).mm = s.mm := rfl
@[simp] theorem setDisk_disk (s : Fs) (d : Mem) : (s.setDisk d).disk = d := rfl
@[simp] theorem setDisk_blkBitmap (s : Fs) (d : Mem) : (s.setDisk d).blkBitmap = s.blkBitmap := rfl
@[simp] theorem setDisk_inoTable (s : Fs) (d : Mem) : (s.setDisk d).inoTable = s.inoTable := rfl

end Fs

/-- Code of `mm.c` and its like, run in the file system. -/
def fsMm {α : Type} (x : Act Mm α) : Act Fs α := Act.zoom Fs.mm Fs.setMm x

theorem fsMm_ok {α : Type} {x : Act Mm α} {s : Fs} {a : α} {m : Mm} (h : x s.mm = .ok a m) :
    fsMm x s = .ok a (Fs.setMm m s) := Act.zoom_ok h

/-! ## The disk -/

/-- The bytes of the disk from `pos` on, to `dest`. -/
def diskIn (dest pos : Nat) : Nat → Act Fs Unit
  | 0 => return ()
  | n + 1 => do
    let b ← Act.gets fun s => s.disk pos
    fsMm (store 1 dest b.toNat)
    diskIn (dest + 1) (pos + 1) n

/-- The bytes at `src`, to the disk from `pos` on. -/
def diskOut (src pos : Nat) : Nat → Act Fs Unit
  | 0 => return ()
  | n + 1 => do
    let b ← fsMm (load 1 src)
    Act.modify fun s => s.setDisk (Function.update s.disk pos (UInt8.ofNat b))
    diskOut (src + 1) (pos + 1) n

/-- `readblk`: `count` sectors of 512 bytes. -/
def readblk (dest lba count : Nat) : Act Fs Unit := diskIn dest (512 * lba) (512 * count)

/-- `writeblk`. -/
def writeblk (buf lba count : Nat) : Act Fs Unit := diskOut buf (512 * lba) (512 * count)

/-- `bread`: a block, in a fresh frame. -/
def bread (block : Nat) : Act Fs Nat := do
  let pp ← fsMm (allocPage 0)
  let buf ← Act.gets fun s => s.mm.page2va pp
  readblk buf (8 * block) 8
  return buf

/-! ## The bitmaps -/

/-- `is_blkempty`: not nought if the bit is set. -/
def isBlkempty (bitmap no : Nat) : Act Mm Nat := do
  let w ← load 4 (bitmap + 4 * (no / bitLength))
  return w &&& (1 <<< (no % bitLength))

/-- `set_bitmap`: the bit is cleared. -/
def setBitmap (bitmap no : Nat) : Act Mm Unit := do
  let w ← load 4 (bitmap + 4 * (no / bitLength))
  store 4 (bitmap + 4 * (no / bitLength)) (w &&& (2 ^ 32 - 1 - 1 <<< (no % bitLength)))

/-- The loop of `get_free_no`, from `blkno` on. -/
def getFreeNoLoop (bitmap : Nat) : Nat → Nat → Act Mm Int
  | 0, _ => return -1
  | n + 1, blkno => do
    if (← isBlkempty bitmap blkno) ≠ 0 then return blkno
    else getFreeNoLoop bitmap n (blkno + 1)

/-- `get_free_no`. -/
def getFreeNo (bitmap : Nat) : Act Mm Int := getFreeNoLoop bitmap (blkSize * 8) 0

/-- `get_blk`. -/
def getBlk : Act Fs Int := do
  let bitmap ← Act.gets Fs.blkBitmap
  let bno ← fsMm (getFreeNo bitmap)
  if bno < 0 then return -1
  else do
    fsMm (setBitmap bitmap bno.toNat)
    return bno

/-! ## Mounting -/

/-- `read_superblock`. What it does for each of the four blocks is the body of `bread`. -/
def readSuperblock : Act Fs Unit := do
  let sb ← bread 1
  Act.modify fun s => { s with sb := sb }
  let blkBitmap ← bread 2
  Act.modify fun s => { s with blkBitmap := blkBitmap }
  let inoBitmap ← bread 3
  Act.modify fun s => { s with inoBitmap := inoBitmap }
  let inoTable ← bread 4
  Act.modify fun s => { s with inoTable := inoTable }

/-! ## The blocks of an inode -/

/-- `&p->block[i]`. -/
def blockSlot (p i : Nat) : Nat := p + blockOff + 2 * i

/-- `walk_block`: the return value, and what `*diskno` is afterwards. -/
def walkBlock (p fileno : Nat) (diskno : Option Nat) (alloc : Nat) : Act Fs (Int × Option Nat) :=
  if fileno < 10 then return (0, some (blockSlot p fileno))
  else if fileno < 1024 * 2 + 10 then do
    let slot := blockSlot p ((fileno - 10) / 2048 + 10)
    let below : Act Fs (Int × Option Nat) := do
      let blk ← bread (← fsMm (load 2 slot))
      return (0, some (blk + 2 * ((fileno - 10) % 2048)))
    if (← fsMm (load 2 slot)) = 0 then
      if alloc = 1 then do
        let bitmap ← Act.gets Fs.blkBitmap
        let bno ← fsMm (getFreeNo bitmap)
        if bno < 0 then return (-1, diskno)
        else do
          fsMm (store 2 slot bno.toNat)
          fsMm (setBitmap bitmap bno.toNat)
          below
      else return (-1, some 0)
    else below
  else return (0, diskno)

/-! ## The root directory -/

/-- `strcmp` (`lib.c`). The loop ends where the strings differ or both end. -/
def strcmpLoop : Nat → Nat → Nat → Act Mm Int
  | 0, _, _ => Act.stop
  | n + 1, s1, s2 => do
    let a ← load 1 s1
    let b ← load 1 s2
    if a ≠ 0 ∨ b ≠ 0 then
      if a = b then strcmpLoop n (s1 + 1) (s2 + 1) else return 1
    else return 0

def strcmp (s1 s2 : Nat) : Act Mm Int := strcmpLoop (2 ^ 64) s1 s2

/-- The inner loop of `walk_path`, for `n` entries from `pdir` on: the inode of
the entry with the name. -/
def walkEntries (fname : Nat) : Nat → Nat → Act Fs (Option Nat)
  | 0, _ => return none
  | n + 1, pdir => do
    if (← fsMm (strcmp (pdir + nameOff) fname)) = 0 then do
      let ino ← fsMm (load 2 (pdir + inoOff))
      let table ← Act.gets Fs.inoTable
      return some (table + inodeSize * ino)
    else walkEntries fname n (pdir + directSize)

/-- The loop of `walk_path` over the blocks of the directory; `j` counts on
from block to block. -/
def walkPathLoop (p fname : Nat) : Nat → Nat → Nat → Option Nat → Act Fs (Int × Option Nat)
  | 0, _, _, _ => return (-1, none)
  | n + 1, i, j, diskno => do
    let (r, diskno) ← walkBlock p i diskno 0
    if r < 0 then return (-2, none)
    else do
      let ptr ← Act.deref diskno
      let no ← fsMm (load 2 ptr)
      if no ≠ 0 then do
        let pdir ← bread no
        match ← walkEntries fname (blkSize / directSize - j) pdir with
        | some inode => return (0, some inode)
        | none => walkPathLoop p fname n (i + 1) (max j (blkSize / directSize)) diskno
      else walkPathLoop p fname n (i + 1) j diskno

/-- `walk_path`: the return value, and the inode if it was found. -/
def walkPath (fname : Nat) : Act Fs (Int × Option Nat) := do
  let table ← Act.gets Fs.inoTable
  let p := table + inodeSize * rootInode
  let size ← fsMm (load 4 (p + diSizeOff))
  walkPathLoop p fname (size / blkSize) 0 0 none

end Myos.Kernel
