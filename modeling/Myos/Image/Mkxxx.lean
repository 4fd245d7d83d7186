import Myos.Kernel.Fs

/-!
# The image builder

`scripts/mkxxx.c`, which makes the image the kernel mounts: it formats the image
and stores a file in it. The records are those of `kern/fs.h`, field for field.

The image is mapped into memory, so the state is its bytes, and a pointer into it
is an offset from `img_addr`; an access beyond the `IMGSIZE` bytes of the mapping
stops the program. A pointer that is null, or that an out parameter was not set to,
is `none`. The name of a file is its characters, without the nought that ends it.
What the program prints is left out.

A loop that may not end has a number of turns to go, and the program that has used
them up has not returned; what returns does so for any greater number too.
-/

namespace Myos.Image

open Myos.Lib
open Myos.Kernel (blkSize rootInode bitLength inodeSize diSizeOff blockOff blockSlot directSize
  inoOff nameOff)

/-- `IMGSIZE` and `INOSIZE`. -/
def imgSize : Nat := 8 * 4096 * 4906
def inoSize : Nat := 10 * 4096

/-- `blk_bitmap`, `ino_bitmap` and `ino_table`, as `main` sets them. -/
def blkBitmap : Nat := blkSize * 2
def inoBitmap : Nat := blkSize * 3
def inoTable : Nat := blkSize * 4

/-- The offset of `di_type`. -/
def diTypeOff : Nat := 6

/-- `&ino_table[ino]`. -/
def inode (ino : Nat) : Nat := inoTable + inodeSize * ino

/-! ## The mapping -/

/-- Load an `n`-byte word. -/
def load (n a : Nat) : Act Mem Nat := fun m =>
  if a + n ≤ imgSize then .ok (Mem.rd n m a) m else .fault m

/-- Store an `n`-byte word. -/
def store (n a v : Nat) : Act Mem Unit := fun m =>
  if a + n ≤ imgSize then .ok () (Mem.wr n m a v) else .fault m

/-- `memcpy` to the image, of the first `n` bytes of `f`. -/
def copyIn (a n : Nat) (f : Mem) : Act Mem Unit := fun m =>
  if a + n ≤ imgSize then .ok () (m.overlay a n f) else .fault m

/-! ## The bitmaps -/

/-- `is_blkempty`: not nought if the bit is set. -/
def isBlkempty (bitmap no : Nat) : Act Mem Nat := do
  let w ← load 4 (bitmap + 4 * (no / bitLength))
  return w &&& (1 <<< (no % bitLength))

/-- `set_bitmap`: the bit is cleared. -/
def setBitmap (bitmap no : Nat) : Act Mem Unit := do
  let w ← load 4 (bitmap + 4 * (no / bitLength))
  store 4 (bitmap + 4 * (no / bitLength)) (w &&& (2 ^ 32 - 1 - 1 <<< (no % bitLength)))

/-- The loop of `get_free_no`, from `blkno` on. -/
def getFreeNoLoop (bitmap : Nat) : Nat → Nat → Act Mem Int
  | 0, _ => return -1
  | n + 1, blkno => do
    if (← isBlkempty bitmap blkno) ≠ 0 then return blkno
    else getFreeNoLoop bitmap n (blkno + 1)

/-- `get_free_no`. -/
def getFreeNo (bitmap : Nat) : Act Mem Int := getFreeNoLoop bitmap (blkSize * 8) 0

/-! ## The blocks of an inode -/

/-- `walk_block`: the return value, and what `*diskno` is afterwards. -/
def walkBlock (p fileno : Nat) (diskno : Option Nat) (alloc : Nat) : Act Mem (Int × Option Nat) :=
  if fileno < 10 then return (0, some (blockSlot p fileno))
  else if fileno < 1024 * 2 + 10 then do
    let slot := blockSlot p ((fileno - 10) / 2048 + 10)
    let below : Act Mem (Int × Option Nat) := do
      let blk := blkSize * (← load 2 slot)
      return (0, some (blk + 2 * ((fileno - 10) % 2048)))
    if (← load 2 slot) = 0 then
      if alloc = 1 then do
        let bno ← getFreeNo blkBitmap
        if bno < 0 then return (-1, diskno)
        else do
          store 2 slot bno.toNat
          setBitmap blkBitmap bno.toNat
          below
      else return (-1, none)
    else below
  else return (0, diskno)

/-! ## The root directory -/

/-- `strcmp` of a name in the image and one of the caller: whether they are equal. -/
def strcmp : Nat → List UInt8 → Act Mem Bool
  | a, [] => do
    let b ← load 1 a
    return b = 0
  | a, c :: cs => do
    let b ← load 1 a
    if b = c.toNat then strcmp (a + 1) cs else return false

/-- The inner loop of `walk_path`, for `n` entries from `pdir` on: whether one has
the name. -/
def walkEntries (fname : List UInt8) : Nat → Nat → Act Mem Bool
  | 0, _ => return false
  | n + 1, pdir => do
    if ← strcmp (pdir + nameOff) fname then return true
    else walkEntries fname n (pdir + directSize)

/-- The loop of `walk_path` over the blocks of the directory; `j` counts on from
block to block. -/
def walkPathLoop (p : Nat) (fname : List UInt8) : Nat → Nat → Nat → Option Nat → Act Mem Int
  | 0, _, _, _ => return -1
  | n + 1, i, j, diskno => do
    let (r, diskno) ← walkBlock p i diskno 0
    if r < 0 then return -2
    else do
      let ptr ← Act.deref diskno
      let no ← load 2 ptr
      if no ≠ 0 then do
        if ← walkEntries fname (blkSize / directSize - j) (blkSize * no) then return 0
        else walkPathLoop p fname n (i + 1) (max j (blkSize / directSize)) diskno
      else walkPathLoop p fname n (i + 1) j diskno

/-- `walk_path`. -/
def walkPath (fname : List UInt8) : Act Mem Int := do
  let p := inode rootInode
  let size ← load 4 (p + diSizeOff)
  walkPathLoop p fname (size / blkSize) 0 0 none

/-- The inner loop of `alloc_file`, for `n` entries from `pdir` on: one without a
name. -/
def allocEntries : Nat → Nat → Act Mem (Option Nat)
  | 0, _ => return none
  | n + 1, pdir => do
    if (← load 1 (pdir + nameOff)) = 0 then return some pdir
    else allocEntries n (pdir + directSize)

/-- What the loop of `alloc_file` comes to: the call returns, or goes on with the
pointer of the last turn. -/
inductive Sought where
  | done (r : Int) (dir : Option Nat)
  | on (diskno : Option Nat)

/-- The loop of `alloc_file` over the blocks of the directory; `j` counts on from
block to block. -/
def allocLoop (p : Nat) : Nat → Nat → Nat → Option Nat → Act Mem Sought
  | 0, _, _, diskno => return .on diskno
  | n + 1, i, j, diskno => do
    let (r, diskno) ← walkBlock p i diskno 1
    if r < 0 then return .done (-2) none
    else do
      let ptr ← Act.deref diskno
      let no ← load 2 ptr
      if no ≠ 0 then do
        match ← allocEntries (blkSize / directSize - j) (blkSize * no) with
        | some pdir => return .done 0 (some pdir)
        | none => allocLoop p n (i + 1) (max j (blkSize / directSize)) diskno
      else allocLoop p n (i + 1) j diskno

/-- The rest of `alloc_file`: a block more for the directory. -/
def appendBlock (p fileno : Nat) (diskno : Option Nat) : Act Mem (Int × Option Nat) := do
  let (r, diskno) ← walkBlock p fileno diskno 1
  if r < 0 then return (-2, none)
  else do
    let bno ← getFreeNo blkBitmap
    if bno < 0 then return (-1, none)
    else do
      let size ← load 4 (p + diSizeOff)
      store 4 (p + diSizeOff) (size + blkSize)
      let ptr ← Act.deref diskno
      store 2 ptr bno.toNat
      setBitmap blkBitmap bno.toNat
      return (0, some (blkSize * bno.toNat))

/-- `alloc_file`: the return value, and the entry. The assertion is one that is
compiled in. -/
def allocFile : Act Mem (Int × Option Nat) := do
  let p := inode rootInode
  let size ← load 4 (p + diSizeOff)
  if size % blkSize ≠ 0 then Act.stop
  else do
    match ← allocLoop p (size / blkSize) 0 0 none with
    | .done r dir => return (r, dir)
    | .on diskno => appendBlock p (size / blkSize) diskno

/-! ## Files -/

/-- What `read` hands out of a file before it first returns nought or less: between
one and 4096 bytes at a time. -/
structure Reads where
  chunks : List (List UInt8)
  nonempty : ∀ c ∈ chunks, c ≠ []
  fits : ∀ c ∈ chunks, c.length ≤ blkSize

/-- The bytes of the file. -/
def Reads.bytes (file : Reads) : List UInt8 := file.chunks.flatten

/-- The inner loop of `write_file`, from `i` on, with the pointer `p` at byte `pos` of
the buffer: the return value if the call returns, and the pointer to the slot. A copy
of fewer than nought bytes stops the program. -/
def writeLoop (pino : Nat) (buf : List UInt8) (offset : Nat) :
    Nat → Nat → Nat → Option Nat → Act Mem (Int × Option Nat)
  | 0, _, _, _ => Act.stop
  | t + 1, i, pos, diskno =>
    if i < buf.length + offset then do
      let bn : Int := if (blkSize : Int) - i < buf.length - i then blkSize - i else buf.length - i
      let size ← load 4 (pino + diSizeOff)
      let (r, diskno) ← walkBlock pino (size / blkSize) diskno 1
      if r < 0 then return (-1, diskno)
      else do
        let ptr ← Act.deref diskno
        let copy (bno : Nat) : Act Mem (Int × Option Nat) :=
          if bn < 0 then Act.stop
          else do
            copyIn (bno * blkSize + i % blkSize) bn.toNat fun k => buf.getD (pos + k) 0
            let size ← load 4 (pino + diSizeOff)
            store 4 (pino + diSizeOff) (size + bn.toNat)
            writeLoop pino buf offset t (i + bn.toNat) (pos + bn.toNat) diskno
        let no ← load 2 ptr
        if no = 0 then do
          let bno ← getFreeNo blkBitmap
          if bno < 0 then return (-1, diskno)
          else do
            store 2 ptr bno.toNat
            setBitmap blkBitmap bno.toNat
            copy bno.toNat
        else copy no
    else return (0, diskno)

/-- The outer loop of `write_file`, over what `read` hands out. -/
def writeChunks (turns pino : Nat) : List (List UInt8) → Option Nat → Act Mem Int
  | [], _ => return 0
  | buf :: rest, diskno => do
    let size ← load 4 (pino + diSizeOff)
    let offset := size % blkSize
    let (r, diskno) ← writeLoop pino buf offset turns offset 0 diskno
    if r < 0 then return -1
    else writeChunks turns pino rest diskno

/-- `write_file`, for a file that cannot be opened or is read so. -/
def writeFile (turns : Nat) (file : Option Reads) (pino : Nat) : Act Mem Int :=
  match file with
  | none => return -1
  | some file => writeChunks turns pino file.chunks none

/-- `create_file_image`; it does not look at what `write_file` returns. -/
def createFileImage (turns : Nat) (name : List UInt8) (file : Option Reads) : Act Mem Int := do
  let r ← walkPath name
  if r ≠ -1 then return -1
  else do
    let (r, pdir) ← allocFile
    if r < 0 then return -1
    else do
      let ino ← getFreeNo inoBitmap
      if ino < 0 then return -1
      else do
        setBitmap inoBitmap ino.toNat
        let pinode := inode ino.toNat
        store 4 (pinode + diSizeOff) 0
        store 2 (pinode + diTypeOff) 0
        let pdir ← Act.deref pdir
        store 2 (pdir + inoOff) ino.toNat
        copyIn (pdir + nameOff) 14 fun i => name.getD i 0
        let _ ← writeFile turns file pinode
        return 0

/-! ## The program -/

/-- The super block. -/
def superBlock : Mem :=
  let m : Mem := fun _ => 0
  let m := Mem.wr 4 m 0 (inoSize / inodeSize)
  let m := Mem.wr 4 m 4 (imgSize / blkSize)
  let m := Mem.wr 4 m 8 (inoSize / inodeSize)
  let m := Mem.wr 4 m 12 (imgSize / blkSize)
  let m := Mem.wr 4 m 16 blkSize
  let m := Mem.wr 2 m 20 rootInode
  let m := Mem.wr 1 m 22 88
  let m := Mem.wr 1 m 23 89
  Mem.wr 4 m 24 1

/-- `for (i = …; i < …; i++) set_bitmap(bitmap, i)`, for `n` numbers from `i` on. -/
def setBitmaps (bitmap : Nat) : Nat → Nat → Act Mem Unit
  | 0, _ => return ()
  | n + 1, i => do
    setBitmap bitmap i
    setBitmaps bitmap n (i + 1)

/-- The steps of `main` before it stores a file. -/
def format : Act Mem Unit := do
  copyIn (blkSize * 1) blkSize superBlock
  copyIn blkBitmap blkSize fun _ => 0xFF
  copyIn inoBitmap blkSize fun _ => 0xFF
  setBitmaps blkBitmap 14 0
  copyIn (inode rootInode) inodeSize fun _ => 0
  store 4 (inode rootInode + diSizeOff) 0
  store 2 (inode rootInode + diTypeOff) 1
  setBitmap inoBitmap 0

/-- `main`. -/
def main (turns : Nat) (name : List UInt8) (file : Option Reads) : Act Mem Int := do
  format
  let _ ← createFileImage turns name file
  return 0

end Myos.Image
