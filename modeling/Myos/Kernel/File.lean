import Myos.Kernel.Fs
import Myos.Kernel.Keyboard

/-!
# Open files

`kernel/file.c`. `file_read` and `file_write` work on a `struct file` that
need not be in `filetable` (`sys_execve` has one on its stack), so they are
code over the file system and one record (`FileSt`).

What `sys_open` and `sys_opencons` assign in a condition is kept:
`fd = allocfd() < 0` is 1 if no descriptor is free and else 0, and
`r = file_open(…) < 0` is 1 if the file is not found. What the system calls
print is left out; what they read for it is not.

A descriptor outside `fdtable` is not refused: the code follows whatever word
stands beside the table. What comes of that is not in this state, and is a
parameter (`Stray`).
-/

namespace Myos.Kernel

open Myos.Lib

/-- Arithmetic in an `unsigned int`. -/
def u32 (x : Int) : Nat := (x % 2 ^ 32).toNat

/-- A pointer and an `int`. -/
def ptrAdd (p : Nat) (d : Int) : Nat := ((p + d) % 2 ^ 64).toNat

/-- The file system and one open file. -/
structure FileSt where
  fs : Fs
  file : File

namespace FileSt

def setFs (fs : Fs) (s : FileSt) : FileSt := { s with fs := fs }

/-- `file->offset += n`. -/
def advance (n : Nat) (s : FileSt) : FileSt :=
  { s with file := { s.file with offset := int32 (s.file.offset + n) } }

end FileSt

/-- Code of `fs.c`, run with an open file. -/
def fileFs {α : Type} (x : Act Fs α) : Act FileSt α := Act.zoom FileSt.fs FileSt.setFs x

/-- Code on an entry of `filetable`, run in the kernel. -/
def onFile {α : Type} (f : Nat) (x : Act FileSt α) : Act KState α :=
  Act.zoom (fun k => ⟨k.fs, k.filetable f⟩)
    (fun s k => { k with fs := s.fs, filetable := Function.update k.filetable f s.file }) x

/-! ## Reading and writing -/

/-- `file_open`. -/
def fileOpen (fname : Nat) : Act FileSt Int := do
  let (r, inode) ← fileFs (walkPath fname)
  if r < 0 then return r
  else do
    let inode ← Act.deref inode
    Act.modify fun s => { s with file := { s.file with inode := inode } }
    return 0

/-- The loop of `file_read`, once `n` bytes were read. -/
def fileReadLoop (count : Nat) (offset : Int) : Nat → Nat → Option Nat → Nat → Act FileSt Int
  | 0, _, _, _ => Act.stop
  | t + 1, n, diskno, buf =>
    if n < count then do
      let filepos := int32 (offset + n)
      let fileno := u32 (filepos.tdiv blkSize)
      let inode ← Act.gets fun s => s.file.inode
      let (_, diskno) ← fileFs (walkBlock inode fileno diskno 0)
      let coffset := filepos.tmod blkSize
      let remain := (blkSize - coffset).toNat
      let mincount := min remain count
      let ptr ← Act.deref diskno
      let no ← fileFs (fsMm (load 2 ptr))
      if no ≠ 0 then do
        let blk ← fileFs (bread no)
        fileFs (fsMm (memcpy buf (ptrAdd blk coffset) mincount))
        Act.modify (FileSt.advance mincount)
        fileReadLoop count offset t ((n + mincount) % 2 ^ 32) diskno (buf + mincount)
      else return -1
    else return int32 n

/-- `file_read`. Every turn reads a byte at least. -/
def fileRead (buf count : Nat) (offset : Int) : Act FileSt Int :=
  fileReadLoop count offset (2 ^ 32) 0 none buf

/-- The loop of `file_write`, from position `i` on. -/
def fileWriteLoop (count : Nat) (stop : Nat) : Nat → Int → Option Nat → Nat → Act FileSt Int
  | 0, _, _, _ => Act.stop
  | t + 1, i, diskno, buf =>
    if u32 i < stop then do
      let inode ← Act.gets fun s => s.file.inode
      let (_, diskno) ← fileFs (walkBlock inode (u32 (i.tdiv blkSize)) diskno 1)
      let curpos := i.tmod blkSize
      let curcount := (blkSize - curpos).toNat
      let mincount := min curcount count
      let ptr ← Act.deref diskno
      let write : Act FileSt Int := do
        let no ← fileFs (fsMm (load 2 ptr))
        let pbuf ← fileFs (bread no)
        fileFs (fsMm (memcpy (ptrAdd pbuf curpos) buf mincount))
        let no ← fileFs (fsMm (load 2 ptr))
        fileFs (writeblk pbuf (no * 8) 8)
        Act.modify (FileSt.advance mincount)
        fileWriteLoop count stop t (int32 (i + mincount)) diskno (buf + mincount)
      let no ← fileFs (fsMm (load 2 ptr))
      if no = 0 then do
        let bno ← fileFs getBlk
        if bno < 0 then return -1
        else do
          fileFs (fsMm (store 2 ptr bno.toNat))
          write
      else write
    else return int32 count

/-- `file_write`. -/
def fileWrite (buf count : Nat) : Act FileSt Int := do
  let offset ← Act.gets fun s => s.file.offset
  fileWriteLoop count (u32 (offset + count)) (2 ^ 32) offset none buf

/-! ## Descriptors -/

/-- The loop of `allocfd`, from descriptor `i` on. -/
def allocfdLoop (p : Nat) : Nat → Nat → Act KState Int
  | 0, _ => return -1
  | n + 1, i => do
    match ← Act.gets fun k => (k.procs p).fdtable i with
    | none => return i
    | some _ => allocfdLoop p n (i + 1)

/-- `allocfd`. -/
def allocfd : Act KState Int := do allocfdLoop (← currentProc) maxOpenFile 0

/-- The loop of `allocfile`, from entry `i` on. -/
def allocfileLoop : Nat → Nat → Act KState (Option Nat)
  | 0, _ => return none
  | n + 1, i => do
    if (← Act.gets fun k => (k.filetable i).refcount) = 0 then do
      setFile i fun _ => {}
      return some i
    else allocfileLoop n (i + 1)

/-- `allocfile`. -/
def allocfile : Act KState (Option Nat) := allocfileLoop maxFile 0

/-- A descriptor of the caller is set. -/
def setFd (p fd : Nat) (f : Option Nat) : Act KState Unit :=
  setProc p fun r => { r with fdtable := Function.update r.fdtable fd f }

/-- `%s` of `print`, up to the nought. -/
def printStrLoop : Nat → Nat → Act Mm Unit
  | 0, _ => Act.stop
  | n + 1, p => do
    if (← load 1 p) ≠ 0 then printStrLoop n (p + 1) else return ()

def printStr (p : Nat) : Act Mm Unit := printStrLoop (2 ^ 64) p

/-- `sys_opencons`. -/
def sysOpencons : Act KState Int := do
  let fd : Nat := if (← allocfd) < 0 then 1 else 0
  if fd ≠ 0 then return fd
  else do
    match ← allocfile with
    | none => return -1
    | some f =>
      setFile f fun x => { x with refcount := int32 (x.refcount + 1), type := .cons }
      setFd (← currentProc) fd (some f)
      return fd

/-- `sys_open`. It prints the name, and reads it for that. -/
def sysOpen (fname : Nat) : Act KState Int := do
  onMm (printStr fname)
  let fd : Nat := if (← allocfd) < 0 then 1 else 0
  if fd ≠ 0 then return fd
  else do
    match ← allocfile with
    | none => return -1
    | some f => do
      let r : Int := if (← onFile f (fileOpen fname)) < 0 then 1 else 0
      if r ≠ 0 then return r
      else do
        setFile f fun x =>
          { x with offset := 0, refcount := int32 (x.refcount + 1), type := .file }
        setFd (← currentProc) fd (some f)
        return fd

/-- `sys_close`. -/
def sysClose (fd : Int) : Act KState Int :=
  if fd < 0 ∨ fd > maxOpenFile - 1 then return -1
  else do
    let p ← currentProc
    match ← Act.gets fun k => (k.procs p).fdtable fd.toNat with
    | none => return -1
    | some f =>
      setFile f fun x => { x with refcount := int32 (x.refcount - 1) }
      if (← Act.gets fun k => (k.filetable f).refcount) = 0 then do
        setFd p fd.toNat none
        setFile f fun x => { x with offset := 0, inode := 0, type := .unknown }
        return 0
      else return 0

/-- `cons_read`, from the `i`-th byte on: `get_kbdata` returns an `int`, kept
in a `char`. -/
def consReadLoop : Nat → Nat → Nat → Act KState Int
  | 0, i, _ => return int32 i
  | n + 1, i, buf => do
    let ch ← fun k => .ok (getKbdata k.kbs).1 { k with kbs := (getKbdata k.kbs).2 }
    if ch % 256 = 255 then return int32 i
    else do
      onMm (store 1 buf (ch % 256).toNat)
      consReadLoop n (i + 1) (buf + 1)

/-- `cons_read`. -/
def consRead (buf count : Nat) : Act KState Int := consReadLoop count 0 buf

/-- What the three calls make of a descriptor that is not in `fdtable`: they take the
word that stands beside the table for a pointer. -/
structure Stray where
  read : Int → Nat → Nat → Act KState Int
  write : Int → Nat → Nat → Act KState Int
  lseek : Int → Int → Act KState Int

/-- The file behind a descriptor of the caller. -/
def fdFile (fd : Int) : Act KState (Option Nat) := do
  let p ← currentProc
  Act.gets fun k => (k.procs p).fdtable fd.toNat

/-- The loop of `cons_write`. What is displayed is left out, as what is printed is. -/
def consWriteLoop : Nat → Nat → Nat → Act KState Int
  | 0, i, _ => return int32 i
  | n + 1, i, buf => do
    let _ ← onMm (load 1 buf)
    consWriteLoop n (i + 1) (buf + 1)

/-- `cons_write`. -/
def consWrite (buf count : Nat) : Act KState Int := consWriteLoop count 0 buf

/-- `sys_read`. -/
def sysRead (w : Stray) (fd : Int) (buf count : Nat) : Act KState Int :=
  if 0 ≤ fd ∧ fd < maxOpenFile then do
    let f ← Act.deref (← fdFile fd)
    let offset ← Act.gets fun k => (k.filetable f).offset
    match ← Act.gets fun k => (k.filetable f).type with
    | .file => onFile f (fileRead buf count offset)
    | .cons => consRead buf count
    | .unknown => return -1
  else w.read fd buf count

/-- `sys_write`. -/
def sysWrite (w : Stray) (fd : Int) (buf count : Nat) : Act KState Int :=
  if 0 ≤ fd ∧ fd < maxOpenFile then do
    let f ← Act.deref (← fdFile fd)
    match ← Act.gets fun k => (k.filetable f).type with
    | .file => onFile f (fileWrite buf count)
    | .cons => consWrite buf count
    | .unknown => return -1
  else w.write fd buf count

/-- `sys_lseek`. It prints the size of the file, and reads it for that. -/
def sysLseek (w : Stray) (fd offset : Int) : Act KState Int :=
  if 0 ≤ fd ∧ fd < maxOpenFile then do
    match ← fdFile fd with
    | none => return -1
    | some f =>
      let inode ← Act.gets fun k => (k.filetable f).inode
      let _ ← onMm (load 4 (inode + diSizeOff))
      setFile f fun x => { x with offset := offset }
      return offset
  else w.lseek fd offset

end Myos.Kernel
