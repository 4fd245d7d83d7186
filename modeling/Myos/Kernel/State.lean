import Myos.Kernel.Mm

/-!
# The state of the kernel

The records of `include/kern/proc.h`, `file.h` and `amd64/pt_regs.h`, and the
variables the C files share, one layer on the other: `Mm` (memory and the
page records), `Fs` (with the disk and the four pointers `kernel/fs.c` keeps
into memory), `KState` (with the processes, the open files and the keyboard
buffer). Code of a lower layer runs on a higher one through `Act.zoom`.

Pointers to records are indices (`Option Nat`, with `none` for null): of a
`struct proc` its place in `procs`, of a `struct file` its place in
`filetable`. Pointers into memory are addresses. A null record pointer that
is followed stops the code: nothing is mapped there.
-/

namespace Myos.Kernel

open Myos.Lib

/-- `struct pt_regs`. -/
structure PtRegs where
  r15 : Nat := 0
  r14 : Nat := 0
  r13 : Nat := 0
  r12 : Nat := 0
  rbp : Nat := 0
  rbx : Nat := 0
  r11 : Nat := 0
  r10 : Nat := 0
  r9 : Nat := 0
  r8 : Nat := 0
  rax : Nat := 0
  rcx : Nat := 0
  rdx : Nat := 0
  rsi : Nat := 0
  rdi : Nat := 0
  num : Nat := 0
  errCode : Nat := 0
  rip : Nat := 0
  cs : Nat := 0
  eflags : Nat := 0
  rsp : Nat := 0
  ss : Nat := 0
deriving DecidableEq, Repr

/-- `enum PROC_STATUS`; a zeroed slot is `running`. -/
inductive ProcStatus where
  | running
  | runnable
  | sleep
  | stop
deriving DecidableEq, Repr

def maxProc : Nat := 10
def maxOpenFile : Nat := 32
def maxFile : Nat := 256

/-- `struct proc`. -/
structure Proc where
  pregs : PtRegs := {}
  pid : Nat := 0
  ppid : Nat := 0
  status : ProcStatus := .running
  link : Option Nat := none
  pgdir : Nat := 0
  fdtable : Nat → Option Nat := fun _ => none

/-- The kinds of `struct file`. -/
inductive FileType where
  | unknown
  | cons
  | file
deriving DecidableEq, Repr

/-- `struct file`; `inode` is an address. -/
structure File where
  refcount : Int := 0
  offset : Int := 0
  inode : Nat := 0
  type : FileType := .unknown
deriving DecidableEq, Repr

/-- The state of `kernel/fs.c`: memory, the disk, and the addresses of the
blocks that `read_superblock` read. -/
structure Fs where
  mm : Mm
  disk : Mem
  sb : Nat
  blkBitmap : Nat
  inoBitmap : Nat
  inoTable : Nat

/-- `kbs`, the keyboard's ring buffer. -/
structure Kbs where
  buf : Nat → UInt8
  rpos : Nat
  wpos : Nat

structure KState where
  fs : Fs
  procs : Nat → Proc
  procHead : Option Nat
  current : Option Nat
  filetable : Nat → File
  kbs : Kbs
  kpgdir : Nat
  eptPgdir : Nat := 0

namespace KState

/-- The memory of the kernel's state. -/
def mm (k : KState) : Mm := k.fs.mm

def setMm (m : Mm) (k : KState) : KState := { k with fs := { k.fs with mm := m } }
def setProc (k : KState) (p : Nat) (r : Proc) : KState :=
  { k with procs := Function.update k.procs p r }
def setFile (k : KState) (f : Nat) (r : File) : KState :=
  { k with filetable := Function.update k.filetable f r }

section Fields

variable (k : KState) (m : Mm) (p q f g : Nat) (r : Proc) (x : File)

@[simp] theorem setMm_mm : (setMm m k).mm = m := rfl
@[simp] theorem setMm_procs : (setMm m k).procs = k.procs := rfl
@[simp] theorem setMm_procHead : (setMm m k).procHead = k.procHead := rfl
@[simp] theorem setMm_current : (setMm m k).current = k.current := rfl
@[simp] theorem setMm_filetable : (setMm m k).filetable = k.filetable := rfl
@[simp] theorem setMm_kpgdir : (setMm m k).kpgdir = k.kpgdir := rfl
@[simp] theorem setMm_self : setMm k.mm k = k := rfl
@[simp] theorem setMm_setMm (m' : Mm) : setMm m' (setMm m k) = setMm m' k := rfl

@[simp] theorem setProc_mm : (k.setProc p r).mm = k.mm := rfl
@[simp] theorem setProc_procHead : (k.setProc p r).procHead = k.procHead := rfl
@[simp] theorem setProc_current : (k.setProc p r).current = k.current := rfl
@[simp] theorem setProc_filetable : (k.setProc p r).filetable = k.filetable := rfl
@[simp] theorem setProc_kpgdir : (k.setProc p r).kpgdir = k.kpgdir := rfl

theorem setProc_procs : (k.setProc p r).procs q = if q = p then r else k.procs q :=
  Function.update_apply k.procs p r q

@[simp] theorem setProc_setProc (r' : Proc) : (k.setProc p r).setProc p r' = k.setProc p r' := by
  simp only [setProc, Function.update_idem]

@[simp] theorem setProc_self : (k.setProc p r).procs p = r := by
  rw [setProc_procs, if_pos rfl]

@[simp] theorem setFile_mm : (k.setFile f x).mm = k.mm := rfl
@[simp] theorem setFile_procs : (k.setFile f x).procs = k.procs := rfl
@[simp] theorem setFile_procHead : (k.setFile f x).procHead = k.procHead := rfl
@[simp] theorem setFile_current : (k.setFile f x).current = k.current := rfl
@[simp] theorem setFile_kpgdir : (k.setFile f x).kpgdir = k.kpgdir := rfl

theorem setFile_filetable : (k.setFile f x).filetable g = if g = f then x else k.filetable g :=
  Function.update_apply k.filetable f x g

@[simp] theorem setFile_setFile (y : File) : (k.setFile f x).setFile f y = k.setFile f y := by
  simp only [setFile, Function.update_idem]

@[simp] theorem setFile_self : (k.setFile f x).filetable f = x := by
  rw [setFile_filetable, if_pos rfl]

end Fields

end KState

/-- Before any code ran: every variable is zero. -/
def KState.zero : KState where
  fs := {
    mm := {
      mem := fun _ => 0
      pages := fun _ => {}
      phead := none
      npages := 0
      kusedMem := 0
      pagesVa := 0
      cr3 := 0
      starved := false }
    disk := fun _ => 0
    sb := 0
    blkBitmap := 0
    inoBitmap := 0
    inoTable := 0 }
  procs := fun _ => {}
  procHead := none
  current := none
  filetable := fun _ => {}
  kbs := ⟨fun _ => 0, 0, 0⟩
  kpgdir := 0

/-- Code of `kernel/mm.c` and its like, run in the kernel. -/
def onMm {α : Type} (x : Act Mm α) : Act KState α := Act.zoom KState.mm KState.setMm x

theorem onMm_ok {α : Type} {x : Act Mm α} {k : KState} {a : α} {m : Mm}
    (h : x k.mm = .ok a m) : onMm x k = .ok a (KState.setMm m k) := Act.zoom_ok h

/-- Change the record of a process. -/
def setProc (p : Nat) (f : Proc → Proc) : Act KState Unit :=
  Act.modify fun k => k.setProc p (f (k.procs p))

/-- Change an entry of `filetable`. -/
def setFile (i : Nat) (f : File → File) : Act KState Unit :=
  Act.modify fun k => k.setFile i (f (k.filetable i))

@[simp] theorem setProc_apply (p : Nat) (f : Proc → Proc) (k : KState) :
    setProc p f k = .ok () (k.setProc p (f (k.procs p))) := rfl

@[simp] theorem setFile_apply (i : Nat) (f : File → File) (k : KState) :
    setFile i f k = .ok () (k.setFile i (f (k.filetable i))) := rfl

/-- `current`, followed. -/
def currentProc : Act KState Nat := do Act.deref (← Act.gets KState.current)

end Myos.Kernel
