import Myos.Kernel.Proc
import Myos.Kernel.File

/-!
# Programs

`create_proc` of `kernel/proc.c`, which starts the program linked into the
kernel, and `sys_execve` of `kernel/exec.c`, which replaces the caller's
program by a file. Both read an ELF header and the program headers behind it,
wherever the header says they are.
-/

namespace Myos.Kernel

open Myos.Lib

/-! ## ELF -/

def elfMag0 : Nat := 0x7f
def elfMag1 : Nat := 0x45
def elfMag2 : Nat := 0x4c
def elfMag3 : Nat := 0x46
def ptLoad : Nat := 1

/-- The offsets of `e_entry`, `e_phoff` and `e_phnum` in `Elf64_Ehdr`. -/
def eEntryOff : Nat := 24
def ePhoffOff : Nat := 32
def ePhnumOff : Nat := 56

/-- `sizeof(Elf64_Phdr)`, and the offsets of its fields. -/
def phdrSize : Nat := 56
def pTypeOff : Nat := 0
def pOffsetOff : Nat := 8
def pVaddrOff : Nat := 16
def pFileszOff : Nat := 32
def pMemszOff : Nat := 40

/-- The four bytes an ELF file starts with. -/
def isElf (binary : Nat) : Act Mm Bool := do
  let b0 ← load 1 binary
  let b1 ← load 1 (binary + 1)
  let b2 ← load 1 (binary + 2)
  let b3 ← load 1 (binary + 3)
  return b0 = elfMag0 ∧ b1 = elfMag1 ∧ b2 = elfMag2 ∧ b3 = elfMag3

/-! ## `create_proc` -/

/-- The loop of `memmap`, from `i` on. -/
def memmapLoop (pgdir start : Nat) : Nat → Nat → Act Mm Unit
  | 0, _ => return ()
  | n + 1, i => do
    let pp ← allocPage 0
    let _ ← insertPage pgdir (u32 (start + i)) pp (pteU ||| pteW ||| pteP)
    memmapLoop pgdir start n (i + pageSize)

/-- `memmap`; the addresses are kept in an `unsigned int`. -/
def memmap (pgdir addr size : Nat) : Act Mm Unit := do
  let start := u32 (addr / pageSize * pageSize : Nat)
  let sz := u32 (size + pageSize - 1 : Nat) / pageSize * pageSize
  memmapLoop pgdir start (sz / pageSize) 0

/-- The loop of `load_img` over the program headers. -/
def loadSegments (pgdir output phdrs : Nat) : Nat → Nat → Act Mm Unit
  | 0, _ => return ()
  | n + 1, i => do
    let phdr := phdrs + phdrSize * i
    if (← load 4 (phdr + pTypeOff)) = ptLoad then do
      let vaddr ← load 8 (phdr + pVaddrOff)
      let memsz ← load 8 (phdr + pMemszOff)
      let offset ← load 8 (phdr + pOffsetOff)
      memmap pgdir vaddr (u32 memsz)
      memcpy vaddr (u64 (output + offset)) (u32 memsz)
      loadSegments pgdir output phdrs n (i + 1)
    else loadSegments pgdir output phdrs n (i + 1)

/-- `load_img`: the entry point, unless the image is none. -/
def loadImg (pgdir binary : Nat) : Act Mm (Option Nat) := do
  if ← isElf binary then do
    let phoff ← load 8 (binary + ePhoffOff)
    let phnum ← load 2 (binary + ePhnumOff)
    loadSegments pgdir binary (u64 (binary + phoff)) phnum 0
    let pp ← allocPage 1
    let _ ← insertPage pgdir (ustacktop - pageSize) pp (pteU ||| pteW ||| pteP)
    let entry ← load 8 (binary + eEntryOff)
    return some entry
  else return none

/-- `create_proc`, which ends in `run_proc`; the slot of the process. -/
def createProc (binary : Nat) : Act KState Nat := do
  let p ← allocProc
  setProc p fun r => { r with pregs := { r.pregs with
    cs := 0x1b, ss := 0x23, eflags := r.pregs.eflags ||| 0x200 } }
  let pgdir ← onMm (allocVm (← Act.gets KState.kpgdir))
  setProc p fun r => { r with pgdir := pgdir, fdtable := fun _ => none }
  onMm (Act.modify fun s => { s with cr3 := kva2pa pgdir })
  match ← onMm (loadImg pgdir binary) with
  | none => pure ()
  | some entry =>
    setProc p fun r => { r with pregs := { r.pregs with rsp := ustacktop, rip := entry } }
  setProc p fun r => { r with status := .runnable }
  runProc p
  return p

/-! ## `sys_execve` -/

/-- The pages of one segment; `j` is where in it, and `phdr` its header. -/
def execPages (pgdir phdr start memsz : Nat) : Nat → Int → Act FileSt Unit
  | 0, _ => Act.stop
  | n + 1, j =>
    if (j % 2 ^ 64).toNat < memsz then do
      let filesz ← fileFs (fsMm (load 8 (phdr + pFileszOff)))
      let remaining := int32 (filesz - j)
      let pp ←
        if 0 ≤ remaining then do
          let pp ← fileFs (fsMm (allocPage 0))
          let va ← Act.gets fun s => s.fs.mm.page2va pp
          let offset ← fileFs (fsMm (load 8 (phdr + pOffsetOff)))
          let _ ← fileRead va (u32 (min 4096 remaining)) (int32 (offset + j))
          pure pp
        else fileFs (fsMm (allocPage 1))
      let _ ← fileFs (fsMm (insertPage pgdir (ptrAdd start j) pp (pteU ||| pteW ||| pteP)))
      execPages pgdir phdr start memsz n (int32 (j + 4096))
    else return ()

/-- The loop of `sys_execve` over the program headers. -/
def execSegments (pgdir phdrs : Nat) : Nat → Nat → Act FileSt Unit
  | 0, _ => return ()
  | n + 1, i => do
    let phdr := phdrs + phdrSize * i
    if (← fileFs (fsMm (load 4 (phdr + pTypeOff)))) = ptLoad then do
      let vaddr ← fileFs (fsMm (load 8 (phdr + pVaddrOff)))
      let memsz ← fileFs (fsMm (load 8 (phdr + pMemszOff)))
      let start := u32 vaddr / pageSize * pageSize
      execPages pgdir phdr start (u64 (memsz + pageSize - 1) / pageSize * pageSize) (2 ^ 32) 0
      execSegments pgdir phdrs n (i + 1)
    else execSegments pgdir phdrs n (i + 1)

/-- `sys_execve` up to the registers, on the `struct file` it has on its stack
and the 128 bytes at `binary` there: the entry point, unless the file is none. -/
def execLoad (filename pgdir binary : Nat) : Act FileSt (Option Nat) := do
  fileFs (fsMm (memset binary 0 128))
  let _ ← fileOpen filename
  fileFs (fsMm (removePages pgdir (turns utext ustacktop) utext))
  let _ ← fileRead binary 128 0
  if ← fileFs (fsMm (isElf binary)) then do
    let phoff ← fileFs (fsMm (load 8 (binary + ePhoffOff)))
    let phnum ← fileFs (fsMm (load 2 (binary + ePhnumOff)))
    execSegments pgdir (u64 (binary + phoff)) phnum 0
    let pp ← fileFs (fsMm (allocPage 1))
    let _ ← fileFs (fsMm (insertPage pgdir (ustacktop - pageSize) pp (pteU ||| pteW ||| pteP)))
    let entry ← fileFs (fsMm (load 8 (binary + eEntryOff)))
    return some entry
  else return none

/-- Code on a `struct file` that is on the stack, and holds `x` at first. -/
def onLocalFile {α : Type} (x : File) (a : Act FileSt α) : Act KState α :=
  Act.zoom (fun k => ⟨k.fs, x⟩) (fun s k => { k with fs := s.fs }) a

/-- `sys_execve`, with the place of its buffer and what its `struct file` holds at first. -/
def sysExecve (binary : Nat) (pfile : File) (filename : Nat) : Act KState (Ctl Int) := do
  let p ← currentProc
  let pgdir ← Act.gets fun k => (k.procs p).pgdir
  match ← onLocalFile pfile (execLoad filename pgdir binary) with
  | none => return .ret (-1)
  | some entry =>
    setProc p fun r => { r with pregs := { r.pregs with rsp := ustacktop, rip := entry } }
    runProc p
    return .run p

end Myos.Kernel
