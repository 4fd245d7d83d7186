import Myos.Kernel.Syscall
import Myos.Kernel.Execve
import Myos.Kernel.Failing
import Myos.Kernel.Leaks
import Myos.Lib.Leaves

/-!
# What the code on memory and files leaves alone

`kernel/mm.c`, `fs.c`, `file.c` and the loading of programs store to memory and to the page
records, move the head of the free list, and no more: an observation of the memory that
does not depend on these is `Steady`, and no function of theirs changes it.
-/

namespace Myos.Kernel

open Myos.Lib
open Myos.Lib.Act (Leaves)

/-- An observation that bytes, page records and the free list do not show in. -/
structure Steady {ω : Type} (obs : Mm → ω) : Prop where
  mem : ∀ (s : Mm) (m : Mem), obs (s.setMem m) = obs s
  page : ∀ (s : Mm) (i : Nat) (p : Page), obs (s.setPage i p) = obs s
  phead : ∀ (s : Mm) (h : Option Nat), obs (s.setPhead h) = obs s
  starved : ∀ s : Mm, obs { s with starved := true } = obs s

/-- The directory in use is such an observation. -/
theorem steady_cr3 : Steady Mm.cr3 where
  mem _ _ := rfl
  page _ _ _ := rfl
  phead _ _ := rfl
  starved _ := rfl

namespace Steady

variable {ω : Type} {obs : Mm → ω}

/-! ## Memory and tables -/

theorem load (n va : Nat) : Leaves obs (load n va) := Leaves.of_fixed fun s => by
  unfold Myos.Kernel.load
  cases s.kpa va <;> rfl

theorem store (h : Steady obs) (n va v : Nat) : Leaves obs (store n va v) := fun s => by
  unfold Myos.Kernel.store
  cases s.kpa va with
  | none => rfl
  | some pa => exact h.mem s _

theorem memset (h : Steady obs) (va : Nat) (c : UInt8) (n : Nat) : Leaves obs (memset va c n) := by
  induction n generalizing va with
  | zero => exact Leaves.pure ()
  | succ n ih => exact Leaves.bind (h.store 1 va _) fun _ => ih (va + 1)

theorem memcpy (h : Steady obs) (dest src n : Nat) : Leaves obs (memcpy dest src n) := by
  induction n generalizing dest src with
  | zero => exact Leaves.pure ()
  | succ n ih =>
    exact Leaves.bind (load 1 src) fun _ => Leaves.bind (h.store 1 dest _) fun _ =>
      ih (dest + 1) (src + 1)

theorem setCount (h : Steady obs) (i : Nat) (f : Mm → Int) :
    Leaves obs (Act.modify fun s => s.setCount i (f s)) := fun s => h.page s i _

theorem allocPage (h : Steady obs) (flags : Nat) : Leaves obs (allocPage flags) := by
  refine Leaves.bind (Leaves.gets _) fun p => ?_
  cases p with
  | none => exact Leaves.bind (fun s => h.starved s) fun _ => Leaves.pure none
  | some p =>
    refine Leaves.bind (fun s => h.phead s _) fun _ => ?_
    have hcount : Leaves obs (do
        Act.modify fun s => s.setCount p (int32 (s.count p + 1))
        return some p) := Leaves.bind (h.setCount p _) fun _ => Leaves.pure (some p)
    exact Leaves.ite (Leaves.bind (Leaves.gets _) fun va =>
      Leaves.bind (h.memset va 0 pageSize) fun _ => hcount) hcount

theorem freePage (h : Steady obs) (p : Option Nat) : Leaves obs (freePage p) := by
  cases p with
  | none => exact Leaves.pure ()
  | some p =>
    refine Leaves.bind (h.setCount p _) fun _ => Leaves.bind (Leaves.gets _) fun c => ?_
    exact Leaves.ite (Leaves.bind (fun s => h.page s _ _) fun _ => fun s => h.phead s _)
      (Leaves.pure ())

theorem newTable (h : Steady obs) (slot : Nat) : Leaves obs (newTable slot) :=
  Leaves.bind (h.allocPage 1) fun _ => Leaves.bind (Leaves.gets _) fun _ =>
    Leaves.bind (h.store 8 slot _) fun _ => Leaves.gets _

theorem walkDir (h : Steady obs) (pgdir va create : Nat) : Leaves obs (walkDir pgdir va create) :=
  Leaves.bind (load 8 _) fun _ => Leaves.ite (Leaves.pure _) (Leaves.ite
    (Leaves.bind (h.newTable _) fun _ => Leaves.pure _) (Leaves.pure _))

theorem walkPage (h : Steady obs) (pgdir va create : Nat) :
    Leaves obs (walkPage pgdir va create) := by
  refine Leaves.bind (load 8 _) fun _ => Leaves.ite (Leaves.bind (load 8 _) fun _ => ?_) ?_
  · exact Leaves.ite (h.walkDir _ va create) (Leaves.ite (Leaves.pure none)
      (Leaves.bind (h.newTable _) fun _ => h.walkDir _ va create))
  · exact Leaves.ite (Leaves.pure none) (Leaves.bind (h.newTable _) fun _ =>
      Leaves.bind (h.newTable _) fun _ => h.walkDir _ va create)

theorem insertPage (h : Steady obs) (pgdir va : Nat) (pp : Option Nat) (flag : Nat) :
    Leaves obs (insertPage pgdir va pp flag) := by
  unfold Myos.Kernel.insertPage
  cases pp with
  | none => exact Leaves.pure _
  | some p =>
    refine Leaves.bind (h.walkPage pgdir va 1) fun o => ?_
    cases o with
    | none => exact Leaves.pure _
    | some pte =>
      exact Leaves.bind (Leaves.gets _) fun _ =>
        Leaves.bind (h.store 8 pte _) fun _ => Leaves.pure _

theorem removePage (h : Steady obs) (pgdir va : Nat) : Leaves obs (removePage pgdir va) := by
  refine Leaves.bind (h.walkPage pgdir va 0) fun o => ?_
  cases o with
  | none => exact Leaves.pure _
  | some pte =>
    have hlast : Leaves obs (do
        Myos.Kernel.store 8 pte 0
        return (0 : Int)) := Leaves.bind (h.store 8 pte 0) fun _ => Leaves.pure _
    exact Leaves.bind (load 8 pte) fun e => Leaves.ite
      (Leaves.bind (h.freePage _) fun _ => hlast) hlast

theorem removePages (h : Steady obs) (pgdir n addr : Nat) :
    Leaves obs (removePages pgdir n addr) := by
  induction n generalizing addr with
  | zero => exact Leaves.pure ()
  | succ n ih => exact Leaves.bind (h.removePage pgdir addr) fun _ => ih _

/-- The page fault. -/
theorem pageFault (h : Steady obs) (pgdir : Option Nat) (cr2 errCode : Nat) :
    Leaves obs (pageFault pgdir cr2 errCode) := by
  have hinsert : ∀ dir cr2 pp flag, Leaves obs (do
      let _ ← Myos.Kernel.insertPage dir cr2 pp flag
      return ()) := fun dir cr2 pp flag =>
    Leaves.bind (h.insertPage dir cr2 pp flag) fun _ => Leaves.pure ()
  refine Leaves.ite ?_ (Leaves.ite ?_ (Leaves.pure ()))
  · exact Leaves.bind (h.allocPage 1) fun pp => Leaves.bind (Leaves.deref _) fun dir =>
      hinsert dir _ pp _
  · exact Leaves.bind (h.allocPage 1) fun pp => Leaves.bind (Leaves.gets _) fun va =>
      Leaves.bind (h.memcpy va _ 4096) fun _ => Leaves.bind (Leaves.deref _) fun dir =>
        Leaves.bind (h.removePage dir _) fun _ => hinsert dir _ pp _

theorem printStr (p : Nat) : Leaves obs (printStr p) := by
  have hloop : ∀ n p, Leaves obs (printStrLoop n p) := by
    intro n
    induction n with
    | zero => exact fun p => Leaves.stop
    | succ n ih =>
      exact fun p => Leaves.bind (load 1 p) fun _ => Leaves.ite (ih (p + 1)) (Leaves.pure ())
  exact hloop _ p

/-! ## The memory of a guest -/

theorem sysCreateVcpu (h : Steady obs) (basicMsr : Nat) : Leaves obs (sysCreateVcpu basicMsr) :=
  Leaves.bind (h.allocPage 1) fun _ => Leaves.bind (Leaves.gets _) fun vmcs =>
    Leaves.bind (h.store 4 vmcs _) fun _ => Leaves.bind (h.allocPage 1) fun _ => Leaves.gets _

theorem allocVmPages (h : Steady obs) (eptPgdir n gpa : Nat) :
    Leaves obs (allocVmPages eptPgdir n gpa) := by
  induction n generalizing gpa with
  | zero => exact Leaves.pure ()
  | succ n ih =>
    exact Leaves.bind (h.allocPage 1) fun pp => Leaves.bind (h.insertPage _ _ pp _) fun _ => ih _

theorem sysAllocVmMem (h : Steady obs) (eptPgdir phys : Nat) :
    Leaves obs (sysAllocVmMem eptPgdir phys) := by
  refine Leaves.bind (h.walkPage eptPgdir 0xb8000 1) fun o => ?_
  cases o with
  | none => exact Leaves.pure _
  | some pte =>
    exact Leaves.bind (h.store 8 pte _) fun _ => Leaves.bind (h.allocVmPages _ _ _) fun _ =>
      Leaves.bind (h.allocVmPages _ _ _) fun _ => Leaves.pure _

theorem sysMmapMem (h : Steady obs) (eptPgdir addr length gpa : Nat) (prot : Int) :
    Leaves obs (sysMmapMem eptPgdir addr length gpa prot) :=
  Leaves.bind (h.allocPage 1) fun pp => Leaves.bind (Leaves.gets _) fun _ =>
    Leaves.bind (h.memcpy _ addr _) fun _ => h.insertPage _ _ pp _

/-! ## The memory part of a fork -/

theorem allocVm (h : Steady obs) (pgdir : Nat) : Leaves obs (allocVm pgdir) := by
  refine Leaves.bind (h.allocPage 1) fun o => ?_
  cases o with
  | none => exact Leaves.pure _
  | some p =>
    exact Leaves.bind (Leaves.gets _) fun dir => Leaves.bind (h.memcpy dir _ _) fun _ =>
      Leaves.pure dir

theorem sharePages (h : Steady obs) (pgdir child n addr : Nat) :
    Leaves obs (sharePages pgdir child n addr) := by
  induction n generalizing addr with
  | zero => exact Leaves.pure _
  | succ n ih =>
    refine Leaves.bind (h.walkPage pgdir addr 0) fun o => ?_
    cases o with
    | none => exact ih _
    | some pte =>
      refine Leaves.bind (load 8 pte) fun e => Leaves.ite (ih _) ?_
      refine Leaves.bind (h.insertPage child addr _ _) fun r => Leaves.ite (Leaves.pure r) ?_
      exact Leaves.bind (h.setCount _ _) fun _ => Leaves.bind (load 8 pte) fun e =>
        Leaves.bind (h.store 8 pte _) fun _ => ih _

theorem copyStack (h : Steady obs) (child : Nat) : Leaves obs (copyStack child) :=
  Leaves.bind (h.allocPage 1) fun pp => Leaves.bind (Leaves.gets _) fun va =>
    Leaves.bind (h.memcpy va _ _) fun _ => Leaves.bind (h.insertPage child _ pp _) fun _ =>
      Leaves.pure ()

/-! ## The file system -/

theorem fsMm {α : Type} {x : Act Mm α} (hx : Leaves obs x) :
    Leaves (fun s : Fs => obs s.mm) (fsMm x) := by
  unfold Myos.Kernel.fsMm
  refine Leaves.zoom ?_ hx
  exact fun _ _ h => h

theorem fileFs {α : Type} {x : Act Fs α} (hx : Leaves (fun s : Fs => obs s.mm) x) :
    Leaves (fun s : FileSt => obs s.fs.mm) (fileFs x) := by
  unfold Myos.Kernel.fileFs
  refine Leaves.zoom ?_ hx
  exact fun _ _ h => h

theorem diskIn (h : Steady obs) (dest pos n : Nat) :
    Leaves (fun s : Fs => obs s.mm) (diskIn dest pos n) := by
  induction n generalizing dest pos with
  | zero => exact Leaves.pure ()
  | succ n ih =>
    exact Leaves.bind (Leaves.gets _) fun b => Leaves.bind (fsMm (h.store 1 dest _)) fun _ =>
      ih (dest + 1) (pos + 1)

theorem diskOut (src pos n : Nat) : Leaves (fun s : Fs => obs s.mm) (diskOut src pos n) := by
  induction n generalizing src pos with
  | zero => exact Leaves.pure ()
  | succ n ih =>
    exact Leaves.bind (fsMm (load 1 src)) fun b => Leaves.bind (Leaves.modify fun _ => rfl) fun _ =>
      ih (src + 1) (pos + 1)

theorem bread (h : Steady obs) (no : Nat) : Leaves (fun s : Fs => obs s.mm) (bread no) :=
  Leaves.bind (fsMm (h.allocPage 0)) fun _ => Leaves.bind (Leaves.gets _) fun buf =>
    Leaves.bind (h.diskIn buf _ _) fun _ => Leaves.pure buf

/-- A read of a block leaves it, and so does code that does no more. -/
theorem reading (h : Steady obs) : Fs.Reading fun s s' => obs s'.mm = obs s.mm :=
  ⟨fun _ => rfl, fun h h' => h'.trans h, h.bread⟩

theorem walkPath (h : Steady obs) (fname : Nat) :
    Leaves (fun s : Fs => obs s.mm) (walkPath fname) := h.reading.walkPath fname

theorem isBlkempty (bitmap no : Nat) : Leaves obs (isBlkempty bitmap no) :=
  Leaves.bind (load 4 _) fun _ => Leaves.pure _

theorem setBitmap (h : Steady obs) (bitmap no : Nat) : Leaves obs (setBitmap bitmap no) :=
  Leaves.bind (load 4 _) fun _ => h.store 4 _ _

theorem getFreeNoLoop (bitmap n blkno : Nat) : Leaves obs (getFreeNoLoop bitmap n blkno) := by
  induction n generalizing blkno with
  | zero => exact Leaves.pure _
  | succ n ih =>
    exact Leaves.bind (isBlkempty bitmap blkno) fun e => Leaves.ite (Leaves.pure _) (ih _)

theorem getBlk (h : Steady obs) : Leaves (fun s : Fs => obs s.mm) getBlk :=
  Leaves.bind (Leaves.gets _) fun bitmap => Leaves.bind (fsMm (getFreeNoLoop bitmap _ 0)) fun _ =>
    Leaves.ite (Leaves.pure _) (Leaves.bind (fsMm (h.setBitmap bitmap _)) fun _ => Leaves.pure _)

theorem walkBlock (h : Steady obs) (p fileno : Nat) (diskno : Option Nat) (alloc : Nat) :
    Leaves (fun s : Fs => obs s.mm) (walkBlock p fileno diskno alloc) := by
  have hbelow : ∀ slot off, Leaves (fun s : Fs => obs s.mm) (do
      let blk ← Myos.Kernel.bread (← Myos.Kernel.fsMm (Myos.Kernel.load 2 slot))
      return ((0 : Int), some (blk + off))) := fun slot off =>
    Leaves.bind (fsMm (load 2 slot)) fun no => Leaves.bind (h.bread no) fun blk => Leaves.pure _
  refine Leaves.ite (Leaves.pure _) (Leaves.ite ?_ (Leaves.pure _))
  refine Leaves.bind (fsMm (load 2 _)) fun no => Leaves.ite (Leaves.ite ?_ (Leaves.pure _))
    (hbelow _ _)
  refine Leaves.bind (Leaves.gets _) fun bitmap =>
    Leaves.bind (fsMm (getFreeNoLoop bitmap _ 0)) fun bno => Leaves.ite (Leaves.pure _) ?_
  exact Leaves.bind (fsMm (h.store 2 _ _)) fun _ => Leaves.bind (fsMm (h.setBitmap bitmap _))
    fun _ => hbelow _ _

/-! ## Files and programs -/

theorem fileOpen (h : Steady obs) (fname : Nat) :
    Leaves (fun s : FileSt => obs s.fs.mm) (fileOpen fname) := by
  refine Leaves.bind (fileFs (h.walkPath fname)) fun r => Leaves.ite (Leaves.pure _) ?_
  exact Leaves.bind (Leaves.deref r.2) fun inode => Leaves.bind (Leaves.modify fun _ => rfl)
    fun _ => Leaves.pure _

theorem fileReadLoop (h : Steady obs) (count : Nat) (offset : Int) (t n : Nat) (diskno : Option Nat)
    (buf : Nat) :
    Leaves (fun s : FileSt => obs s.fs.mm) (fileReadLoop count offset t n diskno buf) := by
  induction t generalizing n diskno buf with
  | zero => exact Leaves.stop
  | succ t ih =>
    refine Leaves.ite ?_ (Leaves.pure _)
    refine Leaves.bind (Leaves.gets _) fun inode =>
      Leaves.bind (fileFs (h.walkBlock inode _ diskno 0)) fun r =>
      Leaves.bind (Leaves.deref r.2) fun ptr => Leaves.bind (fileFs (fsMm (load 2 ptr))) fun no =>
        Leaves.ite ?_ (Leaves.pure _)
    exact Leaves.bind (fileFs (h.bread no)) fun blk =>
      Leaves.bind (fileFs (fsMm (h.memcpy buf _ _))) fun _ =>
        Leaves.bind (Leaves.modify fun _ => rfl) fun _ => ih _ r.2 _

theorem writeBack (h : Steady obs) {count stop t c ptr buf : Nat} {i : Int} {diskno : Option Nat}
    (hloop : Leaves (fun s : FileSt => obs s.fs.mm)
      (fileWriteLoop count stop t (int32 (i + c)) diskno (buf + c))) :
    Leaves (fun s : FileSt => obs s.fs.mm) (writeBack count stop t c ptr buf i diskno) :=
  Leaves.bind (fileFs (fsMm (load 2 ptr))) fun no => Leaves.bind (fileFs (h.bread no)) fun pbuf =>
    Leaves.bind (fileFs (fsMm (h.memcpy _ buf c))) fun _ =>
      Leaves.bind (fileFs (fsMm (load 2 ptr))) fun _ => Leaves.bind (fileFs (diskOut pbuf _ _))
        fun _ => Leaves.bind (Leaves.modify fun _ => rfl) fun _ => hloop

theorem fileWriteLoop (h : Steady obs) (count stop t : Nat) (i : Int) (diskno : Option Nat)
    (buf : Nat) :
    Leaves (fun s : FileSt => obs s.fs.mm) (fileWriteLoop count stop t i diskno buf) := by
  induction t generalizing i diskno buf with
  | zero => exact Leaves.stop
  | succ t ih =>
    rw [fileWriteLoop_step]
    refine Leaves.ite ?_ (Leaves.pure _)
    refine Leaves.bind (Leaves.gets _) fun inode =>
      Leaves.bind (fileFs (h.walkBlock inode _ diskno 1)) fun r => ?_
    refine Leaves.bind (Leaves.deref r.2) fun ptr => Leaves.bind (fileFs (fsMm (load 2 ptr)))
      fun no => Leaves.ite ?_ (h.writeBack (ih _ r.2 _))
    exact Leaves.bind (fileFs h.getBlk) fun bno => Leaves.ite (Leaves.pure _)
      (Leaves.bind (fileFs (fsMm (h.store 2 ptr _))) fun _ => h.writeBack (ih _ r.2 _))

theorem takePage (h : Steady obs) (phdr : Nat) (j remaining : Int) :
    Leaves (fun s : FileSt => obs s.fs.mm) (takePage phdr j remaining) := by
  refine Leaves.ite ?_ (fileFs (fsMm (h.allocPage 1)))
  exact Leaves.bind (fileFs (fsMm (h.allocPage 0))) fun pp => Leaves.bind (Leaves.gets _) fun va =>
    Leaves.bind (fileFs (fsMm (load 8 _))) fun offset =>
      Leaves.bind (h.fileReadLoop _ _ _ _ _ _) fun _ => Leaves.pure _

theorem execPages (h : Steady obs) (pgdir phdr start memsz n : Nat) (j : Int) :
    Leaves (fun s : FileSt => obs s.fs.mm) (execPages pgdir phdr start memsz n j) := by
  induction n generalizing j with
  | zero => exact Leaves.stop
  | succ n ih =>
    rw [execPages_succ]
    refine Leaves.ite (Leaves.bind (fileFs (fsMm (load 8 _))) fun filesz => ?_) (Leaves.pure _)
    exact Leaves.bind (Leaves.bind (h.takePage phdr j _) fun pp =>
      fileFs (fsMm (h.insertPage _ _ pp _))) fun _ => ih _

theorem execSegments (h : Steady obs) (pgdir phdrs n i : Nat) :
    Leaves (fun s : FileSt => obs s.fs.mm) (execSegments pgdir phdrs n i) := by
  induction n generalizing i with
  | zero => exact Leaves.pure _
  | succ n ih =>
    refine Leaves.bind (fileFs (fsMm (load 4 _))) fun t => Leaves.ite ?_ (ih _)
    exact Leaves.bind (fileFs (fsMm (load 8 _))) fun vaddr =>
      Leaves.bind (fileFs (fsMm (load 8 _))) fun memsz =>
        Leaves.bind (h.execPages _ _ _ _ _ _) fun _ => ih _

theorem isElf (binary : Nat) : Leaves obs (isElf binary) :=
  Leaves.bind (load 1 _) fun _ => Leaves.bind (load 1 _) fun _ =>
    Leaves.bind (load 1 _) fun _ => Leaves.bind (load 1 _) fun _ => Leaves.pure _

/-- `sys_execve`, up to the registers. -/
theorem execLoad (h : Steady obs) (filename pgdir binary : Nat) :
    Leaves (fun s : FileSt => obs s.fs.mm) (execLoad filename pgdir binary) := by
  refine Leaves.bind (fileFs (fsMm (h.memset binary 0 128))) fun _ =>
    Leaves.bind (h.fileOpen filename) fun _ =>
    Leaves.bind (fileFs (fsMm (h.removePages pgdir _ _))) fun _ =>
    Leaves.bind (h.fileReadLoop _ _ _ _ _ _) fun _ =>
    Leaves.bind (fileFs (fsMm (isElf binary))) fun b => Leaves.ite ?_ (Leaves.pure _)
  exact Leaves.bind (fileFs (fsMm (load 8 _))) fun phoff =>
    Leaves.bind (fileFs (fsMm (load 2 _))) fun phnum =>
    Leaves.bind (h.execSegments pgdir _ phnum 0) fun _ =>
    Leaves.bind (fileFs (fsMm (h.allocPage 1))) fun pp =>
    Leaves.bind (fileFs (fsMm (h.insertPage pgdir _ pp _))) fun _ =>
    Leaves.bind (fileFs (fsMm (load 8 _))) fun entry => Leaves.pure _

end Steady

end Myos.Kernel
