import Myos.Kernel.State
import Myos.Kernel.PageTable

/-!
# Processes

`kernel/proc.c`: the process slots, the address space of a process, the
scheduler, and `sys_fork`, `sys_exit`, `sys_waitpid`.

`run_proc` does not return, and `schedule` may stop in `hlt` with interrupts
enabled before it returns; `Ctl` says which of the three an activation of
kernel code came to. A loop over addresses is a recursion on the number of
its turns.
-/

namespace Myos.Kernel

open Myos.Lib

/-! ## Address spaces -/

/-- `alloc_vm`: a copy of the page directory; nought if there is no frame. -/
def allocVm (pgdir : Nat) : Act Mm Nat := do
  match ← allocPage 1 with
  | none => return 0
  | some p =>
    let procPgdir ← Act.gets fun s => s.page2va (some p)
    memcpy procPgdir pgdir pageSize
    return procPgdir

/-- The turns of `for (addr = lo; addr < hi; addr += PAGESIZE)`. -/
def turns (lo hi : Nat) : Nat := (hi - lo + pageSize - 1) / pageSize

/-- The loop of `destroy_vm` that removes the pages. -/
def removePages (pgdir : Nat) : Nat → Nat → Act Mm Unit
  | 0, _ => return ()
  | n + 1, addr => do
    let _ ← removePage pgdir addr
    removePages pgdir n (addr + pageSize)

def pmlSize : Nat := 1 <<< pmlShift
def pdpSize : Nat := 1 <<< pdpShift
def pgdSize : Nat := 1 <<< pgdShift

/-- `(addr + SIZE) & MASK`. -/
def nextRow (size addr : Nat) : Nat := (addr + size) / size * size

/-- `free_page(PA2PAGE(*slot >> 12)); *slot = NULL`. -/
def freeEntry (slot : Nat) : Act Mm Unit := do
  let e ← load 8 slot
  freePage (some (e >>> pteShift))
  store 8 slot 0

/-- The innermost loop of `free_pgtable`: the page tables of one row. The
result is where the row ended, or nothing where the end of the user addresses
was reached (`goto out_pdp_free`). A row has 512 entries. -/
def freePgds (srcPdp : Nat) : Nat → Nat → Act Mm (Option Nat)
  | 0, _ => Act.stop
  | n + 1, addr => do
    let pdp ← load 8 srcPdp
    let srcPgd := tableVa pdp + 8 * pgdIndex addr
    let pgd ← load 8 srcPgd
    let next : Act Mm (Option Nat) :=
      let addr := nextRow pgdSize addr
      if ustacktop ≤ addr then return none
      else if (srcPgd + 8) % pageSize ≠ 0 then freePgds srcPdp n addr
      else return some addr
    if pgd = 0 then next
    else do
      freeEntry srcPgd
      next

/-- The loop of `free_pgtable` over page directories; nothing where the end
was reached, and the entry above is freed then (`out_pml_free`). -/
def freePdps (srcPml : Nat) : Nat → Nat → Act Mm (Option Nat)
  | 0, _ => Act.stop
  | n + 1, addr => do
    let pml ← load 8 srcPml
    let srcPdp := tableVa pml + 8 * pdpIndex addr
    let pdp ← load 8 srcPdp
    let next (addr : Nat) : Act Mm (Option Nat) :=
      let addr := nextRow pdpSize addr
      if ustacktop ≤ addr then do
        freeEntry srcPml
        return none
      else if (srcPdp + 8) % pageSize ≠ 0 then freePdps srcPml n addr
      else return some addr
    if pdp = 0 then next addr
    else do
      match ← freePgds srcPdp 512 addr with
      | none =>
        freeEntry srcPdp
        freeEntry srcPml
        return none
      | some addr =>
        freeEntry srcPdp
        next addr

/-- The outer loop of `free_pgtable`. -/
def freePmls (src : Nat) : Nat → Nat → Act Mm Unit
  | 0, _ => Act.stop
  | n + 1, addr => do
    let srcPml := src + 8 * pmlIndex addr
    let pml ← load 8 srcPml
    let next (addr : Nat) : Act Mm Unit :=
      let addr := nextRow pmlSize addr
      if ustacktop ≤ addr then return ()
      else if (srcPml + 8) % pageSize ≠ 0 then freePmls src n addr
      else return ()
    if pml = 0 then next addr
    else do
      match ← freePdps srcPml 512 addr with
      | none => return ()
      | some addr =>
        freeEntry srcPml
        next addr

/-- `free_pgtable`. -/
def freePgtable (pgdir : Nat) : Act Mm Unit := freePmls pgdir 512 utext

/-- `destroy_vm`, up to the assignment to `p->pgdir`. -/
def destroyVm (pgdir : Nat) : Act Mm Unit := do
  removePages pgdir (turns utext ustacktop) utext
  freePgtable pgdir
  freePage (some (va2page pgdir))

/-- The loop of `sys_fork` that shares the pages, from `addr` on; a negative
value is the one `insert_page` returned. -/
def sharePages (pgdir child : Nat) : Nat → Nat → Act Mm Int
  | 0, _ => return 0
  | n + 1, addr => do
    match ← walkPage pgdir addr 0 with
    | none => sharePages pgdir child n (addr + pageSize)
    | some pte =>
      let e ← load 8 pte
      if e = 0 then sharePages pgdir child n (addr + pageSize)
      else do
        let pp := e >>> pteShift
        let r ← insertPage child addr (some pp) (pteU ||| pteP ||| pteCow)
        if r < 0 then return r
        else do
          sharePage pp
          let e ← load 8 pte
          store 8 pte (e / pageSize * pageSize ||| pteU ||| pteP ||| pteCow)
          sharePages pgdir child n (addr + pageSize)

/-- The stack page of `sys_fork`: a frame of its own, with the caller's bytes. -/
def copyStack (child : Nat) : Act Mm Unit := do
  let pp ← allocPage 1
  let va ← Act.gets fun s => s.page2va pp
  memcpy va (ustacktop - pageSize) 4096
  let _ ← insertPage child (ustacktop - pageSize) pp (pteU ||| pteW ||| pteP)

/-! ## Process slots -/

/-- The loop of `init_proc`, from the last slot down. -/
def initProcs : Nat → Option Nat → Act KState (Option Nat)
  | 0, p => return p
  | n + 1, p => do
    setProc n fun r => { r with link := p }
    initProcs n (some n)

/-- `init_proc`. -/
def initProc : Act KState Unit := do
  let p ← initProcs maxProc none
  Act.modify fun k => { k with procHead := p }

/-- `alloc_proc`: the head of the list, its record cleared. -/
def allocProc : Act KState Nat := do
  let p ← Act.deref (← Act.gets KState.procHead)
  Act.modify fun k => { k with procHead := (k.procs p).link }
  setProc p fun _ => { status := .stop, pid := p, link := none }
  return p

/-- `free_proc`. -/
def freeProc (p : Nat) : Act KState Unit := do
  let head ← Act.gets KState.procHead
  setProc p fun r => { r with link := head }
  Act.modify fun k => { k with procHead := some p }

/-! ## The scheduler -/

/-- How an activation of kernel code came to an end: it returned a value, it
entered a process through `run_proc`, or it stopped in the `hlt` of
`schedule`, to return from there after an interrupt. -/
inductive Ctl (α : Type) where
  | ret (a : α)
  | run (p : Nat)
  | halt
deriving DecidableEq, Repr

/-- `run_proc`, up to the jump. -/
def runProc (p : Nat) : Act KState Unit := do
  let pgdir ← Act.gets fun k => (k.procs p).pgdir
  onMm (Act.modify fun s => { s with cr3 := kva2pa pgdir })
  Act.modify fun k => { k with current := some p }

/-- The loop of `schedule`, from the slot `nextind` on. A turn after each
slot was looked at is not taken. -/
def scheduleLoop (curind : Nat) : Nat → Nat → Act KState (Option Nat)
  | 0, _ => Act.stop
  | n + 1, nextind => do
    if curind = nextind then return none
    else do
      let status ← Act.gets fun k => (k.procs nextind).status
      if status = .runnable then return some nextind
      else scheduleLoop curind n ((nextind + 1) % maxProc)

/-- The slot `schedule` starts from: `current`'s, or the first. -/
def KState.curind (k : KState) : Nat :=
  match k.current with
  | none => 0
  | some c => (k.procs c).pid

/-- `schedule`. -/
def schedule : Act KState (Ctl Unit) := do
  let curind ← Act.gets KState.curind
  match ← scheduleLoop curind (maxProc + 2) (curind + 1) with
  | some p =>
    runProc p
    return .run p
  | none =>
    let status ← Act.gets fun k => (k.procs curind).status
    if status = .runnable then do
      runProc curind
      return .run curind
    else do
      Act.modify fun k => { k with current := none }
      return .halt

/-! ## Ending a process -/

/-- The loop of `destroy_proc` over the open files, from descriptor `i` on. -/
def releaseFiles (p : Nat) : Nat → Nat → Act KState Unit
  | 0, _ => return ()
  | n + 1, i => do
    match ← Act.gets fun k => (k.procs p).fdtable i with
    | none => releaseFiles p n (i + 1)
    | some f =>
      setFile f fun x => { x with refcount := int32 (x.refcount - 1) }
      let count ← Act.gets fun k => (k.filetable f).refcount
      if count = 0 then do
        setProc p fun r => { r with fdtable := Function.update r.fdtable i none }
        releaseFiles p n (i + 1)
      else releaseFiles p n (i + 1)

/-- `destroy_proc`. -/
def destroyProc : Option Nat → Act KState (Ctl Unit)
  | none => return .ret ()
  | some p => do
    let pgdir ← Act.gets fun k => (k.procs p).pgdir
    onMm (destroyVm pgdir)
    setProc p fun r => { r with pgdir := 0 }
    releaseFiles p maxOpenFile 0
    freeProc p
    setProc p fun r => { r with status := .stop }
    if (← Act.gets KState.current) = some p then do
      Act.modify fun k => { k with current := none }
      schedule
    else return .ret ()

/-- `sys_exit`. -/
def sysExit : Act KState (Ctl Int) := do
  match ← destroyProc (← Act.gets KState.current) with
  | .ret _ => return .ret 0
  | .run p => return .run p
  | .halt => return .halt

/-! ## Forking -/

/-- The loop of `sys_fork` over the open files, from descriptor `i` on. -/
def copyFiles (cur p : Nat) : Nat → Nat → Act KState Unit
  | 0, _ => return ()
  | n + 1, i => do
    match ← Act.gets fun k => (k.procs cur).fdtable i with
    | none => copyFiles cur p n (i + 1)
    | some f =>
      setProc p fun r => { r with fdtable := Function.update r.fdtable i (some f) }
      setFile f fun x => { x with refcount := int32 (x.refcount + 1) }
      copyFiles cur p n (i + 1)

/-- `sys_fork` from the copy of the address space on: `cur` forks, into the slot `p`. -/
def forkSpace (cur p : Nat) : Act KState Int := do
  let pgdir ← onMm (allocVm (← Act.gets KState.kpgdir))
  setProc p fun r => { r with pgdir := pgdir }
  if pgdir = 0 then return -1
  else do
    let dir ← Act.gets fun k => (k.procs cur).pgdir
    let r ← onMm (sharePages dir pgdir (turns utext (ustacktop - pageSize)) utext)
    if r < 0 then return r
    else do
      onMm (copyStack pgdir)
      copyFiles cur p maxOpenFile 0
      setProc p fun r => { r with status := .runnable }
      Act.gets fun k => ((k.procs p).pid : Int)

/-- `sys_fork`. -/
def sysFork : Act KState Int := do
  let p ← allocProc
  let cur ← currentProc
  let pregs ← Act.gets fun k => (k.procs cur).pregs
  setProc p fun r => { r with pregs := { pregs with rax := 0 } }
  forkSpace cur p

/-! ## Waiting -/

/-- One turn of the loop of `sys_waitpid`, which is over once the process has
stopped; `schedule` only comes back from `hlt`, to another turn. -/
def waitpidTurn (pid : Nat) : Act KState (Ctl Int) := do
  let status ← Act.gets fun k => (k.procs pid).status
  if status = .stop then return .ret pid
  else do
    match ← schedule with
    | .ret _ => return .halt
    | .run p => return .run p
    | .halt => return .halt

/-- `sys_waitpid`. -/
def sysWaitpid (pid : Int) : Act KState (Ctl Int) :=
  if pid > maxProc ∨ pid < 0 then return .ret (-1) else waitpidTurn pid.toNat

end Myos.Kernel
