import Myos.Kernel.Descriptors
import Myos.Kernel.Exec
import Myos.Kernel.Fault
import Myos.Kernel.GuestMemory

/-!
# System calls, from the library to the kernel

`kernel/syscall.c`, `do_trap` of `kernel/amd64/trap.c`, and the stubs of
`lib/syscall.c`, which put a number and the arguments in registers and raise
trap 20. `sys_run_vm`, which hands the processor to the guest, is a parameter,
and so is what a call makes of a descriptor outside `fdtable` (`Services`).

`close` does not close: the stub passes zeros instead of the descriptor, and
`do_syscall` has no case for its number.
-/

namespace Myos.Kernel

open Myos.Lib

/-! ## Dispatch -/

def nrExit : Nat := 1
def nrFork : Nat := 2
def nrRead : Nat := 3
def nrWrite : Nat := 4
def nrOpen : Nat := 5
def nrClose : Nat := 6
def nrWaitpid : Nat := 7
def nrExecve : Nat := 8
def nrLseek : Nat := 9
def nrYield : Nat := 11
def nrOpencons : Nat := 100
def nrAllocVmMem : Nat := 101
def nrCreateVcpu : Nat := 102
def nrRunVm : Nat := 103
def nrMmapMem : Nat := 104
def nrTprintf : Nat := 105

/-- What the calls find that is not in the state: the stack of `sys_execve`, the
processor's revision of its VM state, what stands beside `fdtable`, and the guest. -/
structure Services where
  binary : Nat
  pfile : File
  basicMsr : Nat
  stray : Stray
  sysRunVm : Act KState Int

/-- A call that returns. -/
def returns {α : Type} (x : Act KState α) : Act KState (Ctl α) := do return .ret (← x)

/-- A call of `schedule`, after which the function returns `a`. -/
def thenReturn {α : Type} (a : α) (c : Ctl Unit) : Ctl α :=
  match c with
  | .ret _ => .ret a
  | .run p => .run p
  | .halt => .halt

/-- `sys_yield`. -/
def sysYield : Act KState (Ctl Int) := do return thenReturn 0 (← schedule)

/-- `sys_create_vcpu`, in the kernel. What it sets in the processor's VM state is not read
by any call but `sys_run_vm`. -/
def createVcpu (basicMsr : Nat) : Act KState Int := do
  let pgdir ← onMm (sysCreateVcpu basicMsr)
  Act.modify fun k => { k with eptPgdir := pgdir }
  return 0

/-- `sys_alloc_vm_mem`, in the kernel. In the last page of the addresses the counter of its
second loop wraps, and the loop does not end. -/
def allocVmMem (phys : Nat) : Act KState Int := do
  let pgdir ← Act.gets KState.eptPgdir
  if 2 ^ 64 - pageSize < phys then Act.stop else onMm (sysAllocVmMem pgdir phys)

/-- `sys_mmap_mem`, in the kernel. -/
def mmapMem (addr length gpa : Nat) (prot : Int) : Act KState Int := do
  let pgdir ← Act.gets KState.eptPgdir
  onMm (sysMmapMem pgdir addr length gpa prot)

/-- `do_syscall`; an argument is taken for an `int` or an `unsigned int` where
the handler has one. -/
def doSyscall (h : Services) (num p0 p1 p2 p3 : Nat) : Act KState (Ctl Int) :=
  if num = nrOpen then returns (sysOpen p0)
  else if num = nrRead then returns (sysRead h.stray (int32 p0) p1 (u32 p2))
  else if num = nrWrite then returns (sysWrite h.stray (int32 p0) p1 (u32 p2))
  else if num = nrFork then returns sysFork
  else if num = nrYield then sysYield
  else if num = nrExit then sysExit
  else if num = nrExecve then sysExecve h.binary h.pfile p0
  else if num = nrWaitpid then sysWaitpid (int32 p0)
  else if num = nrLseek then returns (sysLseek h.stray (int32 p0) (int32 p1))
  else if num = nrTprintf then return .ret 0
  else if num = nrOpencons then returns sysOpencons
  else if num = nrAllocVmMem then returns (allocVmMem p0)
  else if num = nrCreateVcpu then returns (createVcpu h.basicMsr)
  else if num = nrRunVm then returns h.sysRunVm
  else if num = nrMmapMem then returns (mmapMem p0 p1 p2 (int32 p3))
  else return .ret 0

/-! ## Traps -/

/-- `kbd_handler`; `data` is what the scancodes the keyboard holds are translated to. -/
def kbdHandler (data : List UInt8) : Act KState Unit :=
  Act.modify fun k => { k with kbs := data.foldl (fun s b => addKbdata b s) k.kbs }

/-- The first lines of `do_trap`: the frame is copied into the record of `current`. -/
def saveFrame (pt : PtRegs) : Act KState Unit := do
  match ← Act.gets KState.current with
  | none => return ()
  | some p => setProc p fun r => { r with pregs := pt }

/-- `do_trap`, with what the processor and the devices have for it: `cr2`, and
the bytes of the keyboard. Where it returns, the frame is the one `iretq`
takes; a fault in the kernel ends in the `hlt` of `panic`. -/
def doTrap (h : Services) (cr2 : Nat) (data : List UInt8) (pt : PtRegs) :
    Act KState (Ctl PtRegs) := do
  saveFrame pt
  let trapno := u32 pt.num
  if trapno = 0x20 then return thenReturn pt (← schedule)
  else if trapno = 0x21 then do
    kbdHandler data
    return .ret pt
  else if trapno = 14 then
    if pt.errCode &&& pfecU = 0 then return .halt
    else do
      let pgdir ← Act.gets fun k => k.current.map fun p => (k.procs p).pgdir
      onMm (pageFault pgdir cr2 pt.errCode)
      return .ret pt
  else if trapno = 20 then do
    match ← doSyscall h (u32 pt.rax) pt.rbx pt.rcx pt.rdx pt.rsi with
    | .ret r => return .ret { pt with rax := (r % 2 ^ 64).toNat }
    | .run p => return .run p
    | .halt => return .halt
  else return .halt

/-! ## The library -/

/-- `syscall`: the registers at `int $20`, the others being those of `pt`. -/
def syscallFrame (num p0 p1 p2 p3 p4 : Nat) (pt : PtRegs) : PtRegs :=
  { pt with num := 20, rax := num, rbx := p0, rcx := p1, rdx := p2, rsi := p3, rdi := p4 }

/-- `close`, from the registers `pt` of the caller: the trap it raises. -/
def closeFrame (_fd : Int) (pt : PtRegs) : PtRegs := syscallFrame nrClose 0 0 0 0 0 pt

/-- A call of the library's `close`: the value it returns. -/
def userClose (h : Services) (fd : Int) (pt : PtRegs) : Act KState (Ctl Int) := do
  match ← doTrap h 0 [] (closeFrame fd pt) with
  | .ret pt => return .ret (int32 pt.rax)
  | .run p => return .run p
  | .halt => return .halt

/-! ## What a call of `close` comes to -/

/-- The state in which a frame of the running process was saved. -/
def KState.saved (k : KState) (p : Nat) (pt : PtRegs) : KState :=
  k.setProc p { k.procs p with pregs := pt }

section Close

variable {h : Services} {k : KState} {p f : Nat} {fd : Int}

theorem saveFrame_ok {pt : PtRegs} (hcur : k.current = some p) :
    saveFrame pt k = .ok () (k.saved p pt) := by
  unfold saveFrame
  rw [Act.gets_bind_apply, hcur]
  rfl

/-- There is no case for the number of `close`. -/
theorem doSyscall_close (p0 p1 p2 p3 : Nat) :
    doSyscall h nrClose p0 p1 p2 p3 = (pure (.ret 0) : Act KState (Ctl Int)) := rfl

/-- A call of `close` returns nought, and the caller's registers are saved. -/
theorem userClose_run (hcur : k.current = some p) (fd : Int) (pt : PtRegs) :
    userClose h fd pt k = .ok (.ret 0) (k.saved p (closeFrame fd pt)) := by
  have hnum : u32 (closeFrame fd pt).num = 20 := by
    show u32 20 = 20
    decide
  have hrax : u32 (closeFrame fd pt).rax = nrClose := by
    show u32 6 = 6
    decide
  have htrap : doTrap h 0 [] (closeFrame fd pt) k =
      .ok (.ret { closeFrame fd pt with rax := 0 }) (k.saved p (closeFrame fd pt)) := by
    unfold doTrap
    rw [Act.bind_ok (saveFrame_ok hcur)]
    simp only [hnum, hrax]
    rw [if_neg (by decide), if_neg (by decide), if_neg (by decide), if_pos trivial,
      doSyscall_close]
    rfl
  have hzero : int32 ((0 : Nat) : Int) = 0 := by decide
  unfold userClose
  rw [Act.bind_ok htrap]
  simp only [hzero]
  rfl

end Close

/-- What a call of `close` for an open descriptor should come to: the
descriptor is free and the file has a reference less, a second call fails and
changes nothing, and no other descriptor is affected. -/
def Closes (h : Services) (k : KState) (p : Nat) (fd : Nat) (f : Nat) (pt : PtRegs) : Prop :=
  ∃ r k', userClose h fd pt k = .ok (.ret r) k' ∧ (k'.procs p).fdtable fd = none ∧
    (k'.filetable f).refcount = (k.filetable f).refcount - 1 ∧
    (∀ q i, (q, i) ≠ (p, fd) → (k'.procs q).fdtable i = (k.procs q).fdtable i) ∧
    ∃ r' k'', userClose h fd pt k' = .ok (.ret r') k'' ∧ r' < 0 ∧
      k''.filetable = k'.filetable ∧ ∀ q, (k''.procs q).fdtable = (k'.procs q).fdtable

/-- CLOSE: it never comes to that, whatever the state and the descriptor. -/
theorem close_never {h : Services} {k : KState} {p fd f : Nat} (pt : PtRegs)
    (hcur : k.current = some p) (hfd : (k.procs p).fdtable fd = some f) :
    ¬ Closes h k p fd f pt := by
  rintro ⟨r, k', hrun, hnone, -⟩
  rw [userClose_run hcur] at hrun
  cases hrun
  have hkept : ((k.saved p (closeFrame fd pt)).procs p).fdtable fd = some f := by
    rw [KState.saved, KState.setProc_self]
    exact hfd
  exact Option.some_ne_none f (hkept.symm.trans hnone)

/-- Nothing of note anywhere. -/
def Services.idle : Services where
  binary := 0
  pfile := {}
  basicMsr := 0
  stray := ⟨fun _ _ _ => return -1, fun _ _ _ => return -1, fun _ offset => return offset⟩
  sysRunVm := return 0

/-- The console is open as descriptor 0, and stays open. -/
theorem close_oneOpen : ¬ ∀ h k p fd f pt, k.current = some p → fd < maxOpenFile →
    (k.procs p).fdtable fd = some f → Closes h k p fd f pt := by
  intro hall
  obtain ⟨r, k', hrun, hnone, -⟩ := hall Services.idle oneOpen 0 0 0 {} rfl (by decide) rfl
  rw [userClose_run (p := 0) rfl] at hrun
  cases hrun
  have hkept : ((oneOpen.saved 0 (closeFrame (0 : Nat) {})).procs 0).fdtable 0 = some 0 := by
    rw [KState.saved, KState.setProc_self]
    rfl
  exact Option.some_ne_none 0 (hkept.symm.trans hnone)

theorem close_never_oneOpen : ¬ Closes Services.idle oneOpen 0 0 0 {} :=
  close_never {} rfl rfl

end Myos.Kernel
