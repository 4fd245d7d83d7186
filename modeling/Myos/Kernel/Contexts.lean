import Myos.Lib.Turns
import Myos.Kernel.Schedule
import Myos.Kernel.Steady

/-!
# Saved registers

`do_trap`, `run_proc` and what lies between them, as the processes see it. One register
file and one directory register are shared: `do_trap` copies the frame into the record of
`current`, and `run_proc` loads the frame and the directory of another record. Seen from
outside every process has registers and a directory of its own (`Machine.view`), which move
on its own turns only.

Traps come from user mode, one after the other, and end before the next. That is so while
interrupts stay away, as they do behind the gates of the interrupts and of system calls; the
gate of page faults lets them in, and a run in which one comes is not one of these. Neither
is one in which a process leaves its memory or its descriptors, or calls `sys_run_vm`, which
takes interrupts and comes back on the directory of whoever made the guest (`Trap.Mannered`).
-/

namespace Myos.Kernel

open Myos.Lib
open Myos.Lib.Act (Leaves)

/-! ## What the calls on files leave alone -/

/-- The processes without their descriptors, who runs, and on which directory. -/
structure Tasks where
  current : Option Nat
  procHead : Option Nat
  proc : Nat → Proc
  cr3 : Nat

def KState.tasks (k : KState) : Tasks where
  current := k.current
  procHead := k.procHead
  proc := fun p => { k.procs p with fdtable := fun _ => none }
  cr3 := k.mm.cr3

section Calls

variable {k k' : KState} {ω : Type} {obs : KState → ω}

theorem KState.tasks_setFds (k : KState) (p : Nat) (fds : Nat → Option Nat) :
    (k.setProc p { k.procs p with fdtable := fds }).tasks = k.tasks := by
  have hproc : ∀ q, { (k.setProc p { k.procs p with fdtable := fds }).procs q with
      fdtable := fun _ => none } = ({ k.procs q with fdtable := fun _ => none } : Proc) := by
    intro q
    rw [KState.setProc_procs]
    split
    · next hq => rw [hq]
    · rfl
  unfold KState.tasks
  rw [KState.setProc_current, KState.setProc_procHead, KState.setProc_mm]
  exact congrArg (fun f => Tasks.mk k.current k.procHead f k.mm.cr3) (funext hproc)

theorem setFd_leaves (p fd : Nat) (f : Option Nat) : Leaves KState.tasks (setFd p fd f) :=
  fun k => KState.tasks_setFds k p _

theorem setFile_leaves (i : Nat) (f : File → File) : Leaves KState.tasks (setFile i f) :=
  fun _ => rfl

theorem KState.tasks_fs {fs : Fs} (h : fs.mm.cr3 = k.fs.mm.cr3) :
    KState.tasks { k with fs := fs } = k.tasks := by
  show Tasks.mk _ _ _ fs.mm.cr3 = _
  rw [h]
  rfl

theorem onMm_leaves {α : Type} {x : Act Mm α} (hx : Leaves Mm.cr3 x) :
    Leaves KState.tasks (onMm x) := Leaves.zoom (fun _ _ h => KState.tasks_fs h) hx

theorem onFile_leaves {α : Type} {x : Act FileSt α} (hx : Leaves (fun s => s.fs.mm.cr3) x)
    (f : Nat) : Leaves KState.tasks (onFile f x) :=
  Leaves.zoom (fun s k h => KState.tasks_fs (k :=
    { k with filetable := Function.update k.filetable f s.file }) h) hx

theorem onLocalFile_leaves {α : Type} {x : Act FileSt α} (hx : Leaves (fun s => s.fs.mm.cr3) x)
    (pfile : File) : Leaves KState.tasks (onLocalFile pfile x) :=
  Leaves.zoom (fun _ _ h => KState.tasks_fs h) hx

theorem currentProc_leaves : Leaves obs currentProc :=
  Leaves.bind (Leaves.gets _) fun o => Leaves.deref o

theorem allocfd_leaves : Leaves obs allocfd := by
  have hloop : ∀ p n i, Leaves obs (allocfdLoop p n i) := by
    intro p n
    induction n with
    | zero => exact fun _ => Leaves.pure _
    | succ n ih =>
      intro i
      refine Leaves.bind (Leaves.gets _) fun o => ?_
      cases o with
      | none => exact Leaves.pure _
      | some f => exact ih (i + 1)
  exact Leaves.bind currentProc_leaves fun p => hloop p _ 0

theorem allocfile_leaves : Leaves KState.tasks allocfile := by
  have hloop : ∀ n i, Leaves KState.tasks (allocfileLoop n i) := by
    intro n
    induction n with
    | zero => exact fun _ => Leaves.pure _
    | succ n ih =>
      exact fun i => Leaves.bind (Leaves.gets _) fun _ => Leaves.ite
        (Leaves.bind (setFile_leaves i _) fun _ => Leaves.pure _) (ih (i + 1))
  exact hloop maxFile 0

/-- The end of a call that opens. -/
theorem opened_leaves (f fd : Nat) (g : File → File) : Leaves KState.tasks (do
    setFile f g
    setFd (← currentProc) fd (some f)
    return (fd : Int)) :=
  Leaves.bind (setFile_leaves f g) fun _ => Leaves.bind currentProc_leaves fun p =>
    Leaves.bind (setFd_leaves p fd _) fun _ => Leaves.pure _

theorem sysOpencons_leaves : Leaves KState.tasks sysOpencons := by
  refine Leaves.bind allocfd_leaves fun r => Leaves.ite (Leaves.pure _) ?_
  refine Leaves.bind allocfile_leaves fun o => ?_
  cases o with
  | none => exact Leaves.pure _
  | some f => exact opened_leaves f _ _

theorem sysOpen_leaves (fname : Nat) : Leaves KState.tasks (sysOpen fname) := by
  refine Leaves.bind (onMm_leaves (Steady.printStr fname)) fun _ => ?_
  refine Leaves.bind allocfd_leaves fun r => Leaves.ite (Leaves.pure _) ?_
  refine Leaves.bind allocfile_leaves fun o => ?_
  cases o with
  | none => exact Leaves.pure _
  | some f =>
    exact Leaves.bind (onFile_leaves (steady_cr3.fileOpen fname) f) fun r =>
      Leaves.ite (Leaves.pure _) (opened_leaves f _ _)

theorem fdFile_leaves (fd : Int) : Leaves obs (fdFile fd) :=
  Leaves.bind currentProc_leaves fun _ => Leaves.gets _

theorem consRead_leaves (buf count : Nat) : Leaves KState.tasks (consRead buf count) := by
  have hloop : ∀ n i buf, Leaves KState.tasks (consReadLoop n i buf) := by
    intro n
    induction n with
    | zero => exact fun _ _ => Leaves.pure _
    | succ n ih =>
      exact fun i buf => Leaves.bind (fun _ => rfl) fun _ => Leaves.ite (Leaves.pure _)
        (Leaves.bind (onMm_leaves (steady_cr3.store 1 buf _)) fun _ => ih _ _)
  exact hloop count 0 buf

theorem consWrite_leaves (buf count : Nat) : Leaves KState.tasks (consWrite buf count) := by
  have hloop : ∀ n i buf, Leaves KState.tasks (consWriteLoop n i buf) := by
    intro n
    induction n with
    | zero => exact fun _ _ => Leaves.pure _
    | succ n ih =>
      exact fun i buf => Leaves.bind (onMm_leaves (Steady.load 1 buf)) fun _ => ih _ _
  exact hloop count 0 buf

theorem sysRead_leaves (w : Stray) {fd : Int} (hfd : 0 ≤ fd ∧ fd < maxOpenFile) (buf count : Nat) :
    Leaves KState.tasks (sysRead w fd buf count) := by
  unfold sysRead
  rw [if_pos hfd]
  refine Leaves.bind (fdFile_leaves fd) fun o => Leaves.bind (Leaves.deref o) fun f =>
    Leaves.bind (Leaves.gets _) fun offset => Leaves.bind (Leaves.gets _) fun t => ?_
  cases t with
  | file => exact onFile_leaves (steady_cr3.fileReadLoop _ _ _ _ _ _) f
  | cons => exact consRead_leaves buf count
  | unknown => exact Leaves.pure _

theorem sysWrite_leaves (w : Stray) {fd : Int} (hfd : 0 ≤ fd ∧ fd < maxOpenFile) (buf count : Nat) :
    Leaves KState.tasks (sysWrite w fd buf count) := by
  unfold sysWrite
  rw [if_pos hfd]
  refine Leaves.bind (fdFile_leaves fd) fun o => Leaves.bind (Leaves.deref o) fun f =>
    Leaves.bind (Leaves.gets _) fun t => ?_
  cases t with
  | file =>
    exact onFile_leaves (Leaves.bind (Leaves.gets _) fun _ =>
      steady_cr3.fileWriteLoop _ _ _ _ _ _) f
  | cons => exact consWrite_leaves buf count
  | unknown => exact Leaves.pure _

theorem sysLseek_leaves (w : Stray) {fd : Int} (hfd : 0 ≤ fd ∧ fd < maxOpenFile) (offset : Int) :
    Leaves KState.tasks (sysLseek w fd offset) := by
  unfold sysLseek
  rw [if_pos hfd]
  refine Leaves.bind (fdFile_leaves fd) fun o => ?_
  cases o with
  | none => exact Leaves.pure _
  | some f =>
    exact Leaves.bind (Leaves.gets _) fun inode => Leaves.bind (onMm_leaves (Steady.load 4 _))
      fun _ => Leaves.bind (setFile_leaves f _) fun _ => Leaves.pure _

/-- The calls that give the guest memory leave the processes alone. -/
theorem createVcpu_leaves (basicMsr : Nat) : Leaves KState.tasks (createVcpu basicMsr) :=
  Leaves.bind (onMm_leaves (steady_cr3.sysCreateVcpu basicMsr)) fun _ =>
    Leaves.bind (Leaves.modify fun _ => rfl) fun _ => Leaves.pure _

theorem allocVmMem_leaves (phys : Nat) : Leaves KState.tasks (allocVmMem phys) :=
  Leaves.bind (Leaves.gets _) fun _ =>
    Leaves.ite Leaves.stop (onMm_leaves (steady_cr3.sysAllocVmMem _ phys))

theorem mmapMem_leaves (addr length gpa : Nat) (prot : Int) :
    Leaves KState.tasks (mmapMem addr length gpa prot) :=
  Leaves.bind (Leaves.gets _) fun _ => onMm_leaves (steady_cr3.sysMmapMem _ _ _ _ _)

/-- The fork sets up another directory than the one in use. -/
theorem sysFork_leaves : Leaves (fun k : KState => k.mm.cr3) sysFork := by
  have hMm : ∀ {α : Type} {x : Act Mm α}, Leaves Mm.cr3 x →
      Leaves (fun k : KState => k.mm.cr3) (onMm x) := fun hx => by
    unfold onMm
    refine Leaves.zoom ?_ hx
    exact fun _ _ h => h
  have hset : ∀ p f, Leaves (fun k : KState => k.mm.cr3) (setProc p f) := fun _ _ _ => rfl
  have hfiles : ∀ cur p n i, Leaves (fun k : KState => k.mm.cr3) (copyFiles cur p n i) :=
    fun cur p n i k => by
      obtain ⟨k', hrun, honly⟩ := copyFiles_run cur p n i k
      rw [hrun]
      exact congrArg Mm.cr3 honly.mm
  refine Leaves.bind (Leaves.bind (Leaves.gets _) fun o => Leaves.bind (Leaves.deref o) fun p =>
    Leaves.bind (fun _ => rfl) fun _ => Leaves.bind (hset p _) fun _ => Leaves.pure p) fun p => ?_
  refine Leaves.bind currentProc_leaves fun cur => Leaves.bind (Leaves.gets _) fun pregs =>
    Leaves.bind (hset p _) fun _ => ?_
  refine Leaves.bind (Leaves.gets _) fun kpgdir => Leaves.bind (hMm (steady_cr3.allocVm _))
    fun pgdir => Leaves.bind (hset p _) fun _ => Leaves.ite (Leaves.pure _) ?_
  refine Leaves.bind (Leaves.gets _) fun dir => Leaves.bind (hMm (steady_cr3.sharePages _ _ _ _))
    fun r => Leaves.ite (Leaves.pure _) ?_
  exact Leaves.bind (hMm (steady_cr3.copyStack _)) fun _ => Leaves.bind (hfiles cur p _ _) fun _ =>
    Leaves.bind (hset p _) fun _ => Leaves.gets _

end Calls

/-! ## The machine -/

/-- The kernel, and the registers of the process that runs; none where the processor is
in `hlt`. -/
structure Machine where
  k : KState
  user : Option PtRegs

/-- A trap: the frame that was pushed, and what the processor and the keyboard have for it. -/
structure Trap where
  pt : PtRegs
  cr2 : Nat
  data : List UInt8

/-- A system call of the number `nr`. -/
def PtRegs.Calls (pt : PtRegs) (nr : Nat) : Prop := u32 pt.num = 20 ∧ u32 pt.rax = nr

/-- The process keeps to what is its own: an address that faults is in its memory, and a
buffer that is read into; a descriptor is in its table; what it copies to a guest ends in the
page it starts in; and it does not hand the processor to the guest. -/
structure Trap.Mannered (e : Trap) : Prop where
  fault : u32 e.pt.num = 14 → e.cr2 < ustacktop
  read : e.pt.Calls nrRead → e.pt.rcx + u32 e.pt.rdx ≤ ustacktop
  fd : e.pt.Calls nrRead ∨ e.pt.Calls nrWrite ∨ e.pt.Calls nrLseek →
    0 ≤ int32 e.pt.rbx ∧ int32 e.pt.rbx < maxOpenFile
  mmap : e.pt.Calls nrMmapMem → FitsPage e.pt.rdx e.pt.rcx
  runVm : ¬ e.pt.Calls nrRunVm

/-- A trap that is no system call is mannered if its address is. -/
theorem Trap.mannered_of_num {e : Trap} (h : u32 e.pt.num ≠ 20)
    (hfault : u32 e.pt.num = 14 → e.cr2 < ustacktop) : e.Mannered where
  fault := hfault
  read hcall := absurd hcall.1 h
  fd hcall := by
    rcases hcall with hcall | hcall | hcall
    · exact absurd hcall.1 h
    · exact absurd hcall.1 h
    · exact absurd hcall.1 h
  mmap hcall := absurd hcall.1 h
  runVm hcall := absurd hcall.1 h

/-- Where the processor goes on: after the trap, or at the end of `run_proc`. -/
def Ctl.frame (k : KState) : Ctl PtRegs → Option PtRegs
  | .ret pt => some pt
  | .run p => some (k.procs p).pregs
  | .halt => none

/-- Who has the processor after a trap of `p`. -/
def Ctl.to {α : Type} (p : Nat) : Ctl α → Option Nat
  | .ret _ => some p
  | .run q => some q
  | .halt => none

/-- The process that has the processor. -/
def Machine.on (m : Machine) : Option Nat := m.user.bind fun _ => m.k.current

/-- The process that runs traps, and the kernel sees to it. -/
def trapStep (h : Services) (m : Machine) (e : Trap) (m' : Machine) : Prop :=
  m.on ≠ none ∧ e.Mannered ∧
    ∃ c, doTrap h e.cr2 e.data e.pt m.k = .ok c m'.k ∧ m'.user = c.frame m'.k

/-! ## Everyone's own -/

/-- What a process has of the processor. -/
structure Context where
  regs : PtRegs
  dir : Nat

/-- The context in the record of a process. -/
def KState.context (k : KState) (p : Nat) : Context := ⟨(k.procs p).pregs, kva2pa (k.procs p).pgdir⟩

/-- The processes as they see themselves: who runs has its context in the processor, the
others have theirs in their records. -/
def Machine.view (m : Machine) : Bank Nat Context where
  live := m.k.Live
  own := fun q => if m.on = some q then ⟨m.user.getD {}, m.k.mm.cr3⟩ else m.k.context q
  on := m.on

/-- The registers with which a process that trapped goes on. -/
inductive Resumes (pt : PtRegs) : PtRegs → Prop
  | same : Resumes pt pt
  | result (r : Nat) (call : u32 pt.num = 20) : Resumes pt { pt with rax := r }
  | program (entry : Nat) (call : pt.Calls nrExecve) :
      Resumes pt { pt with rsp := ustacktop, rip := entry }

/-- A trap, for processes that have a processor each: who trapped goes on, or waits with the
registers of the trap, and a process that comes to be has those of its parent but for
`rax`. The directories stay. -/
def ownStep (b : Bank Nat Context) (e : Trap) (b' : Bank Nat Context) : Prop :=
  ∃ p, Bank.Turn p (fun c => Resumes e.pt c.regs ∧ c.dir = (b.own p).dir)
    ⟨e.pt, (b.own p).dir⟩ (fun c => e.pt.Calls nrFork ∧ c.regs = { e.pt with rax := 0 }) b b'

theorem ownStep_isTurn : Bank.IsTurn ownStep := by
  rintro b e b' ⟨p, hturn⟩
  exact ⟨p, _, _, _, hturn⟩

/-! ## What a trap comes to -/

/-- The slots are in order, and the directory in use is that of the process that runs. -/
structure Machine.Sound (m : Machine) : Prop where
  slots : ∃ l, SlotInv m.k l
  cr3 : ∀ p, m.on = some p → m.k.mm.cr3 = (m.k.context p).dir

/-- What the kernel made of a trap of `p` with the frame `pt`. -/
structure Handled (pt : PtRegs) (p : Nat) (k : KState) (c : Ctl PtRegs) (k' : KState) : Prop where
  slots : ∃ l, SlotInv k' l
  others : ∀ q, q ≠ p → k.Live q → k'.Live q ∧ k'.context q = k.context q
  dir : k'.Live p → (k'.context p).dir = (k.context p).dir
  waits : c.to p ≠ some p → k'.Live p → (k'.procs p).pregs = pt
  goes : c.to p = some p → ∃ pt', c.frame k' = some pt' ∧ Resumes pt pt'
  born : ∀ q, ¬ k.Live q → k'.Live q → pt.Calls nrFork ∧ (k'.procs q).pregs = { pt with rax := 0 }
  current : ∀ q, c.to p = some q → k'.current = some q
  cr3 : ∀ q, c.to p = some q → k'.mm.cr3 = (k'.context q).dir

section Handled

variable {pt pt' : PtRegs} {p q : Nat} {k k' : KState} {l : List Nat}

/-- The same tasks have the same records, up to the descriptors. -/
theorem KState.tasks_proc (h : k'.tasks = k.tasks) (q : Nat) :
    { k'.procs q with fdtable := fun _ => none } =
      ({ k.procs q with fdtable := fun _ => none } : Proc) :=
  congrFun (congrArg Tasks.proc h) q

theorem KState.tasks_live (h : k'.tasks = k.tasks) : k'.Live q ↔ k.Live q := by
  unfold KState.Live
  rw [(congrArg Proc.status (KState.tasks_proc h q) :)]

theorem KState.tasks_pregs (h : k'.tasks = k.tasks) : (k'.procs q).pregs = (k.procs q).pregs :=
  (congrArg Proc.pregs (KState.tasks_proc h q) :)

theorem KState.tasks_context (h : k'.tasks = k.tasks) : k'.context q = k.context q := by
  unfold KState.context
  rw [KState.tasks_pregs h, (congrArg Proc.pgdir (KState.tasks_proc h q) :)]

/-- The slots are those of before. -/
theorem SlotInv.tasks (h : SlotInv k l) (htasks : k'.tasks = k.tasks) : SlotInv k' l := by
  have hcurrent : k'.current = k.current := (congrArg Tasks.current htasks :)
  refine ⟨h.toListed.congr (congrArg Tasks.procHead htasks :)
    (fun p => (congrArg Proc.link (KState.tasks_proc htasks p) :))
    (fun p => (congrArg Proc.status (KState.tasks_proc htasks p) :))
    (fun p => (congrArg Proc.pid (KState.tasks_proc htasks p) :)), fun {p} hp => ?_⟩
  rw [hcurrent] at hp
  exact (KState.tasks_live htasks).mpr (h.current hp)

/-- A process traps: its frame is in its record. -/
structure Trapped (pt : PtRegs) (p : Nat) (k : KState) : Prop where
  slots : ∃ l, SlotInv k l
  current : k.current = some p
  cr3 : k.mm.cr3 = (k.context p).dir
  pregs : (k.procs p).pregs = pt

/-- RETURN: the kernel did nothing to the processes, and returns. -/
theorem Trapped.continues (h : Trapped pt p k) (htasks : k'.tasks = k.tasks)
    (hgoes : Resumes pt pt') : Handled pt p k (.ret pt') k' where
  slots := by
    obtain ⟨l, hl⟩ := h.slots
    exact ⟨l, hl.tasks htasks⟩
  others q _ hq := ⟨(KState.tasks_live htasks).mpr hq, KState.tasks_context htasks⟩
  dir _ := by rw [KState.tasks_context htasks]
  waits hto := absurd rfl hto
  goes _ := ⟨pt', rfl, hgoes⟩
  born q hq hq' := absurd ((KState.tasks_live htasks).mp hq') hq
  current q hto := by
    cases hto
    exact (congrArg Tasks.current htasks :).trans h.current
  cr3 q hto := by
    cases hto
    rw [KState.tasks_context htasks, ← h.cr3]
    exact (congrArg Tasks.cr3 htasks :)

/-- The kernel stops in `hlt`; the processes are as they were. -/
theorem Trapped.halts (h : Trapped pt p k) (hinv : ∃ l, SlotInv k' l)
    (hprocs : k'.procs = k.procs) : Handled pt p k .halt k' := by
  have hlive : ∀ q, k'.Live q ↔ k.Live q := fun q => by rw [KState.Live, hprocs, KState.Live]
  have hcontext : ∀ q, k'.context q = k.context q := fun q => by
    rw [KState.context, hprocs, KState.context]
  exact {
    slots := hinv
    others := fun q _ hq => ⟨(hlive q).mpr hq, hcontext q⟩
    dir := fun _ => by rw [hcontext]
    waits := fun _ _ => by rw [hprocs, h.pregs]
    goes := fun hto => absurd hto.symm (Option.some_ne_none p)
    born := fun q hq hq' => absurd ((hlive q).mp hq') hq
    current := fun q hto => absurd hto.symm (Option.some_ne_none q)
    cr3 := fun q hto => absurd hto.symm (Option.some_ne_none q) }

/-- SWITCH: another process gets the processor, or the same again. -/
theorem Trapped.switches (h : Trapped pt p k) (hq : k.Live q) :
    Handled pt p k (.run q) (k.running q) := by
  have hprocs := KState.running_procs k q
  have hlive : ∀ r, (k.running q).Live r ↔ k.Live r := fun r => by
    rw [KState.Live, hprocs, KState.Live]
  have hcontext : ∀ r, (k.running q).context r = k.context r := fun r => by
    rw [KState.context, hprocs, KState.context]
  obtain ⟨l, hl⟩ := h.slots
  exact {
    slots := ⟨l, .run hl.toListed hq⟩
    others := fun r _ hr => ⟨(hlive r).mpr hr, hcontext r⟩
    dir := fun _ => by rw [hcontext]
    waits := fun _ _ => by rw [hprocs, h.pregs]
    goes := fun hto => by
      have hqp : q = p := Option.some.inj hto
      refine ⟨pt, ?_, .same⟩
      show some ((k.running q).procs q).pregs = some pt
      rw [hprocs, hqp, h.pregs]
    born := fun r hr hr' => absurd ((hlive r).mp hr') hr
    current := fun r hto => (KState.running_current k q).trans hto
    cr3 := fun r hto => by
      rw [hcontext, ← Option.some.inj hto]
      rfl }

/-- SCHEDULE: a process is switched to, or there is none. -/
theorem Trapped.schedules {c : Ctl Unit} {α : Type} (a : α) (h : Trapped pt p k)
    (hrun : schedule k = .ok c k') :
    (∃ q, thenReturn a c = .run q ∧ Handled pt p k (.run q) k') ∨
      thenReturn a c = .halt ∧ Handled pt p k .halt k' := by
  obtain ⟨l, hl⟩ := h.slots
  have hpid : ∀ p, k.current = some p → (k.procs p).pid < maxProc := fun p hp => by
    have hlive := hl.current hp
    rw [hl.pid hlive]
    exact hl.live hlive
  rcases schedule_run hpid with ⟨q, hlive, hq⟩ | hnone
  · cases hrun.symm.trans hq
    exact .inl ⟨q, rfl, h.switches hlive⟩
  · cases hrun.symm.trans hnone
    have hidle : SlotInv { k with current := none } l :=
      ⟨hl.toListed.congr rfl (fun _ => rfl) (fun _ => rfl) fun _ => rfl, fun hp => by cases hp⟩
    exact .inr ⟨rfl, h.halts ⟨l, hidle⟩ rfl⟩

/-- A fork moves no record but that of the slot it takes. -/
theorem Forking.kept {r : Int} (h : Forking k p q r k') :
    (∀ x, x ≠ q → (k'.Live x ↔ k.Live x) ∧ k'.context x = k.context x) ∧
      (k'.procs q).pregs = { ((k.taken q).procs p).pregs with rax := 0 } ∧
      k'.current = k.current := by
  have hself : ∀ d m, ((k.forking p q d m).procs q).pregs =
      { ((k.taken q).procs p).pregs with rax := 0 } := fun d m => by
    rw [KState.forking, KState.setProc_self]
  cases h with
  | @noFrame m none =>
    refine ⟨fun x hx => ?_, hself 0 m, rfl⟩
    rw [KState.Live, KState.context, KState.forking_procs hx]
    exact ⟨Iff.rfl, rfl⟩
  | @forked d m₁ m k₁ dir ne files =>
    obtain ⟨k₂, hfiles, honly⟩ := copyFiles_run p q maxOpenFile 0 (k.forking p q d m)
    cases hfiles.symm.trans files
    refine ⟨fun x hx => ?_, ?_, honly.current⟩
    · rw [KState.Live, KState.context, KState.setProc_procs, if_neg hx, honly.status, honly.pregs,
        honly.pgdir, KState.forking_procs hx]
      exact ⟨Iff.rfl, rfl⟩
    · rw [KState.setProc_self, honly.pregs, hself d m]

/-- FORK: the parent goes on, and the process that comes to be has its registers. -/
theorem Trapped.forks (h : Trapped pt p k) (hcall : pt.Calls nrFork) {r : Int}
    (hrun : sysFork k = .ok r k') :
    Handled pt p k (.ret { pt with rax := (r % 2 ^ 64).toNat }) k' := by
  obtain ⟨p', q, hcur, hhead, hfork⟩ := sysFork_eq_ok hrun
  cases hcur.symm.trans h.current
  obtain ⟨l, hl⟩ := h.slots
  obtain ⟨q', l', hlist, hinv, -⟩ := hl.fork hrun
  obtain ⟨l'', rfl⟩ := hl.head hhead
  obtain ⟨hkept, hchild, hcurrent⟩ := hfork.kept
  have hdead : ¬ k.Live q := (hl.free List.mem_cons_self).2
  have hpq : p ≠ q := fun hpq => hdead (hpq ▸ hl.current h.current)
  have hpregs : ((k.taken q).procs p).pregs = pt := by
    rw [KState.taken, KState.setProc_procs, if_neg hpq]
    exact h.pregs
  exact {
    slots := ⟨l', hinv⟩
    others := fun x _ hx => by
      have hxq : x ≠ q := fun hxq => hdead (hxq ▸ hx)
      exact ⟨(hkept x hxq).1.mpr hx, (hkept x hxq).2⟩
    dir := fun _ => by rw [(hkept p hpq).2]
    waits := fun hto => absurd rfl hto
    goes := fun _ => ⟨_, rfl, .result _ hcall.1⟩
    born := fun x hx hx' => by
      have hxq : x = q := by
        by_contra hne
        exact hx ((hkept x hne).1.mp hx')
      rw [hxq, hchild, hpregs]
      exact ⟨hcall, rfl⟩
    current := fun x hto => by rw [hcurrent, h.current, ← hto, Ctl.to]
    cr3 := fun x hto => by
      rw [← Option.some.inj hto, (hkept p hpq).2, ← h.cr3]
      exact sysFork_leaves.of_ok hrun }

/-- EXIT: the process is gone, and another one is switched to if there is one. -/
theorem Trapped.exits (h : Trapped pt p k) {c : Ctl Int} (hrun : sysExit k = .ok c k') :
    (∃ q, c = .run q ∧ Handled pt p k (.run q) k') ∨ c = .halt ∧ Handled pt p k .halt k' := by
  obtain ⟨l, hl⟩ := h.slots
  have hinv := (hl.exit h.current hrun).1
  have hends : ∀ {m k₁}, releaseFiles p maxOpenFile 0 (k.ended p m) = .ok () k₁ → ∀ x, x ≠ p →
      (k₁.stopped p).procs x = k₁.procs x ∧ ((k₁.stopped p).Live x ↔ k.Live x) ∧
        (k₁.stopped p).context x = k.context x := by
    intro m k₁ hfiles x hx
    obtain ⟨k₂, hfiles', honly⟩ := releaseFiles_run p maxOpenFile 0 (k.ended p m)
    cases hfiles'.symm.trans hfiles
    have hprocs : (k₁.stopped p).procs x = k₁.procs x := by rw [KState.stopped_procs, if_neg hx]
    have hended : (k.ended p m).procs x = k.procs x := by
      rw [KState.ended, KState.setProc_procs, if_neg hx, KState.setMm_procs]
    refine ⟨hprocs, ?_, ?_⟩
    · rw [KState.Live, hprocs, honly.status, hended, KState.Live]
    · rw [KState.context, hprocs, honly.pregs, honly.pgdir, hended, KState.context]
  cases sysExit_eq_ok h.current hrun with
  | @run m k₁ q files runnable =>
    have hprocs := KState.running_procs (k₁.stopped p) q
    have hdead : ¬ ((k₁.stopped p).running q).Live p := by
      rw [KState.Live, hprocs]
      exact KState.stopped_dead k₁ p
    have hqp : q ≠ p := fun hqp => KState.stopped_dead k₁ p (hqp ▸ runnable)
    have hlive : ∀ x, ((k₁.stopped p).running q).Live x ↔ (k₁.stopped p).Live x := fun x => by
      rw [KState.Live, hprocs, KState.Live]
    have hcontext : ∀ x, ((k₁.stopped p).running q).context x = (k₁.stopped p).context x :=
      fun x => by rw [KState.context, hprocs, KState.context]
    exact .inl ⟨q, rfl, {
      slots := ⟨p :: l, hinv⟩
      others := fun x hx hlx => by
        obtain ⟨-, hlive', hcontext'⟩ := hends files x hx
        exact ⟨(hlive x).mpr (hlive'.mpr hlx), (hcontext x).trans hcontext'⟩
      dir := fun hp => absurd hp hdead
      waits := fun _ hp => absurd hp hdead
      goes := fun hto => absurd (Option.some.inj hto) hqp
      born := fun x hx hx' => by
        by_cases hxp : x = p
        · exact absurd (hxp ▸ hx') hdead
        · exact absurd ((hends files x hxp).2.1.mp ((hlive x).mp hx')) hx
      current := fun x hto => (KState.running_current _ q).trans hto
      cr3 := fun x hto => by
        rw [hcontext, ← Option.some.inj hto]
        rfl }⟩
  | @halt m k₁ files =>
    have hdead := KState.stopped_dead k₁ p
    exact .inr ⟨rfl, {
      slots := ⟨p :: l, hinv⟩
      others := fun x hx hlx => ⟨(hends files x hx).2.1.mpr hlx, (hends files x hx).2.2⟩
      dir := fun hp => absurd hp hdead
      waits := fun _ hp => absurd hp hdead
      goes := fun hto => absurd hto.symm (Option.some_ne_none p)
      born := fun x hx hx' => by
        by_cases hxp : x = p
        · exact absurd (hxp ▸ hx') hdead
        · exact absurd ((hends files x hxp).2.1.mp hx') hx
      current := fun x hto => absurd hto.symm (Option.some_ne_none x)
      cr3 := fun x hto => absurd hto.symm (Option.some_ne_none x) }⟩

/-- A program is entered: the registers of the process are set, and it goes on. -/
theorem Trapped.enters {k₁ : KState} {r : Proc} {entry : Nat} (h : Trapped pt p k)
    (hcall : pt.Calls nrExecve) (htasks : k₁.tasks = k.tasks)
    (hr : r = { k₁.procs p with
      pregs := { (k₁.procs p).pregs with rsp := ustacktop, rip := entry } }) :
    Handled pt p k (.run p) ((k₁.setProc p r).running p) := by
  obtain ⟨l, hl⟩ := h.slots
  have hl₁ := hl.tasks htasks
  have hlive : k₁.Live p := (KState.tasks_live htasks).mpr (hl.current h.current)
  have hprocs := KState.running_procs (k₁.setProc p r) p
  have hother : ∀ x, x ≠ p → ((k₁.setProc p r).running p).procs x = k₁.procs x := fun x hx => by
    rw [hprocs, KState.setProc_procs, if_neg hx]
  have hself : ((k₁.setProc p r).running p).procs p = r := by rw [hprocs, KState.setProc_self]
  have hsame : ∀ {α : Type} (f : Proc → α), f r = f (k₁.procs p) →
      ∀ x, f ((k₁.setProc p r).procs x) = f (k₁.procs x) := fun f hf x => by
    rw [KState.setProc_procs]
    split
    · next hx => rw [hf, hx]
    · rfl
  have hset : Listed (k₁.setProc p r) l := hl₁.toListed.congr rfl
    (hsame Proc.link (by rw [hr])) (hsame Proc.status (by rw [hr])) (hsame Proc.pid (by rw [hr]))
  have hset_live : (k₁.setProc p r).Live p := by
    rw [KState.Live, KState.setProc_self, hr]
    exact hlive
  exact {
    slots := ⟨l, .run hset hset_live⟩
    others := fun x hx hlx => by
      rw [KState.Live, KState.context, hother x hx, ← KState.tasks_context htasks]
      exact ⟨(KState.tasks_live htasks).mpr hlx, rfl⟩
    dir := fun _ => by
      rw [← KState.tasks_context htasks, KState.context, hself, hr]
      rfl
    waits := fun hto => absurd rfl hto
    goes := fun _ => by
      refine ⟨_, rfl, ?_⟩
      rw [hself, hr, KState.tasks_pregs htasks, h.pregs]
      exact .program entry hcall
    born := fun x hx hx' => by
      have hxp : x ≠ p := fun hxp => hx (hxp ▸ hl.current h.current)
      rw [KState.Live, hother x hxp] at hx'
      exact absurd ((KState.tasks_live htasks).mp hx') hx
    current := fun x hto => (KState.running_current _ p).trans hto
    cr3 := fun x hto => by
      rw [← Option.some.inj hto, KState.context, hprocs]
      rfl }

/-- EXECVE: the process goes on at the entry of the program, or with -1. -/
theorem Trapped.execs (h : Trapped pt p k) (hcall : pt.Calls nrExecve) {binary fname : Nat}
    {pfile : File} {c : Ctl Int} (hrun : sysExecve binary pfile fname k = .ok c k') :
    (c = .run p ∧ Handled pt p k (.run p) k') ∨ c = .ret (-1) ∧ k'.tasks = k.tasks := by
  unfold sysExecve at hrun
  obtain ⟨p', k₀, hcur, hrun⟩ := Act.bind_eq_ok.mp hrun
  obtain ⟨hcur, rfl⟩ := currentProc_eq_ok.mp hcur
  cases hcur.symm.trans h.current
  rw [Act.gets_bind_apply] at hrun
  obtain ⟨o, k₁, hload, hrun⟩ := Act.bind_eq_ok.mp hrun
  have htasks := (onLocalFile_leaves (steady_cr3.execLoad fname _ binary) pfile).of_ok hload
  cases o with
  | none =>
    cases hrun
    exact .inr ⟨rfl, htasks⟩
  | some entry =>
    obtain ⟨u, k₂, hset, hrun⟩ := Act.bind_eq_ok.mp hrun
    obtain ⟨u', k₃, hjump, hrun⟩ := Act.bind_eq_ok.mp hrun
    rw [runProc_ok] at hjump
    cases hjump
    cases hrun
    rw [setProc_apply] at hset
    cases hset
    exact .inl ⟨rfl, h.enters hcall htasks rfl⟩

/-- A system call: what `do_syscall` comes to, and how the trap ends. -/
def Ctl.ofCall (pt : PtRegs) : Ctl Int → Ctl PtRegs
  | .ret r => .ret { pt with rax := (r % 2 ^ 64).toNat }
  | .run p => .run p
  | .halt => .halt

/-- WAITPID: it returns at once, or gives the processor away. -/
theorem Trapped.waitpid (h : Trapped pt p k) (hcall : u32 pt.num = 20) {pid : Int} {c : Ctl Int}
    (hrun : sysWaitpid pid k = .ok c k') : Handled pt p k (c.ofCall pt) k' := by
  unfold sysWaitpid at hrun
  split at hrun
  · cases hrun
    exact h.continues rfl (.result _ hcall)
  unfold waitpidTurn at hrun
  rw [Act.gets_bind_apply] at hrun
  split at hrun
  · cases hrun
    exact h.continues rfl (.result _ hcall)
  obtain ⟨c', k₁, hc, hrun⟩ := Act.bind_eq_ok.mp hrun
  rcases h.schedules () hc with ⟨q, hto, hhandled⟩ | ⟨hto, hhandled⟩
  · cases c' with
    | run q' =>
      cases hto
      cases hrun
      exact hhandled
    | ret _ => cases hto
    | halt => cases hto
  · cases c' with
    | halt =>
      cases hrun
      exact hhandled
    | ret _ => cases hto
    | run _ => cases hto

/-- CALL: every system call keeps to the process that made it. -/
theorem Trapped.calls {h : Services} {e : Trap} (he : e.Mannered) (htrap : Trapped e.pt p k)
    (hcall : u32 e.pt.num = 20) {c : Ctl Int}
    (hrun : doSyscall h (u32 e.pt.rax) e.pt.rbx e.pt.rcx e.pt.rdx e.pt.rsi k = .ok c k') :
    Handled e.pt p k (c.ofCall e.pt) k' := by
  have hreturn : ∀ {x : Act KState Int}, Leaves KState.tasks x → returns x k = .ok c k' →
      Handled e.pt p k (c.ofCall e.pt) k' := fun hx hrun => by
    obtain ⟨r, k₁, hr, hrun⟩ := Act.bind_eq_ok.mp hrun
    cases hrun
    exact htrap.continues (hx.of_ok hr) (.result _ hcall)
  have hnothing : ∀ {r : Int}, (pure (.ret r) : Act KState (Ctl Int)) k = .ok c k' →
      Handled e.pt p k (c.ofCall e.pt) k' := fun hrun => by
    cases hrun
    exact htrap.continues rfl (.result _ hcall)
  unfold doSyscall at hrun
  rcases Act.ite_cases hrun with ⟨-, hrun⟩ | ⟨-, hrun⟩
  · exact hreturn (sysOpen_leaves _) hrun
  rcases Act.ite_cases hrun with ⟨hnr, hrun⟩ | ⟨-, hrun⟩
  · exact hreturn (sysRead_leaves _ (he.fd (.inl ⟨hcall, hnr⟩)) _ _) hrun
  rcases Act.ite_cases hrun with ⟨hnr, hrun⟩ | ⟨-, hrun⟩
  · exact hreturn (sysWrite_leaves _ (he.fd (.inr (.inl ⟨hcall, hnr⟩))) _ _) hrun
  rcases Act.ite_cases hrun with ⟨hnr, hrun⟩ | ⟨-, hrun⟩
  · obtain ⟨r, k₁, hr, hrun⟩ := Act.bind_eq_ok.mp hrun
    cases hrun
    exact htrap.forks ⟨hcall, hnr⟩ hr
  rcases Act.ite_cases hrun with ⟨-, hrun⟩ | ⟨-, hrun⟩
  · obtain ⟨c', k₁, hc, hrun⟩ := Act.bind_eq_ok.mp hrun
    cases hrun
    rcases htrap.schedules (0 : Int) hc with ⟨q, hto, hhandled⟩ | ⟨hto, hhandled⟩
    · rw [hto]
      exact hhandled
    · rw [hto]
      exact hhandled
  rcases Act.ite_cases hrun with ⟨-, hrun⟩ | ⟨-, hrun⟩
  · rcases htrap.exits hrun with ⟨q, rfl, hhandled⟩ | ⟨rfl, hhandled⟩
    · exact hhandled
    · exact hhandled
  rcases Act.ite_cases hrun with ⟨hnr, hrun⟩ | ⟨-, hrun⟩
  · rcases htrap.execs ⟨hcall, hnr⟩ hrun with ⟨rfl, hhandled⟩ | ⟨rfl, htasks⟩
    · exact hhandled
    · exact htrap.continues htasks (.result _ hcall)
  rcases Act.ite_cases hrun with ⟨-, hrun⟩ | ⟨-, hrun⟩
  · exact htrap.waitpid hcall hrun
  rcases Act.ite_cases hrun with ⟨hnr, hrun⟩ | ⟨-, hrun⟩
  · exact hreturn (sysLseek_leaves _ (he.fd (.inr (.inr ⟨hcall, hnr⟩))) _) hrun
  rcases Act.ite_cases hrun with ⟨-, hrun⟩ | ⟨-, hrun⟩
  · exact hnothing hrun
  rcases Act.ite_cases hrun with ⟨-, hrun⟩ | ⟨-, hrun⟩
  · exact hreturn sysOpencons_leaves hrun
  rcases Act.ite_cases hrun with ⟨-, hrun⟩ | ⟨-, hrun⟩
  · exact hreturn (allocVmMem_leaves _) hrun
  rcases Act.ite_cases hrun with ⟨-, hrun⟩ | ⟨-, hrun⟩
  · exact hreturn (createVcpu_leaves _) hrun
  rcases Act.ite_cases hrun with ⟨hnr, hrun⟩ | ⟨-, hrun⟩
  · exact absurd ⟨hcall, hnr⟩ he.runVm
  rcases Act.ite_cases hrun with ⟨-, hrun⟩ | ⟨-, hrun⟩
  · exact hreturn (mmapMem_leaves _ _ _ _) hrun
  · exact hnothing hrun

theorem KState.saved_procs (k : KState) (p q : Nat) (pt : PtRegs) : (k.saved p pt).procs q =
    if q = p then { k.procs p with pregs := pt } else k.procs q := KState.setProc_procs k p q _

theorem KState.saved_live : (k.saved p pt).Live q ↔ k.Live q := by
  rw [KState.Live, KState.saved_procs, KState.Live]
  split
  · next hq => rw [hq]
  · rfl

theorem KState.saved_context (hq : q ≠ p) : (k.saved p pt).context q = k.context q := by
  rw [KState.context, KState.saved_procs, if_neg hq, KState.context]

theorem KState.saved_dir : ((k.saved p pt).context p).dir = (k.context p).dir := by
  rw [KState.context, KState.saved_procs, if_pos rfl, KState.context]

/-- The frame is in the record. -/
theorem SlotInv.trapped (h : SlotInv k l) (hcur : k.current = some p)
    (hcr3 : k.mm.cr3 = (k.context p).dir) (pt : PtRegs) : Trapped pt p (k.saved p pt) where
  slots := by
    have hsame : ∀ {α : Type} (f : Proc → Proc → α),
        (∀ r : Proc, f { r with pregs := pt } r = f r r) →
        ∀ q, f ((k.saved p pt).procs q) (k.procs q) = f (k.procs q) (k.procs q) := fun f hf q => by
      rw [KState.saved_procs]
      split
      · next hq => rw [hq, hf]
      · rfl
    refine ⟨l, h.toListed.congr rfl (hsame (fun r _ => r.link) fun _ => rfl)
      (hsame (fun r _ => r.status) fun _ => rfl) (hsame (fun r _ => r.pid) fun _ => rfl),
      fun hp => KState.saved_live.mpr (h.current hp)⟩
  current := hcur
  cr3 := by
    rw [KState.saved_dir, ← hcr3]
    rfl
  pregs := by rw [KState.saved_procs, if_pos rfl]

/-- TRAP: whatever the trap, the kernel keeps to the process that runs. -/
theorem SlotInv.handles {h : Services} {e : Trap} (he : e.Mannered) (hinv : SlotInv k l)
    (hcur : k.current = some p) (hcr3 : k.mm.cr3 = (k.context p).dir) {c : Ctl PtRegs}
    (hrun : doTrap h e.cr2 e.data e.pt k = .ok c k') : Handled e.pt p (k.saved p e.pt) c k' := by
  have htrap := hinv.trapped hcur hcr3 e.pt
  have hstop : ∀ {c : Ctl PtRegs}, (pure .halt : Act KState (Ctl PtRegs)) (k.saved p e.pt) =
      .ok c k' → Handled e.pt p (k.saved p e.pt) c k' := fun hrun => by
    cases hrun
    exact htrap.halts htrap.slots rfl
  unfold doTrap at hrun
  rw [Act.bind_ok (saveFrame_ok hcur)] at hrun
  rcases Act.ite_cases hrun with ⟨-, hrun⟩ | ⟨-, hrun⟩
  · obtain ⟨c', k₁, hc, hrun⟩ := Act.bind_eq_ok.mp hrun
    cases hrun
    rcases htrap.schedules e.pt hc with ⟨q, hto, hhandled⟩ | ⟨hto, hhandled⟩
    · rw [hto]
      exact hhandled
    · rw [hto]
      exact hhandled
  rcases Act.ite_cases hrun with ⟨-, hrun⟩ | ⟨-, hrun⟩
  · cases hrun
    exact htrap.continues rfl .same
  rcases Act.ite_cases hrun with ⟨-, hrun⟩ | ⟨-, hrun⟩
  · rcases Act.ite_cases hrun with ⟨-, hrun⟩ | ⟨-, hrun⟩
    · exact hstop hrun
    rw [Act.gets_bind_apply] at hrun
    obtain ⟨u, k₁, hfault, hrun⟩ := Act.bind_eq_ok.mp hrun
    cases hrun
    exact htrap.continues ((onMm_leaves (steady_cr3.pageFault _ _ _)).of_ok hfault) .same
  rcases Act.ite_cases hrun with ⟨hnum, hrun⟩ | ⟨-, hrun⟩
  · obtain ⟨c', k₁, hcall, hrun⟩ := Act.bind_eq_ok.mp hrun
    have hhandled := htrap.calls he hnum hcall
    cases c' with
    | ret r =>
      cases hrun
      exact hhandled
    | run q =>
      cases hrun
      exact hhandled
    | halt =>
      cases hrun
      exact hhandled
  · exact hstop hrun

end Handled

/-! ## Runs -/

section Runs

variable {h : Services} {m m' : Machine} {e : Trap} {es es' : List Trap} {p q : Nat}

/-- A process that has the processor is `current`. -/
theorem Machine.on_eq_some : m.on = some p ↔ m.user ≠ none ∧ m.k.current = some p := by
  unfold Machine.on
  cases m.user with
  | none => exact ⟨fun hon => absurd hon.symm (Option.some_ne_none p), fun hon => absurd rfl hon.1⟩
  | some u => exact ⟨fun hon => ⟨Option.some_ne_none u, hon⟩, fun hon => hon.2⟩

theorem Machine.view_on (hq : m.on = some q) : m.view.own q = ⟨m.user.getD {}, m.k.mm.cr3⟩ :=
  if_pos hq

theorem Machine.view_off (hq : m.on ≠ some q) : m.view.own q = m.k.context q := if_neg hq

/-- Who has the processor after the trap. -/
theorem Handled.on {pt : PtRegs} {k : KState} {c : Ctl PtRegs} (hh : Handled pt p k c m'.k)
    (huser : m'.user = c.frame m'.k) : m'.on = c.to p := by
  unfold Machine.on
  rw [huser]
  cases c with
  | ret pt' => exact hh.current p rfl
  | run q => exact hh.current q rfl
  | halt => rfl

/-- Who waits has its context in its record, and who is switched to had it there. -/
theorem Handled.own {pt : PtRegs} {k : KState} {c : Ctl PtRegs} (hh : Handled pt p k c m'.k)
    (huser : m'.user = c.frame m'.k) (hqp : q ≠ p) : m'.view.own q = m'.k.context q := by
  by_cases hon : m'.on = some q
  · rw [Machine.view_on hon]
    rw [hh.on huser] at hon
    have hrun : c = .run q := by
      cases c with
      | ret pt' => exact absurd (Option.some.inj hon).symm hqp
      | run q' => rw [Option.some.inj hon]
      | halt => exact absurd hon.symm (Option.some_ne_none q)
    rw [huser, hh.cr3 q hon, hrun]
    rfl
  · exact Machine.view_off hon

/-- STEP: the machine stays sound, and everyone's own processor does the same. -/
theorem Machine.Sound.step (hm : m.Sound) (hstep : trapStep h m e m') :
    m'.Sound ∧ ownStep m.view e m'.view := by
  obtain ⟨hon, he, c, hrun, huser⟩ := hstep
  obtain ⟨p, hp⟩ := Option.ne_none_iff_exists'.mp hon
  obtain ⟨l, hl⟩ := hm.slots
  have hcur := (Machine.on_eq_some.mp hp).2
  have hh := hl.handles he hcur (hm.cr3 p hp) hrun
  have hon' := hh.on huser
  have hlive : m.k.Live p := hl.current hcur
  have hnext : ∀ q, m'.on = some q → m'.k.Live q := fun q hq => by
    obtain ⟨l', hl'⟩ := hh.slots
    exact hl'.current (hh.current q (hon' ▸ hq))
  have hown : (m.view.own p).dir = m.k.mm.cr3 := by rw [Machine.view_on hp]
  have hdir : m'.k.Live p → (m'.k.context p).dir = (m.view.own p).dir := fun hlp => by
    rw [hh.dir hlp, KState.saved_dir, hown, hm.cr3 p hp]
  have hother : ∀ q, q ≠ p → m.view.own q = m.k.context q := fun q hq =>
    Machine.view_off fun hon => hq (Option.some.inj (hon.symm.trans hp))
  refine ⟨⟨hh.slots, fun q hq => hh.cr3 q (hon' ▸ hq)⟩, p, ?_⟩
  exact {
    on := hp
    next := hnext
    goes := fun (hgo : m'.on = some p) => by
      obtain ⟨pt', hframe, hres⟩ := hh.goes (hon' ▸ hgo)
      rw [Machine.view_on hgo, huser, hframe]
      exact ⟨hres, by rw [hh.cr3 p (hon' ▸ hgo), hdir (hnext p hgo)]⟩
    waits := fun (hwait : m'.on ≠ some p) hlp => by
      rw [Machine.view_off hwait, ← hdir hlp, ← hh.waits (hon' ▸ hwait) hlp]
      rfl
    others := fun q hq hlq => by
      obtain ⟨hlq', hcontext⟩ := hh.others q hq (KState.saved_live.mpr hlq)
      rw [hh.own huser hq, hcontext, KState.saved_context hq, hother q hq]
      exact ⟨hlq', rfl⟩
    born := fun q hdead hlq => by
      have hqp : q ≠ p := fun hqp => hdead (hqp ▸ hlive)
      rw [hh.own huser hqp]
      exact hh.born q (fun hs => hdead (KState.saved_live.mp hs)) hlq }

/-- SIMULATE: the step, seen by the processes. -/
theorem Machine.Sound.simulates {b : Bank Nat Context} (hm : m.Sound) (hb : b = m.view)
    (hstep : trapStep h m e m') :
    ∃ b', ownStep b e b' ∧ m'.Sound ∧ b' = m'.view := by
  obtain ⟨hm', hown⟩ := hm.step hstep
  exact ⟨m'.view, hb ▸ hown, hm', rfl⟩

/-- The machine once `create_proc` has entered the first process. -/
def started (k : KState) (p : Nat) : Machine := ⟨k, some (k.procs p).pregs⟩

/-- The first process runs on its own directory. -/
theorem started_sound {k₀ k : KState} {binary : Nat} (hboot : Booted k₀)
    (hcreate : createProc binary k₀ = .ok p k) : (started k p).Sound := by
  obtain ⟨⟨l, hinv, -⟩, -⟩ := hboot.inv
  obtain ⟨l', -, hinv', -⟩ := hinv.create hcreate
  obtain ⟨-, k₁, -, rfl⟩ := createProc_eq_ok hcreate
  refine ⟨⟨l', hinv'⟩, fun q hq => ?_⟩
  have hpq : p = q :=
    Option.some.inj ((KState.running_current k₁ p).symm.trans (Machine.on_eq_some.mp hq).2)
  show kva2pa (k₁.procs p).pgdir = kva2pa (((k₁.running p).procs q).pgdir)
  rw [KState.running_procs, hpq]

/-- OWN PROCESSORS: from the first process on, the machine stays sound, and what the
processes see is what they see with a processor each. -/
theorem contexts_own {k₀ k : KState} {binary : Nat} (hboot : Booted k₀)
    (hcreate : createProc binary k₀ = .ok p k) (hrun : Steps (trapStep h) (started k p) es m) :
    m.Sound ∧ Steps ownStep (started k p).view es m.view := by
  obtain ⟨b, hsteps, hsound, rfl⟩ :=
    @Steps.simulate _ _ _ (trapStep h) _ _ _ ownStep (fun m b => m.Sound ∧ b = m.view)
      (fun hrel hstep => hrel.1.simulates hrel.2 hstep) _ hrun
      ⟨started_sound hboot hcreate, rfl⟩
  exact ⟨hsound, hsteps⟩

/-- While others have the processor, a process keeps its context. -/
theorem Machine.Sound.waits (hm : m.Sound)
    (hrun : Steps (fun m e m' => m.on ≠ some q ∧ trapStep h m e m') m es m') (hq : m.k.Live q) :
    m'.view.own q = m.view.own q := by
  have hsim : ∀ {m e m' b}, m.Sound ∧ b = m.view → m.on ≠ some q ∧ trapStep h m e m' →
      ∃ b', (b.on ≠ some q ∧ ownStep b e b') ∧ m'.Sound ∧ b' = m'.view := fun hrel hstep => by
    obtain ⟨b', hown, hrel'⟩ := hrel.1.simulates hrel.2 hstep.2
    exact ⟨b', ⟨hrel.2 ▸ hstep.1, hown⟩, hrel'⟩
  obtain ⟨b, hsteps, -, rfl⟩ :=
    @Steps.simulate _ _ _ _ _ _ _ (fun b e b' => b.on ≠ some q ∧ ownStep b e b')
      (fun m b => m.Sound ∧ b = m.view) hsim _ hrun ⟨hm, rfl⟩
  exact (ownStep_isTurn.waits hsteps hq).2

/-- RESUME: whatever runs in between, a process that lost the processor in a trap gets it
back with the registers it trapped with, on the directory it had; and a process that came to
be in the trap has those of its parent at first, but for `rax`. -/
theorem resumed {m₁ m₂ : Machine} (hm : m.Sound) (htrap : trapStep h m e m₁)
    (hlost : m₁.on ≠ some q) (hlive : m₁.k.Live q)
    (hrest : Steps (fun m e m' => m.on ≠ some q ∧ trapStep h m e m') m₁ es m₂)
    (hback : m₂.on = some q) :
    (m.on = some q → m₂.user = some e.pt ∧ m₂.k.mm.cr3 = m.k.mm.cr3) ∧
      (¬ m.k.Live q → e.pt.Calls nrFork ∧ m₂.user = some { e.pt with rax := 0 } ∧
        m₂.k.mm.cr3 = (m₁.k.context q).dir) := by
  obtain ⟨hm₁, p, hturn⟩ := hm.step htrap
  have hkept := hm₁.waits hrest hlive
  rw [Machine.view_on hback] at hkept
  obtain ⟨u, hu⟩ := Option.ne_none_iff_exists'.mp (Machine.on_eq_some.mp hback).1
  rw [hu, Option.getD_some] at hkept
  rw [hu]
  refine ⟨fun hq => ?_, fun hdead => ?_⟩
  · have hqp : q = p := Option.some.inj (hq.symm.trans hturn.on)
    have hown := hkept.trans (hqp ▸ hturn.waits (hqp ▸ hlost) (hqp ▸ hlive))
    rw [Machine.view_on hq] at hown
    exact ⟨congrArg some (congrArg Context.regs hown :), (congrArg Context.dir hown :)⟩
  · obtain ⟨hcall, hregs⟩ := hturn.born q hdead hlive
    rw [← hkept] at hregs
    rw [Machine.view_off hlost] at hkept
    exact ⟨hcall, congrArg some hregs, (congrArg Context.dir hkept :)⟩

end Runs

/-! ## Samples -/

/-- A tick of the timer. -/
def tick (rax : Nat) : Trap := ⟨{ num := 0x20, rax := rax }, 0, []⟩

theorem tick_mannered (rax : Nat) : (tick rax).Mannered := by
  have hnum : u32 (tick rax).pt.num = 0x20 := by
    show u32 32 = 32
    decide
  refine Trap.mannered_of_num ?_ fun hfault => absurd (hnum.symm.trans hfault) (by decide)
  rw [hnum]
  decide

/-- What a tick does is what `schedule` does. -/
theorem tick_step {h : Services} {m : Machine} {p : Nat} {c : Ctl Unit} {k' : KState} (rax : Nat)
    (hp : m.on = some p) (hrun : schedule (m.k.saved p (tick rax).pt) = .ok c k') :
    trapStep h m (tick rax) ⟨k', (thenReturn (tick rax).pt c).frame k'⟩ := by
  have hnum : u32 (tick rax).pt.num = 0x20 := by
    show u32 32 = 32
    decide
  refine ⟨by rw [hp]; exact Option.some_ne_none p, tick_mannered rax, _, ?_, rfl⟩
  unfold doTrap
  rw [Act.bind_ok (saveFrame_ok (Machine.on_eq_some.mp hp).2)]
  simp only [hnum]
  rw [if_pos trivial, Act.bind_ok hrun]
  rfl

/-- The first process after the boot, and a tick. -/
theorem contexts_own_first : ∃ k m, createProc (frameVa 0) oneFrameBooted = .ok 0 k ∧
    Steps (trapStep Services.idle) (started k 0) [tick 0] m ∧
      m.Sound ∧ Steps ownStep (started k 0).view [tick 0] m.view := by
  obtain ⟨k, hcreate, -, -⟩ := oneFrame_create
  have hsound := started_sound oneFrame_booted hcreate
  have hon : (started k 0).on = some 0 := by
    obtain ⟨-, k₁, -, rfl⟩ := createProc_eq_ok hcreate
    exact KState.running_current k₁ 0
  obtain ⟨l, hl⟩ := hsound.slots
  have hcurrent := (Machine.on_eq_some.mp hon).2
  obtain ⟨l', hl'⟩ := (hl.trapped hcurrent (hsound.cr3 0 hon) (tick 0).pt).slots
  have hnum := hl'.numbered
  obtain ⟨c, k', hrun⟩ : ∃ c k', schedule ((started k 0).k.saved 0 (tick 0).pt) = .ok c k' := by
    rcases schedule_run (fun p hp => (hnum.current hp).2 ▸ (hnum.current hp).1) with
      ⟨q, -, hrun⟩ | hrun
    · exact ⟨_, _, hrun⟩
    · exact ⟨_, _, hrun⟩
  have hsteps := Steps.cons (tick_step (h := Services.idle) 0 hon hrun) (.nil _)
  exact ⟨k, _, hcreate, hsteps, contexts_own oneFrame_booted hcreate hsteps⟩

/-- Two processes, of which the first runs. -/
def contended : KState := KState.running { KState.zero with
  procs := fun p => if p < 2 then { status := .runnable, pid := p, pgdir := frameVa p } else {} } 0

theorem contended_live {p : Nat} : contended.Live p ↔ p < 2 := by
  show (if p < 2 then _ else _ : Proc).status = _ ↔ _
  split
  · next hp => exact ⟨fun _ => hp, fun _ => rfl⟩
  · next hp => exact ⟨fun hstatus => absurd hstatus (by decide), fun hp' => absurd hp' hp⟩

theorem contended_sound (u : PtRegs) : (Machine.mk contended (some u)).Sound := by
  have hslots : Listed contended [] := {
    slots := .nil
    nodup := List.nodup_nil
    free := fun {p} hp => absurd hp List.not_mem_nil
    live := fun hp => (contended_live.mp hp).trans (by decide)
    pid := fun {p} hp => by
      show (if p < 2 then _ else _ : Proc).pid = p
      rw [if_pos (contended_live.mp hp)] }
  refine ⟨⟨[], hslots, fun hp => ?_⟩, fun p hp => ?_⟩
  · cases hp
    exact contended_live.mpr (by decide)
  · cases hp
    rfl

/-- The first process is interrupted, the second one runs, and the first goes on. -/
theorem contended_run : ∃ m₁ m₂ : Machine,
    trapStep Services.idle ⟨contended, some {}⟩ (tick 7) m₁ ∧ m₁.on ≠ some 0 ∧ m₁.k.Live 0 ∧
      Steps (fun m e m' => m.on ≠ some 0 ∧ trapStep Services.idle m e m') m₁ [tick 8] m₂ ∧
        m₂.on = some 0 := by
  have hfirst : schedule (contended.saved 0 (tick 7).pt) =
    .ok (.run 1) ((contended.saved 0 (tick 7).pt).running 1) := rfl
  have hsecond : schedule (((contended.saved 0 (tick 7).pt).running 1).saved 1 (tick 8).pt) =
    .ok (.run 0) ((((contended.saved 0 (tick 7).pt).running 1).saved 1 (tick 8).pt).running 0) :=
    rfl
  have htrap := tick_step (h := Services.idle) (m := ⟨contended, some {}⟩) 7 rfl hfirst
  have hback := tick_step (h := Services.idle)
    (m := ⟨(contended.saved 0 (tick 7).pt).running 1, some (contended.procs 1).pregs⟩) 8 rfl hsecond
  have hlost : (some 1 : Option Nat) ≠ some 0 := by decide
  have hlive : ((contended.saved 0 (tick 7).pt).running 1).Live 0 := by
    rw [KState.Live, KState.running_procs]
    exact KState.saved_live.mpr (contended_live.mpr (by decide))
  exact ⟨_, _, htrap, hlost, hlive, .cons ⟨hlost, hback⟩ (.nil _), rfl⟩

theorem resumed_contended : ∃ m₁ m₂ : Machine,
    trapStep Services.idle ⟨contended, some {}⟩ (tick 7) m₁ ∧
      Steps (fun m e m' => m.on ≠ some 0 ∧ trapStep Services.idle m e m') m₁ [tick 8] m₂ ∧
        m₂.user = some (tick 7).pt ∧ m₂.k.mm.cr3 = contended.mm.cr3 := by
  obtain ⟨m₁, m₂, htrap, hlost, hlive, hrest, hback⟩ := contended_run
  exact ⟨m₁, m₂, htrap, hrest, (resumed (contended_sound {}) htrap hlost hlive
    hrest hback).1 rfl⟩

end Myos.Kernel
