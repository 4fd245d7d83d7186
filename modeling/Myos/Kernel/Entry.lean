import Myos.Lib.Stack
import Myos.Kernel.Contexts

/-!
# Into the kernel and out of it

The gates `init_trap` sets (`kernel/amd64/trap.c`), what the processor does with them, the
code of `kernel/amd64/trapentry.S` that every trap runs through, and the pops at the end of
`run_proc`. The labels of the code stand somewhere (`addr`); where that is does not matter.

Of the processor this is the part that is about traps from user mode: a gate that is not
present, or that an `int` may not go through, is not taken; the stack is the one of the
task segment, aligned to 16 bytes; some vectors push an error code, but never for an `int`.
-/

namespace Myos.Kernel

open Myos.Lib

/-! ## The gates -/

/-- The labels of `trapentry.S`. -/
inductive TrapLabel where
  | divideTrap
  | debugTrap
  | breakpointTrap
  | overflowTrap
  | boundTrap
  | invalidTrap
  | coprocessorNotAvailTrap
  | segmentTrap
  | coprocessorTrap
  | syscallTrap
  | doubleTrap
  | invalidTssTrap
  | segmentnotpresentTrap
  | stackTrap
  | protectionTrap
  | pageFaultTrap
  | timerIntr
  | kdbIntr
deriving DecidableEq, Repr

/-- `set_idt_desc`, on the table at address 0 of `idt`. -/
def setIdtDesc (idtno addr type : Nat) (idt : Mem) : Mem :=
  let d := 16 * idtno
  let m := idt.wr 2 d (addr &&& 0xffff)
  let m := m.wr 2 (d + 2) 0x08
  let m := m.wr 1 (d + 4) 0
  let m := m.wr 1 (d + 5) type
  let m := m.wr 2 (d + 6) ((addr >>> 16) &&& 0xffff)
  let m := m.wr 4 (d + 8) (addr >>> 32)
  m.wr 4 (d + 12) 0

/-- The calls of `set_idt_desc` in `init_trap`. -/
def trapGates : List (Nat × TrapLabel × Nat) := [
  (0, .divideTrap, 0x8F),
  (1, .debugTrap, 0x8F),
  (3, .breakpointTrap, 0xEF),
  (4, .overflowTrap, 0xEF),
  (5, .boundTrap, 0xEF),
  (6, .invalidTrap, 0xEF),
  (7, .coprocessorNotAvailTrap, 0xEF),
  (8, .doubleTrap, 0xEF),
  (9, .segmentTrap, 0xEF),
  (10, .invalidTssTrap, 0xEF),
  (11, .segmentnotpresentTrap, 0xEF),
  (12, .stackTrap, 0xEF),
  (13, .protectionTrap, 0xEF),
  (14, .pageFaultTrap, 0xEF),
  (16, .coprocessorTrap, 0xEF),
  (20, .syscallTrap, 0xEE),
  (32, .timerIntr, 0x8E),
  (33, .kdbIntr, 0x8E)]

/-- `init_trap`, as far as the table goes. -/
def initTrap (addr : TrapLabel → Nat) (idt : Mem) : Mem :=
  trapGates.foldl (fun m g => setIdtDesc g.1 (addr g.2.1) g.2.2 m) idt

/-- A gate, as the processor reads it. -/
structure Gate where
  offset : Nat
  selector : Nat
  type : Nat
deriving DecidableEq, Repr

def readGate (idt : Mem) (v : Nat) : Gate where
  offset := idt.rd 2 (16 * v) + 2 ^ 16 * idt.rd 2 (16 * v + 6) + 2 ^ 32 * idt.rd 4 (16 * v + 8)
  selector := idt.rd 2 (16 * v + 2)
  type := idt.rd 1 (16 * v + 5)

/-- The gate is there. -/
def Gate.present (g : Gate) : Bool := g.type.testBit 7

/-- An `int` in user mode may go through it. -/
def Gate.user (g : Gate) : Bool := (g.type / 32) % 4 = 3

/-- It is an interrupt gate, and keeps interrupts away. -/
def Gate.masks (g : Gate) : Bool := g.type % 16 = 0xE

/-! ## The code -/

/-- The general registers. -/
inductive Reg where
  | r15
  | r14
  | r13
  | r12
  | rbp
  | rbx
  | r11
  | r10
  | r9
  | r8
  | rax
  | rcx
  | rdx
  | rsi
  | rdi
deriving DecidableEq, Repr

/-- The registers of the processor. -/
structure Cpu where
  reg : Reg → Nat
  rip : Nat
  cs : Nat
  eflags : Nat
  rsp : Nat
  ss : Nat

/-- An instruction of the entry code; `$` stands for a number. -/
inductive Instr where
  | pushImm (v : Nat)
  | push (r : Reg)
  | pop (r : Reg)
  | addRsp (n : Nat)
  | iretq
deriving DecidableEq, Repr

/-- The processor and the memory the stacks are in. -/
structure Core where
  cpu : Cpu
  mem : Mem

namespace Core

/-- A word is pushed. -/
def push (s : Core) (v : Nat) : Core :=
  ⟨{ s.cpu with rsp := s.cpu.rsp - 8 }, s.mem.wr 8 (s.cpu.rsp - 8) v⟩

/-- One instruction. -/
def exec (s : Core) : Instr → Core
  | .pushImm v => s.push v
  | .push r => s.push (s.cpu.reg r)
  | .pop r => { s with cpu := { s.cpu with
      reg := Function.update s.cpu.reg r (s.mem.rd 8 s.cpu.rsp), rsp := s.cpu.rsp + 8 } }
  | .addRsp n => { s with cpu := { s.cpu with rsp := s.cpu.rsp + n } }
  | .iretq => { s with cpu := { s.cpu with
      rip := s.mem.rd 8 s.cpu.rsp
      cs := s.mem.rd 8 (s.cpu.rsp + 8)
      eflags := s.mem.rd 8 (s.cpu.rsp + 16)
      rsp := s.mem.rd 8 (s.cpu.rsp + 24)
      ss := s.mem.rd 8 (s.cpu.rsp + 32) } }

/-- Instructions in a row. -/
def run (s : Core) (is : List Instr) : Core := is.foldl exec s

end Core

/-- What stands behind a label, up to `jmp do_alltrap`. -/
def TrapLabel.stub : TrapLabel → List Instr
  | .divideTrap => [.pushImm 0, .pushImm 0]
  | .debugTrap => [.pushImm 0, .pushImm 1]
  | .breakpointTrap => [.pushImm 0, .pushImm 3]
  | .overflowTrap => [.pushImm 0, .pushImm 4]
  | .boundTrap => [.pushImm 0, .pushImm 5]
  | .invalidTrap => [.pushImm 0, .pushImm 6]
  | .coprocessorNotAvailTrap => [.pushImm 0, .pushImm 7]
  | .segmentTrap => [.pushImm 0, .pushImm 9]
  | .coprocessorTrap => [.pushImm 0, .pushImm 16]
  | .syscallTrap => [.pushImm 0, .pushImm 20]
  | .doubleTrap => [.pushImm 8]
  | .invalidTssTrap => [.pushImm 10]
  | .segmentnotpresentTrap => [.pushImm 11]
  | .stackTrap => [.pushImm 12]
  | .protectionTrap => [.pushImm 13]
  | .pageFaultTrap => [.pushImm 14]
  | .timerIntr => [.pushImm 0, .pushImm 32]
  | .kdbIntr => [.pushImm 0, .pushImm 33]

/-- `do_alltrap`, up to `call do_trap`. -/
def doAlltrapPushes : List Instr :=
  [.push .rdi, .push .rsi, .push .rdx, .push .rcx, .push .rax, .push .r8, .push .r9, .push .r10,
    .push .r11, .push .rbx, .push .rbp, .push .r12, .push .r13, .push .r14, .push .r15]

/-- `do_alltrap` from there on. -/
def doAlltrapPops : List Instr :=
  [.pop .r15, .pop .r14, .pop .r13, .pop .r12, .pop .rbp, .pop .rbx, .pop .r11, .pop .r10,
    .pop .r9, .pop .r8, .pop .rax, .pop .rcx, .pop .rdx, .pop .rsi, .pop .rdi, .addRsp 16, .iretq]

/-- `run_proc`, once `rsp` is the address of `p->pregs`. -/
def runProcPops : List Instr :=
  [.pop .r15, .pop .r14, .pop .r13, .pop .r12, .pop .rbp, .pop .rbx, .pop .r11, .pop .r10,
    .pop .r9, .pop .r8, .pop .rax, .pop .rcx, .pop .rdx, .pop .rsi, .pop .rdi, .addRsp 16, .iretq]

/-! ## Taking a trap -/

/-- What goes through a gate in user mode: an exception or an interrupt, with the error code
the processor has for it, or an `int`. -/
inductive Cause where
  | hardware (errCode : Nat)
  | int
deriving DecidableEq, Repr

/-- The vectors for which the processor pushes an error code. -/
def pushesError (v : Nat) : Bool := v ∈ [8, 10, 11, 12, 13, 14, 17, 21, 29, 30]

/-- The words that are pushed on the way through the gate. -/
def hardwareFrame (c : Cpu) (v : Nat) : Cause → List Nat
  | .hardware e => [c.ss, c.rsp, c.eflags, c.cs, c.rip] ++ if pushesError v then [e] else []
  | .int => [c.ss, c.rsp, c.eflags, c.cs, c.rip]

/-- The interrupt flag is cleared on the way through an interrupt gate. -/
def Gate.flags (g : Gate) (eflags : Nat) : Nat :=
  if g.masks ∧ eflags.testBit 9 then eflags - 2 ^ 9 else eflags

/-- Through the gate of vector `v`, with `rsp0` in the task segment: the state at the label,
or nothing where the gate is not there or not for an `int`. -/
def enterGate (idt : Mem) (rsp0 v : Nat) (why : Cause) (s : Core) : Option Core :=
  let g := readGate idt v
  if g.present ∧ (why = .int → g.user) then
    let pushed := Core.run ⟨{ s.cpu with rsp := rsp0 / 16 * 16 }, s.mem⟩
      ((hardwareFrame s.cpu v why).map .pushImm)
    let cpu := { pushed.cpu with
      rip := g.offset, cs := g.selector, ss := 0, eflags := g.flags s.cpu.eflags }
    some ⟨cpu, pushed.mem⟩
  else none

/-- The labels, to find the code at an address. -/
def trapLabels : List TrapLabel := trapGates.map fun g => g.2.1

/-- From the gate to `call do_trap`; `rsp` is then the address of the frame. -/
def enterTrap (addr : TrapLabel → Nat) (idt : Mem) (rsp0 v : Nat) (why : Cause) (s : Core) :
    Option Core := do
  let s ← enterGate idt rsp0 v why s
  let l ← trapLabels.find? fun l => addr l = s.cpu.rip
  return s.run (l.stub ++ doAlltrapPushes)

/-- `struct pt_regs` at `a`. -/
def readPtRegs (m : Mem) (a : Nat) : PtRegs where
  r15 := m.rd 8 a
  r14 := m.rd 8 (a + 8)
  r13 := m.rd 8 (a + 16)
  r12 := m.rd 8 (a + 24)
  rbp := m.rd 8 (a + 32)
  rbx := m.rd 8 (a + 40)
  r11 := m.rd 8 (a + 48)
  r10 := m.rd 8 (a + 56)
  r9 := m.rd 8 (a + 64)
  r8 := m.rd 8 (a + 72)
  rax := m.rd 8 (a + 80)
  rcx := m.rd 8 (a + 88)
  rdx := m.rd 8 (a + 96)
  rsi := m.rd 8 (a + 104)
  rdi := m.rd 8 (a + 112)
  num := m.rd 8 (a + 120)
  errCode := m.rd 8 (a + 128)
  rip := m.rd 8 (a + 136)
  cs := m.rd 8 (a + 144)
  eflags := m.rd 8 (a + 152)
  rsp := m.rd 8 (a + 160)
  ss := m.rd 8 (a + 168)

/-! ## The gates, decoded -/

section Gates

variable {addr : TrapLabel → Nat} {idt : Mem} {v w a t : Nat} {l : TrapLabel}

/-- An address in its three parts. -/
theorem offset_parts (ha : a < 2 ^ 64) :
    (a &&& 0xffff) % 256 ^ 2 + 2 ^ 16 * (((a >>> 16) &&& 0xffff) % 256 ^ 2) +
      2 ^ 32 * ((a >>> 32) % 256 ^ 4) = a := by
  have hlow : ∀ x, x &&& 0xffff = x % 2 ^ 16 := fun x => Nat.and_two_pow_sub_one_eq_mod x 16
  rw [hlow, hlow, Nat.shiftRight_eq_div_pow, Nat.shiftRight_eq_div_pow]
  omega

/-- What `set_idt_desc` stored is read. -/
theorem readGate_self (ha : a < 2 ^ 64) (ht : t < 256) :
    readGate (setIdtDesc v a t idt) v = ⟨a, 0x08, t⟩ := by
  unfold readGate setIdtDesc
  simp (disch := omega) only [Mem.rd_wr_disjoint, Mem.rd_wr_same]
  rw [offset_parts ha, Nat.mod_eq_of_lt (by omega : t < 256 ^ 1)]
  rfl

/-- The other gates are left alone. -/
theorem readGate_other (h : v ≠ w) : readGate (setIdtDesc w a t idt) v = readGate idt v := by
  unfold readGate setIdtDesc
  simp (disch := omega) only [Mem.rd_wr_disjoint]

/-- The calls, one after the other. -/
theorem readGate_foldl (haddr : ∀ l, addr l < 2 ^ 64) {gates : List (Nat × TrapLabel × Nat)}
    (hnodup : (gates.map Prod.fst).Nodup) (htypes : ∀ g ∈ gates, g.2.2 < 256) (idt : Mem) :
    (∀ g ∈ gates, readGate (gates.foldl (fun m g => setIdtDesc g.1 (addr g.2.1) g.2.2 m) idt) g.1 =
      ⟨addr g.2.1, 0x08, g.2.2⟩) ∧
    ∀ v, v ∉ gates.map Prod.fst →
      readGate (gates.foldl (fun m g => setIdtDesc g.1 (addr g.2.1) g.2.2 m) idt) v =
        readGate idt v := by
  induction gates generalizing idt with
  | nil => exact ⟨fun g hg => absurd hg List.not_mem_nil, fun v _ => rfl⟩
  | cons g gates ih =>
    rw [List.map_cons, List.nodup_cons] at hnodup
    obtain ⟨hset, hother⟩ := ih hnodup.2 (fun g hg => htypes g (List.mem_cons_of_mem _ hg))
      (setIdtDesc g.1 (addr g.2.1) g.2.2 idt)
    refine ⟨fun g' hg' => ?_, fun v hv => ?_⟩
    · rcases List.mem_cons.mp hg' with rfl | hin
      · rw [List.foldl_cons, hother _ hnodup.1]
        exact readGate_self (haddr _) (htypes _ List.mem_cons_self)
      · rw [List.foldl_cons]
        exact hset g' hin
    · rw [List.map_cons, List.mem_cons, not_or] at hv
      rw [List.foldl_cons, hother v hv.2]
      exact readGate_other hv.1

/-- GATES: `init_trap` sets the gates of its list, and no other. -/
theorem readGate_initTrap (haddr : ∀ l, addr l < 2 ^ 64) (idt : Mem) :
    (∀ g ∈ trapGates, readGate (initTrap addr idt) g.1 = ⟨addr g.2.1, 0x08, g.2.2⟩) ∧
      ∀ v, v ∉ trapGates.map Prod.fst → readGate (initTrap addr idt) v = readGate idt v :=
  readGate_foldl haddr (by decide) (by decide) idt

end Gates

/-! ## Pushing and popping -/

section Frames

variable {s : Core} {pt : PtRegs} {m : Mem} {a : Nat}

/-- What an instruction pushes. -/
def Instr.word (c : Cpu) : Instr → Nat
  | .pushImm v => v
  | .push r => c.reg r
  | _ => 0

/-- It pushes. -/
def Instr.pushes : Instr → Bool
  | .pushImm _ => true
  | .push _ => true
  | _ => false

/-- Instructions that only push. -/
theorem Core.run_pushes {is : List Instr} (h : ∀ i ∈ is, i.pushes) (s : Core) :
    s.run is = ⟨{ s.cpu with
        rsp := (Stack.pushes ⟨s.mem, s.cpu.rsp⟩ (is.map (Instr.word s.cpu))).sp },
      (Stack.pushes ⟨s.mem, s.cpu.rsp⟩ (is.map (Instr.word s.cpu))).mem⟩ := by
  induction is generalizing s with
  | nil => rfl
  | cons i is ih =>
    have hi := h i List.mem_cons_self
    have hrest := fun s => ih (fun i hi => h i (List.mem_cons_of_mem _ hi)) s
    show (s.exec i).run is = _
    rw [hrest]
    cases i with
    | pushImm v => rfl
    | push r => rfl
    | pop r => cases hi
    | addRsp n => cases hi
    | iretq => cases hi

/-- The words of a frame, in the order of `struct pt_regs`. -/
def PtRegs.words (pt : PtRegs) : List Nat :=
  [pt.r15, pt.r14, pt.r13, pt.r12, pt.rbp, pt.rbx, pt.r11, pt.r10, pt.r9, pt.r8, pt.rax, pt.rcx,
    pt.rdx, pt.rsi, pt.rdi, pt.num, pt.errCode, pt.rip, pt.cs, pt.eflags, pt.rsp, pt.ss]

/-- The frame is what its words say. -/
theorem readPtRegs_words (h : Stack.words m 22 a = pt.words) : readPtRegs m a = pt := by
  simp only [Stack.words, PtRegs.words, Nat.add_assoc, Nat.reduceAdd, List.cons.injEq] at h
  cases pt
  simp only [readPtRegs, h]

/-- The registers a frame has for the processor. -/
def PtRegs.cpu (pt : PtRegs) : Cpu where
  reg := fun
    | .r15 => pt.r15
    | .r14 => pt.r14
    | .r13 => pt.r13
    | .r12 => pt.r12
    | .rbp => pt.rbp
    | .rbx => pt.rbx
    | .r11 => pt.r11
    | .r10 => pt.r10
    | .r9 => pt.r9
    | .r8 => pt.r8
    | .rax => pt.rax
    | .rcx => pt.rcx
    | .rdx => pt.rdx
    | .rsi => pt.rsi
    | .rdi => pt.rdi
  rip := pt.rip
  cs := pt.cs
  eflags := pt.eflags
  rsp := pt.rsp
  ss := pt.ss

/-- POP: the end of `do_alltrap` loads the registers of the frame, and stores nothing. -/
theorem Core.run_pops (h : readPtRegs s.mem s.cpu.rsp = pt) :
    s.run doAlltrapPops = ⟨pt.cpu, s.mem⟩ := by
  subst h
  have hreg : (s.run doAlltrapPops).cpu.reg = (readPtRegs s.mem s.cpu.rsp).cpu.reg := by
    funext r
    cases r <;> rfl
  calc s.run doAlltrapPops =
      ⟨{ (readPtRegs s.mem s.cpu.rsp).cpu with reg := (s.run doAlltrapPops).cpu.reg }, s.mem⟩ := rfl
    _ = ⟨(readPtRegs s.mem s.cpu.rsp).cpu, s.mem⟩ := by rw [hreg]

/-- The end of `run_proc` is the same. -/
theorem runProcPops_eq : runProcPops = doAlltrapPops := rfl

end Frames

/-! ## The frame -/

/-- The registers hold 64 bits. -/
structure Cpu.Fits (c : Cpu) : Prop where
  reg : ∀ r, c.reg r < 2 ^ 64
  rip : c.rip < 2 ^ 64
  cs : c.cs < 2 ^ 64
  eflags : c.eflags < 2 ^ 64
  rsp : c.rsp < 2 ^ 64
  ss : c.ss < 2 ^ 64

/-- The frame that `do_trap` should be given. -/
def Cpu.frame (c : Cpu) (num errCode : Nat) : PtRegs where
  r15 := c.reg .r15
  r14 := c.reg .r14
  r13 := c.reg .r13
  r12 := c.reg .r12
  rbp := c.reg .rbp
  rbx := c.reg .rbx
  r11 := c.reg .r11
  r10 := c.reg .r10
  r9 := c.reg .r9
  r8 := c.reg .r8
  rax := c.reg .rax
  rcx := c.reg .rcx
  rdx := c.reg .rdx
  rsi := c.reg .rsi
  rdi := c.reg .rdi
  num := num
  errCode := errCode
  rip := c.rip
  cs := c.cs
  eflags := c.eflags
  rsp := c.rsp
  ss := c.ss

/-- A frame without the error code that its stub counts on: what comes after stands a field
too early, and the last field is the word above the stack. -/
def Cpu.shifted (c : Cpu) (num above : Nat) : PtRegs :=
  { c.frame num c.rip with rip := c.cs, cs := c.eflags, eflags := c.rsp, rsp := c.ss, ss := above }

theorem Cpu.frame_cpu (c : Cpu) (num errCode : Nat) : (c.frame num errCode).cpu = c := by
  have hreg : (c.frame num errCode).cpu.reg = c.reg := by
    funext r
    cases r <;> rfl
  calc (c.frame num errCode).cpu = { c with reg := (c.frame num errCode).cpu.reg } := rfl
    _ = c := by rw [hreg]

/-- The vectors that have a gate, and those an `int` in user mode may go through. -/
def trapVectors : List Nat := trapGates.map Prod.fst
def userVectors : List Nat := [3, 4, 5, 6, 7, 8, 9, 10, 11, 12, 13, 14, 16, 20]

/-- The error code in the frame. -/
def Cause.code (v : Nat) : Cause → Nat
  | .hardware e => if pushesError v then e else 0
  | .int => 0

/-- What the trap comes to at `call do_trap`, from the registers `c` and the memory `m`, on
the stack below `top`. -/
structure Entered (c : Cpu) (m : Mem) (top v : Nat) (why : Cause) (s : Core) : Prop where
  frame : readPtRegs s.mem s.cpu.rsp =
    if why = .int ∧ pushesError v then c.shifted v (m.rd 8 top) else c.frame v (why.code v)
  stack : top ≤ s.cpu.rsp + 176 ∧ s.cpu.rsp ≤ top
  outside : ∀ x, x < s.cpu.rsp ∨ top ≤ x → s.mem x = m x
  interrupts : s.cpu.eflags.testBit 9 = (c.eflags.testBit 9 && v ∉ [20, 32, 33])

section Enter

variable {addr : TrapLabel → Nat} {idt : Mem} {rsp0 v : Nat} {why : Cause} {s s' : Core}

/-- The code at the address of a label. -/
theorem find_label (hinj : Function.Injective addr) (l : TrapLabel) :
    (trapLabels.find? fun l' => addr l' = addr l) = some l := by
  have hsame : (fun l' => decide (addr l' = addr l)) = fun l' => decide (l' = l) :=
    funext fun l' => decide_eq_decide.mpr hinj.eq_iff
  rw [hsame]
  cases l <;> rfl

/-- The stubs even out what the processor pushes. -/
theorem stub_eq : ∀ g ∈ trapGates, g.2.1.stub =
    if pushesError g.1 then [.pushImm g.1] else [.pushImm 0, .pushImm g.1] := by decide

/-- What is pushed from the gate to `call do_trap`. -/
def entryWords (c : Cpu) (v : Nat) (why : Cause) : List Nat :=
  hardwareFrame c v why ++ ((if pushesError v then [v] else [0, v]) ++
    [c.reg .rdi, c.reg .rsi, c.reg .rdx, c.reg .rcx, c.reg .rax, c.reg .r8, c.reg .r9, c.reg .r10,
      c.reg .r11, c.reg .rbx, c.reg .rbp, c.reg .r12, c.reg .r13, c.reg .r14, c.reg .r15])

/-- The way through the gate is a row of pushes on the stack of the task segment. -/
theorem enterGate_pushes (hpresent : (readGate idt v).present)
    (hway : why = .int → (readGate idt v).user) :
    ∃ s₁, enterGate idt rsp0 v why s = some s₁ ∧ s₁.cpu.reg = s.cpu.reg ∧
      s₁.cpu.rip = (readGate idt v).offset ∧
      s₁.cpu.eflags = (readGate idt v).flags s.cpu.eflags ∧
      (⟨s₁.mem, s₁.cpu.rsp⟩ : Stack) =
        Stack.pushes ⟨s.mem, rsp0 / 16 * 16⟩ (hardwareFrame s.cpu v why) := by
  have hpush : ∀ i ∈ (hardwareFrame s.cpu v why).map Instr.pushImm, i.pushes = true := by
    intro i hi
    obtain ⟨w, -, rfl⟩ := List.mem_map.mp hi
    rfl
  have himm : ∀ c : Cpu, ((hardwareFrame s.cpu v why).map Instr.pushImm).map (Instr.word c) =
      hardwareFrame s.cpu v why := fun c => by
    rw [List.map_map]
    exact List.map_id _
  have hrun := Core.run_pushes hpush ⟨{ s.cpu with rsp := rsp0 / 16 * 16 }, s.mem⟩
  rw [himm] at hrun
  unfold enterGate
  rw [if_pos ⟨hpresent, hway⟩, hrun]
  exact ⟨_, rfl, rfl, rfl, rfl, rfl⟩

/-- And so is the way to `call do_trap`. -/
theorem enterTrap_pushes (rsp0 : Nat) (s : Core) (hinj : Function.Injective addr)
    {g : Nat × TrapLabel × Nat} (hg : g ∈ trapGates)
    (hgate : readGate idt g.1 = ⟨addr g.2.1, 0x08, g.2.2⟩)
    (hway : why = .int → (readGate idt g.1).user) :
    ∃ s', enterTrap addr idt rsp0 g.1 why s = some s' ∧
      s'.cpu.eflags = (readGate idt g.1).flags s.cpu.eflags ∧
      (⟨s'.mem, s'.cpu.rsp⟩ : Stack) =
        Stack.pushes ⟨s.mem, rsp0 / 16 * 16⟩ (entryWords s.cpu g.1 why) := by
  have hpresent : (readGate idt g.1).present = true := by
    have hall : ∀ g ∈ trapGates, g.2.2.testBit 7 = true := by decide
    rw [hgate]
    exact hall g hg
  have hcode : ∀ i ∈ g.2.1.stub ++ doAlltrapPushes, i.pushes = true := by
    have hall : ∀ g ∈ trapGates, ∀ i ∈ g.2.1.stub ++ doAlltrapPushes, i.pushes = true := by decide
    exact hall g hg
  obtain ⟨s₁, hs₁, hreg, hrip, hflags, hstack⟩ := enterGate_pushes (s := s) hpresent hway
  have hwords : (g.2.1.stub ++ doAlltrapPushes).map (Instr.word s₁.cpu) =
      (if pushesError g.1 then [g.1] else [0, g.1]) ++
        [s.cpu.reg .rdi, s.cpu.reg .rsi, s.cpu.reg .rdx, s.cpu.reg .rcx, s.cpu.reg .rax,
          s.cpu.reg .r8, s.cpu.reg .r9, s.cpu.reg .r10, s.cpu.reg .r11, s.cpu.reg .rbx,
          s.cpu.reg .rbp, s.cpu.reg .r12, s.cpu.reg .r13, s.cpu.reg .r14, s.cpu.reg .r15] := by
    rw [List.map_append, stub_eq g hg, ← hreg]
    split <;> rfl
  have hfind : (trapLabels.find? fun l => addr l = s₁.cpu.rip) = some g.2.1 := by
    rw [hrip, hgate]
    exact find_label hinj g.2.1
  have hrun := Core.run_pushes hcode s₁
  rw [hwords] at hrun
  refine ⟨s₁.run (g.2.1.stub ++ doAlltrapPushes), ?_, ?_, ?_⟩
  · unfold enterTrap
    rw [hs₁, Option.bind_eq_bind, Option.bind_some, hfind]
    rfl
  · rw [hrun]
    exact hflags
  · rw [hrun]
    show Stack.pushes ⟨s₁.mem, s₁.cpu.rsp⟩ _ = _
    rw [hstack, entryWords]
    exact (Stack.pushes_append _ _ _).symm

/-- No gate, or none for an `int`: the trap is not taken this way. -/
theorem enterTrap_none (h : (readGate idt v).present = false ∨
    why = .int ∧ (readGate idt v).user = false) : enterTrap addr idt rsp0 v why s = none := by
  unfold enterTrap enterGate
  rw [if_neg]
  · rfl
  · rintro ⟨hpresent, hway⟩
    rcases h with h | ⟨hint, h⟩
    · rw [h] at hpresent
      cases hpresent
    · have huser := hway hint
      rw [h] at huser
      cases huser

/-- The words of the way in are those of the frame, from the end, unless an `int` skipped the
error code. -/
theorem entryWords_reverse (c : Cpu) (v : Nat) (why : Cause) :
    (why = .int ∧ pushesError v = true ∧ (entryWords c v why).length = 21 ∧
      ∀ w, (entryWords c v why).reverse ++ [w] = (c.shifted v w).words) ∨
    ¬ (why = .int ∧ pushesError v = true) ∧ (entryWords c v why).length = 22 ∧
      (entryWords c v why).reverse = (c.frame v (why.code v)).words := by
  cases hp : pushesError v with
  | true =>
    cases why with
    | hardware e =>
      refine .inr ⟨fun h => Cause.noConfusion h.1, ?_, ?_⟩
      · rw [entryWords, hardwareFrame, if_pos hp, if_pos hp]
        rfl
      · rw [entryWords, hardwareFrame, if_pos hp, if_pos hp, Cause.code, if_pos hp]
        rfl
    | int =>
      refine .inl ⟨rfl, rfl, ?_, fun w => ?_⟩
      · rw [entryWords, if_pos hp]
        rfl
      · rw [entryWords, if_pos hp]
        rfl
  | false =>
    have hno : ¬ pushesError v = true := by
      rw [hp]
      exact Bool.false_ne_true
    refine .inr ⟨fun h => Bool.false_ne_true h.2, ?_, ?_⟩
    · cases why with
      | hardware e =>
        rw [entryWords, hardwareFrame, if_neg hno, if_neg hno]
        rfl
      | int =>
        rw [entryWords, if_neg hno]
        rfl
    · cases why with
      | hardware e =>
        rw [entryWords, hardwareFrame, if_neg hno, if_neg hno, Cause.code, if_neg hno]
        rfl
      | int =>
        rw [entryWords, if_neg hno]
        rfl

/-- The registers and an error code hold 64 bits, and so does all that is pushed. -/
theorem Cpu.Fits.entryWords {c : Cpu} (h : c.Fits) (hv : v < 2 ^ 64)
    (he : ∀ e, why = .hardware e → e < 2 ^ 64) : ∀ w ∈ entryWords c v why, w < 2 ^ 64 := by
  have hframe : ∀ w ∈ hardwareFrame c v why, w < 2 ^ 64 := by
    have hfive : ∀ w ∈ [c.ss, c.rsp, c.eflags, c.cs, c.rip], w < 2 ^ 64 := by
      simp only [List.mem_cons, List.not_mem_nil, or_false, forall_eq_or_imp, forall_eq]
      exact ⟨h.ss, h.rsp, h.eflags, h.cs, h.rip⟩
    cases why with
    | int => exact hfive
    | hardware e =>
      intro w hw
      rcases List.mem_append.mp hw with hw | hw
      · exact hfive w hw
      · split at hw
        · rw [List.mem_singleton.mp hw]
          exact he e rfl
        · exact absurd hw List.not_mem_nil
  have hstub : ∀ w ∈ (if pushesError v then [v] else [0, v]), w < 2 ^ 64 := by
    intro w hw
    split at hw
    · rw [List.mem_singleton.mp hw]
      exact hv
    · rcases List.mem_cons.mp hw with rfl | hw
      · exact Nat.two_pow_pos 64
      · rw [List.mem_singleton.mp hw]
        exact hv
  intro w hw
  rcases List.mem_append.mp hw with hw | hw
  · exact hframe w hw
  rcases List.mem_append.mp hw with hw | hw
  · exact hstub w hw
  · have hmap : w ∈ [Reg.rdi, .rsi, .rdx, .rcx, .rax, .r8, .r9, .r10, .r11, .rbx, .rbp, .r12, .r13,
        .r14, .r15].map c.reg := hw
    obtain ⟨r, -, rfl⟩ := List.mem_map.mp hmap
    exact h.reg r

/-- An interrupt gate clears the flag, and a trap gate does not. -/
theorem Gate.flags_interrupts (g : Gate) (eflags : Nat) :
    (g.flags eflags).testBit 9 = (eflags.testBit 9 && !g.masks) := by
  unfold Gate.flags
  cases hm : g.masks with
  | false => simp
  | true =>
    cases hbit : eflags.testBit 9 with
    | false => simp [hbit]
    | true =>
      rw [if_pos ⟨rfl, rfl⟩, Nat.testBit_eq_decide_div_mod_eq]
      rw [Nat.testBit_eq_decide_div_mod_eq] at hbit
      have hodd := of_decide_eq_true hbit
      exact decide_eq_false (by omega)

/-- A trap that comes through: there is a gate, for an `int` too if it is one. -/
def ComesThrough (v : Nat) (why : Cause) : Prop := v ∈ trapVectors ∧ (why = .int → v ∈ userVectors)

/-- FRAME: from the gate to `call do_trap`. -/
theorem enterTrap_entered (hinj : Function.Injective addr) (haddr : ∀ l, addr l < 2 ^ 64)
    (hfits : s.cpu.Fits) (herr : ∀ e, why = .hardware e → e < 2 ^ 64)
    (htop : 176 ≤ rsp0 / 16 * 16) (htaken : ComesThrough v why) :
    ∃ s', enterTrap addr (initTrap addr idt) rsp0 v why s = some s' ∧
      Entered s.cpu s.mem (rsp0 / 16 * 16) v why s' := by
  obtain ⟨hv, hint⟩ := htaken
  obtain ⟨g, hg, rfl⟩ := List.mem_map.mp hv
  have hgate := (readGate_initTrap haddr idt).1 g hg
  have huser : (readGate (initTrap addr idt) g.1).user = decide (g.1 ∈ userVectors) := by
    have hall : ∀ g ∈ trapGates, decide ((g.2.2 / 32) % 4 = 3) = decide (g.1 ∈ userVectors) := by
      decide
    rw [hgate]
    exact hall g hg
  have hmasks : (readGate (initTrap addr idt) g.1).masks = decide (g.1 ∈ [20, 32, 33]) := by
    have hall : ∀ g ∈ trapGates, decide (g.2.2 % 16 = 0xE) = decide (g.1 ∈ [20, 32, 33]) := by
      decide
    rw [hgate]
    exact hall g hg
  have hsmall : g.1 < 2 ^ 64 := by
    have hall : ∀ g ∈ trapGates, g.1 < 34 := by decide
    exact (hall g hg).trans (by decide)
  obtain ⟨s', hs', hflags, hstack⟩ := enterTrap_pushes rsp0 s hinj hg hgate
    fun hw => by rw [huser, decide_eq_true (hint hw)]
  have hmem : s'.mem = (Stack.pushes ⟨s.mem, rsp0 / 16 * 16⟩ (entryWords s.cpu g.1 why)).mem :=
    congrArg Stack.mem hstack
  have hsp : s'.cpu.rsp = (Stack.pushes ⟨s.mem, rsp0 / 16 * 16⟩ (entryWords s.cpu g.1 why)).sp :=
    congrArg Stack.sp hstack
  have hdown := Stack.pushes_sp ⟨s.mem, rsp0 / 16 * 16⟩ (entryWords s.cpu g.1 why)
  rw [← hsp] at hdown
  have hwords := hfits.entryWords hsmall herr
  have hlength : (entryWords s.cpu g.1 why).length ≤ 22 := by
    rcases entryWords_reverse s.cpu g.1 why with ⟨-, -, hl, -⟩ | ⟨-, hl, -⟩ <;> omega
  have hfit : 8 * (entryWords s.cpu g.1 why).length ≤
      (⟨s.mem, rsp0 / 16 * 16⟩ : Stack).sp := by
    show _ ≤ rsp0 / 16 * 16
    omega
  refine ⟨s', hs', ?_, ?_, fun x hx => ?_, ?_⟩
  · rcases entryWords_reverse s.cpu g.1 why with ⟨hw, hp, hl, hrev⟩ | ⟨hno, hl, hrev⟩
    · rw [if_pos ⟨hw, hp⟩]
      have hread := Stack.words_pushes 1 hfit hwords
      rw [hl, ← hmem, ← hsp] at hread
      exact readPtRegs_words (hread.trans (hrev _))
    · rw [if_neg hno]
      have hread := Stack.words_pushes 0 hfit hwords
      rw [hl, ← hmem, ← hsp] at hread
      exact readPtRegs_words (hread.trans ((List.append_nil _).trans hrev))
  · show rsp0 / 16 * 16 ≤ _ ∧ _ ≤ rsp0 / 16 * 16
    have hsp' : s'.cpu.rsp = rsp0 / 16 * 16 - 8 * (entryWords s.cpu g.1 why).length := hdown
    omega
  · rw [hmem]
    rw [hsp] at hx
    exact Stack.pushes_mem hfit hx
  · rw [hflags, Gate.flags_interrupts, hmasks, decide_not]

/-- THE WAY IN AND OUT: after `init_trap` a trap from user mode comes through if its vector
has a gate, and an `int` only through the gates that are open to users. `do_trap` is then
given the frame of the registers, unless an `int` skipped an error code; and the end of
`do_alltrap` goes on with the registers of the frame, which are those of before if the frame
was left alone. -/
theorem trap_entered (hinj : Function.Injective addr) (haddr : ∀ l, addr l < 2 ^ 64)
    (hfits : s.cpu.Fits) (herr : ∀ e, why = .hardware e → e < 2 ^ 64)
    (htop : 176 ≤ rsp0 / 16 * 16) :
    (ComesThrough v why → ∃ s', enterTrap addr (initTrap addr fun _ => 0) rsp0 v why s = some s' ∧
      Entered s.cpu s.mem (rsp0 / 16 * 16) v why s' ∧
      (∀ m, Core.run ⟨s'.cpu, m⟩ doAlltrapPops = ⟨(readPtRegs m s'.cpu.rsp).cpu, m⟩) ∧
      (¬ (why = .int ∧ pushesError v) → s'.run doAlltrapPops = ⟨s.cpu, s'.mem⟩)) ∧
    (¬ ComesThrough v why → enterTrap addr (initTrap addr fun _ => 0) rsp0 v why s = none) := by
  refine ⟨fun htaken => ?_, fun hnot => enterTrap_none ?_⟩
  · obtain ⟨s', hs', hentered⟩ := enterTrap_entered hinj haddr hfits herr htop htaken
    refine ⟨s', hs', hentered, fun m => Core.run_pops rfl, fun hno => ?_⟩
    have hframe := hentered.frame
    rw [if_neg hno] at hframe
    rw [Core.run_pops hframe, Cpu.frame_cpu]
  · obtain ⟨hset, hother⟩ := readGate_initTrap haddr fun _ => 0
    by_cases hv : v ∈ trapVectors
    · obtain ⟨g, hg, rfl⟩ := List.mem_map.mp hv
      have hint : why = .int ∧ g.1 ∉ userVectors := by
        by_contra hcon
        exact hnot ⟨hv, fun hw => by_contra fun hu => hcon ⟨hw, hu⟩⟩
      have hall : ∀ g ∈ trapGates, decide ((g.2.2 / 32) % 4 = 3) = decide (g.1 ∈ userVectors) := by
        decide
      refine .inr ⟨hint.1, ?_⟩
      rw [hset g hg]
      exact (hall g hg).trans (decide_eq_false hint.2)
    · refine .inl ?_
      rw [hother v hv]
      have hzero : readGate (fun _ => 0) v = ⟨0, 0, 0⟩ := by
        unfold readGate
        simp only [Mem.rd_zero fun _ _ _ => rfl]
        rfl
      rw [hzero]
      decide

end Enter

/-! ## On the processor -/

/-- The process that runs, with the registers `c`, traps through the gate of `v`; the frame
is what the kernel finds on the stack `stack` below `rsp0`. -/
def gateStep (h : Services) (addr : TrapLabel → Nat) (stack : Mem) (rsp0 : Nat) (m : Machine)
    (c : Cpu) (v : Nat) (why : Cause) (e : Trap) (m' : Machine) : Prop :=
  ∃ s', enterTrap addr (initTrap addr fun _ => 0) rsp0 v why ⟨c, stack⟩ = some s' ∧
    e.pt = readPtRegs s'.mem s'.cpu.rsp ∧ trapStep h m e m'

/-- The registers the process that runs goes on with. -/
def Machine.cpu (m : Machine) : Option Cpu := m.user.map PtRegs.cpu

/-- The pops at the end of `do_alltrap` and of `run_proc` load these, wherever its frame is. -/
def Machine.Pops (m : Machine) (c : Cpu) : Prop :=
  ∀ s : Core, m.user = some (readPtRegs s.mem s.cpu.rsp) →
    s.run doAlltrapPops = ⟨c, s.mem⟩ ∧ s.run runProcPops = ⟨c, s.mem⟩

theorem Machine.pops {m : Machine} {c : Cpu} (h : m.cpu = some c) : m.Pops c := by
  intro s hs
  rw [Machine.cpu, hs] at h
  have hc : (readPtRegs s.mem s.cpu.rsp).cpu = c := Option.some.inj h
  have hrun : s.run doAlltrapPops = ⟨c, s.mem⟩ := by rw [Core.run_pops rfl, hc]
  rw [runProcPops_eq]
  exact ⟨hrun, hrun⟩

/-- REGISTERS: a process that loses the processor in a trap has every register back when it
next runs, whatever ran in between and whatever the kernel stack holds by then. -/
theorem registers_kept {h : Services} {addr : TrapLabel → Nat} {stack : Mem} {rsp0 v q : Nat}
    {m m₁ m₂ : Machine} {c : Cpu} {why : Cause} {e : Trap} {es : List Trap}
    (hinj : Function.Injective addr) (haddr : ∀ l, addr l < 2 ^ 64) (hfits : c.Fits)
    (herr : ∀ e, why = .hardware e → e < 2 ^ 64) (htop : 176 ≤ rsp0 / 16 * 16)
    (hwhole : ¬ (why = .int ∧ pushesError v)) (hm : m.Sound) (hq : m.on = some q)
    (htrap : gateStep h addr stack rsp0 m c v why e m₁) (hlost : m₁.on ≠ some q)
    (hlive : m₁.k.Live q)
    (hrest : Steps (fun m e m' => m.on ≠ some q ∧ trapStep h m e m') m₁ es m₂)
    (hback : m₂.on = some q) : m₂.cpu = some c ∧ m₂.Pops c ∧ m₂.k.mm.cr3 = m.k.mm.cr3 := by
  obtain ⟨s', hs', hpt, hstep⟩ := htrap
  obtain ⟨htaken, hnone⟩ := trap_entered (v := v) (s := ⟨c, stack⟩) hinj haddr hfits herr htop
  have hin : ComesThrough v why := by
    by_contra hnot
    rw [hnone hnot] at hs'
    cases hs'
  obtain ⟨s'', hs'', hentered, -, -⟩ := htaken hin
  cases hs''.symm.trans hs'
  have hframe := hentered.frame
  rw [if_neg hwhole] at hframe
  obtain ⟨huser, hcr3⟩ := (resumed hm hstep hlost hlive hrest hback).1 hq
  have hcpu : m₂.cpu = some c := by
    rw [Machine.cpu, huser, hpt, hframe]
    exact congrArg some (Cpu.frame_cpu c _ _)
  exact ⟨hcpu, Machine.pops hcpu, hcr3⟩

/-! ## Samples -/

/-- The labels, one after the other. -/
def sampleAddr (l : TrapLabel) : Nat := trapLabels.idxOf l

theorem sampleAddr_injective : Function.Injective sampleAddr := fun l l' h =>
  (List.idxOf_inj (by cases l <;> decide)).mp h

theorem sampleAddr_lt (l : TrapLabel) : sampleAddr l < 2 ^ 64 := by
  cases l <;> decide

/-- Only `rax` has a value. -/
def sampleCpu (rax : Nat) : Cpu where
  reg := fun r => if r = .rax then rax else 0
  rip := 0
  cs := 0
  eflags := 0
  rsp := 0
  ss := 0

theorem sampleCpu_fits {rax : Nat} (h : rax < 2 ^ 64) : (sampleCpu rax).Fits where
  reg r := by
    show (if r = .rax then rax else 0) < _
    split
    · exact h
    · decide
  rip := Nat.two_pow_pos 64
  cs := Nat.two_pow_pos 64
  eflags := Nat.two_pow_pos 64
  rsp := Nat.two_pow_pos 64
  ss := Nat.two_pow_pos 64

/-- A system call. -/
theorem trap_entered_syscall : ComesThrough 20 .int ∧
    ∃ s', enterTrap sampleAddr (initTrap sampleAddr fun _ => 0) 4096 20 .int
        ⟨sampleCpu 7, fun _ => 0⟩ = some s' ∧
      Entered (sampleCpu 7) (fun _ => 0) 4096 20 .int s' ∧
      (∀ m, Core.run ⟨s'.cpu, m⟩ doAlltrapPops = ⟨(readPtRegs m s'.cpu.rsp).cpu, m⟩) ∧
      (¬ (Cause.int = .int ∧ pushesError 20) → s'.run doAlltrapPops = ⟨sampleCpu 7, s'.mem⟩) := by
  have htaken : ComesThrough 20 .int := ⟨by decide, fun _ => by decide⟩
  exact ⟨htaken, (trap_entered sampleAddr_injective sampleAddr_lt
    (s := ⟨sampleCpu 7, fun _ => 0⟩) (sampleCpu_fits (by decide)) (fun _ h => Cause.noConfusion h)
    (by decide)).1 htaken⟩

/-- The timer interrupts the first of two processes. -/
theorem registers_kept_contended : ∃ m₁ m₂ : Machine,
    gateStep Services.idle sampleAddr (fun _ => 0) 4096 ⟨contended, some {}⟩ (sampleCpu 7) 32
        (.hardware 0) (tick 7) m₁ ∧
      Steps (fun m e m' => m.on ≠ some 0 ∧ trapStep Services.idle m e m') m₁ [tick 8] m₂ ∧
        m₂.cpu = some (sampleCpu 7) ∧ m₂.Pops (sampleCpu 7) ∧
          m₂.k.mm.cr3 = contended.mm.cr3 := by
  obtain ⟨m₁, m₂, htrap, hlost, hlive, hrest, hback⟩ := contended_run
  have herr : ∀ e, Cause.hardware 0 = .hardware e → e < 2 ^ 64 := fun e he => by
    cases he
    decide
  have hfits : (sampleCpu 7).Fits := sampleCpu_fits (by decide)
  have hwhole : ¬ (Cause.hardware 0 = .int ∧ pushesError 32) := fun h => Cause.noConfusion h.1
  obtain ⟨s', hs', hentered⟩ : ∃ s', enterTrap sampleAddr (initTrap sampleAddr fun _ => 0) 4096 32
      (.hardware 0) ⟨sampleCpu 7, fun _ => 0⟩ = some s' ∧
        Entered (sampleCpu 7) (fun _ => 0) 4096 32 (.hardware 0) s' :=
    enterTrap_entered sampleAddr_injective sampleAddr_lt hfits herr (by decide)
      ⟨by decide, fun h => Cause.noConfusion h⟩
  have hframe := hentered.frame
  rw [if_neg hwhole] at hframe
  have hgate : gateStep Services.idle sampleAddr (fun _ => 0) 4096 ⟨contended, some {}⟩
      (sampleCpu 7) 32 (.hardware 0) (tick 7) m₁ := ⟨s', hs', hframe.symm, htrap⟩
  exact ⟨m₁, m₂, hgate, hrest, registers_kept sampleAddr_injective
    sampleAddr_lt hfits herr (by decide) hwhole (contended_sound {}) rfl hgate hlost hlive hrest
    hback⟩

end Myos.Kernel
