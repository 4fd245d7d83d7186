import Myos.Lib.Run
import Myos.Kernel.Exit
import Myos.Kernel.ForkFrames

/-!
# Copy on write

The kernel's address spaces against a machine in which every process has a
memory of its own. `CowEvent` is what can happen to an address space: a load
or a store of the running process, the fault one of them raises, `sys_fork`,
`sys_exit`, and another process getting the processor. `Cow` ties the process
records to the address spaces (`Vm`); every event keeps it, and what the
processes see moves as the private memories do (`cow_simulates`).

`copy_on_write` says it of whole runs, with the two facts that rest on the
same invariant: no frame a process has mapped is free, and the kernel serves
every request.
-/

namespace Myos.Kernel

open Myos.Lib

/-! ## Private memories -/

/-- What can happen to the address spaces; a load says what it returned, a
fork which slot the new process got. -/
inductive CowEvent where
  | load (va : Nat) (b : UInt8)
  | store (va : Nat) (b : UInt8)
  | fault (va : Nat) (write : Bool)
  | fork (child : Nat)
  | exit
  | run (p : Nat)

/-- A machine in which every process owns a memory. -/
structure Private where
  mem : Nat → Option (Nat → UInt8)
  running : Option Nat

/-- Loads and stores are of the memory of the running process, a fork copies
it whole, and a fault is not to be noticed. -/
def Private.step (a : Private) : CowEvent → Private → Prop
  | .load va b, a' => ∃ p m, a.running = some p ∧ a.mem p = some m ∧ m va = b ∧ a' = a
  | .store va b, a' => ∃ p m, a.running = some p ∧ a.mem p = some m ∧
      a' = { a with mem := Function.update a.mem p (some (Function.update m va b)) }
  | .fault _ _, a' => a' = a
  | .fork q, a' => ∃ p m, a.running = some p ∧ a.mem p = some m ∧ a.mem q = none ∧
      a' = { a with mem := Function.update a.mem q (some m) }
  | .exit, a' => ∃ p, a.running = some p ∧ a'.mem = Function.update a.mem p none ∧
      ∀ q, a'.running = some q → a'.mem q ≠ none
  | .run p, a' => a.mem p ≠ none ∧ a' = { a with running := some p }

/-! ## The kernel -/

/-- The directory of the running process. -/
def KState.curPgdir (k : KState) : Option Nat := k.current.map fun p => (k.procs p).pgdir

/-- What becomes of a user access of the running process. -/
def KState.user (k : KState) (va : Nat) (write : Bool) : Xlate :=
  mmu k.mm.mem k.mm.cr3 va ⟨true, write⟩

/-- The kernel and the processor: an access goes where the tables say, or
raises the fault that `do_trap` handles. The kernel always finds a frame. -/
def cowStep (k : KState) : CowEvent → KState → Prop
  | .load va b, k' => k.current ≠ none ∧ UserVa va ∧
      ∃ pa, k.user va false = .ok pa ∧ k.mm.mem pa = b ∧ k' = k
  | .store va b, k' => k.current ≠ none ∧ UserVa va ∧
      ∃ pa, k.user va true = .ok pa ∧
        k' = KState.setMm (k.mm.setMem (Function.update k.mm.mem pa b)) k
  | .fault va write, k' => k.current ≠ none ∧ UserVa va ∧
      ∃ code, faultCode write (k.user va write) = some code ∧
        onMm (pageFault k.curPgdir va code) k = .ok () k' ∧ k'.mm.starved = false
  | .fork child, k' => k.current ≠ none ∧ sysFork k = .ok (child : Int) k' ∧ k'.mm.starved = false
  | .exit, k' => k.current ≠ none ∧ ∃ c, sysExit k = .ok c k'
  | .run p, k' => (k.procs p).status = .runnable ∧ runProc p k = .ok () k'

/-- The process records in step with the address spaces: the processes with a
directory are the runnable ones, each has its stack mapped, and the free slots
are others. -/
structure Cow (k : KState) (root : Nat → Option Nat) (kdir : Nat) : Prop where
  vm : Vm k.mm root kdir ∅
  kpgdir : k.kpgdir = frameVa kdir
  dir : ∀ {p g}, root p = some g → (k.procs p).pgdir = frameVa g
  live : ∀ {p}, (k.procs p).status = .runnable ↔ root p ≠ none
  stack : ∀ {p}, root p ≠ none → target (leaf k.mm.mem root p stackPage) ≠ none
  current : ∀ {p}, k.current = some p → ∃ g, root p = some g ∧ k.mm.cr3 = pageSize * g
  slots : ∃ l, k.Slots l ∧ ∀ p ∈ l, p < maxProc ∧ root p = none

/-- The private memories are what the processes see. -/
structure Sees (k : KState) (root : Nat → Option Nat) (a : Private) : Prop where
  running : a.running = k.current
  live : ∀ {p}, a.mem p = none ↔ root p = none
  mem : ∀ {p m va}, a.mem p = some m → UserVa va → m va = view k.mm.mem root p va

/-- The kernel does what the machine of private memories does. -/
def Refines (k : KState) (a : Private) : Prop :=
  ∃ root kdir, Cow k root kdir ∧ Sees k root a

namespace Cow

variable {k k' : KState} {root : Nat → Option Nat} {kdir : Nat} {p q g va : Nat}

/-- The processor's tables are those of the running process. -/
theorem user_eq (h : Cow k root kdir) (hcur : k.current ≠ none) :
    ∃ p g, k.current = some p ∧ root p = some g ∧ k.mm.cr3 = pageSize * g ∧
      k.curPgdir = some (frameVa g) ∧ ∀ va w, k.user va w =
        mmu k.mm.mem (pageSize * g) va ⟨true, w⟩ := by
  obtain ⟨p, hp⟩ := Option.ne_none_iff_exists'.mp hcur
  obtain ⟨g, hg, hcr3⟩ := h.current hp
  refine ⟨p, g, hp, hg, hcr3, ?_, fun va w => by rw [KState.user, hcr3]⟩
  rw [KState.curPgdir, hp, Option.map_some, h.dir hg]

/-- An access that goes through is to a mapped page. -/
theorem user_ok (h : Cow k root kdir) (hroot : root p = some g) (hva : UserVa va) {w : Bool}
    {pa : Nat} (hpa : mmu k.mm.mem (pageSize * g) va ⟨true, w⟩ = .ok pa) :
    ∃ f, target (leaf k.mm.mem root p va) = some f ∧ pa = pageSize * f + va % pageSize ∧
      (w = true → leaf k.mm.mem root p va &&& pteW ≠ 0) := by
  rw [h.vm.mmu_user hroot hva] at hpa
  cases hf : target (leaf k.mm.mem root p va) with
  | none =>
    rw [hf] at hpa
    cases hpa
  | some f =>
    rw [hf] at hpa
    by_cases hper : Access.permits ⟨true, w⟩ (leaf k.mm.mem root p va) = true
    · simp only [hper, if_true, Xlate.ok.injEq] at hpa
      exact ⟨f, rfl, hpa.symm, (h.vm.permits_user hva hf).mp hper⟩
    · simp only [hper] at hpa
      cases hpa

/-- The memory changes, and nothing the records depend on. -/
theorem setMm (h : Cow k root kdir) {s : Mm} (hvm : Vm s root kdir ∅) (hcr3 : s.cr3 = k.mm.cr3)
    (hkept : ∀ p, root p ≠ none → target (leaf s.mem root p stackPage) ≠ none) :
    Cow (KState.setMm s k) root kdir :=
  ⟨hvm, h.kpgdir, h.dir, h.live, fun hr => hkept _ hr, fun hp => by
    obtain ⟨g, hg, hc⟩ := h.current hp
    exact ⟨g, hg, hcr3.trans hc⟩, h.slots⟩

/-! ### Loads, stores and faults -/

/-- STORE: the byte is seen by the process that stored it, at that address only. -/
theorem store (h : Cow k root kdir) (hcur : k.current = some p) (hva : UserVa va) {pa : Nat}
    {b : UInt8} (hpa : k.user va true = .ok pa) :
    Cow (KState.setMm (k.mm.setMem (Function.update k.mm.mem pa b)) k) root kdir ∧
      (∀ p' va', UserVa va' → view (Function.update k.mm.mem pa b) root p' va' =
        if p' = p ∧ va' = va then b else view k.mm.mem root p' va') ∧
      ∀ p' va', UserVa va' →
        leaf (Function.update k.mm.mem pa b) root p' va' = leaf k.mm.mem root p' va' := by
  obtain ⟨g, hg, hcr3⟩ := h.current hcur
  rw [KState.user, hcr3] at hpa
  obtain ⟨f, hf, rfl, hw⟩ := h.user_ok hg hva hpa
  obtain ⟨-, hnt, hk, -⟩ := h.vm.mapped hva hf
  have hmod : va % pageSize < pageSize := Nat.mod_lt _ (by decide)
  have hother : ∀ k' o, k' ≠ f → o < pageSize →
      Function.update k.mm.mem (pageSize * f + va % pageSize) b (pageSize * k' + o) =
        k.mm.mem (pageSize * k' + o) := by
    intro k' o hk' ho
    refine Function.update_of_ne ?_ _ _
    unfold pageSize at *
    omega
  refine ⟨h.setMm (h.vm.bytes hnt hk hother) rfl fun p' hr => ?_, fun p' va' hva' => ?_,
    fun p' va' hva' => Vm.leaf_bytes hnt hother hva'.lt⟩
  · rw [Mm.setMem_mem, Vm.leaf_bytes hnt hother userVa_stackPage.lt]
    exact h.stack hr
  · rw [Vm.view_bytes hnt hother hva']
    by_cases hsame : p' = p ∧ va' = va
    · rw [hsame.1, hsame.2, if_pos hf, if_pos ⟨rfl, rfl⟩, Function.update_self]
    · rw [if_neg hsame]
      by_cases hf' : target (leaf k.mm.mem root p' va') = some f
      · -- the frame has one page only, so this is another byte of it
        obtain ⟨rfl, hpage⟩ := h.vm.page_of_writable hva hva' hf (hw rfl) hf'
        rw [if_pos hf', view_eq hf']
        refine Function.update_of_ne ?_ _ _
        unfold pageSize at *
        omega
      · rw [if_neg hf']

/-- LOAD: a mapped page can be read, and shows what the process sees. -/
theorem load (h : Cow k root kdir) (hcur : k.current = some p) (hva : UserVa va)
    (hmap : target (leaf k.mm.mem root p va) ≠ none) :
    ∃ pa, k.user va false = .ok pa ∧ k.mm.mem pa = view k.mm.mem root p va := by
  obtain ⟨g, hg, hcr3⟩ := h.current hcur
  obtain ⟨f, hf⟩ := Option.ne_none_iff_exists'.mp hmap
  refine ⟨pageSize * f + va % pageSize, ?_, (view_eq hf).symm⟩
  rw [KState.user, hcr3, h.vm.mmu_user hg hva, hf]
  exact if_pos ((h.vm.permits_user hva hf).mpr fun hw => by cases hw)

/-- FAULT: nobody notices a fault that is handled, and the access goes through. -/
theorem fault (h : Cow k root kdir) (hcur : k.current ≠ none) (hva : UserVa va) {w : Bool}
    {code : Nat} (hcode : faultCode w (k.user va w) = some code)
    (hns : (onMm (pageFault k.curPgdir va code) k).state.mm.starved = false) :
    ∃ s, onMm (pageFault k.curPgdir va code) k = .ok () (KState.setMm s k) ∧
      Cow (KState.setMm s k) root kdir ∧
      (∀ p' va', UserVa va' → view s.mem root p' va' = view k.mm.mem root p' va') ∧
      (∀ p' va', UserVa va' → va' / pageSize ≠ va / pageSize →
        leaf s.mem root p' va' = leaf k.mm.mem root p' va') ∧
      ∃ pa, (KState.setMm s k).user va w = .ok pa := by
  obtain ⟨p, g, -, hg, hcr3, hdir, huser⟩ := h.user_eq hcur
  rw [huser] at hcode
  rw [hdir] at hns ⊢
  obtain ⟨s, hrun, hs⟩ :=
    h.vm.pageFault_handled hg hcr3 hva hcode (KState.Starves.of_onMm hns)
  obtain ⟨pa, hpa⟩ := hs.done
  refine ⟨s, onMm_ok hrun, h.setMm hs.vm hs.cr3 fun p' hr => hs.kept userVa_stackPage (h.stack hr),
    fun p' va' hva' => hs.view hva', fun p' va' hva' hne => hs.other hva' (.inr hne), pa, ?_⟩
  rw [KState.user, KState.setMm_mm, hs.cr3, hcr3]
  exact hpa

/-- A store to a page that is not there, or not to be written, faults. -/
theorem faults (h : Cow k root kdir) (hcur : k.current = some p) (hva : UserVa va)
    (hro : leaf k.mm.mem root p va &&& pteW = 0) :
    ∃ code, faultCode true (k.user va true) = some code := by
  obtain ⟨g, hg, hcr3⟩ := h.current hcur
  cases hx : k.user va true with
  | ok pa =>
    rw [KState.user, hcr3] at hx
    obtain ⟨f, -, -, hw⟩ := h.user_ok hg hva hx
    exact absurd hro (hw rfl)
  | notPresent => exact ⟨_, rfl⟩
  | denied => exact ⟨_, rfl⟩

/-- Four frames are enough for it. -/
theorem fault_spends (h : Cow k root kdir) (hcur : k.current ≠ none) (hva : UserVa va) {w : Bool}
    {code : Nat} (hcode : faultCode w (k.user va w) = some code) :
    k.mm.Spends 4 (onMm (pageFault k.curPgdir va code) k).state.mm := by
  obtain ⟨p, g, -, hg, hcr3, hdir, huser⟩ := h.user_eq hcur
  rw [huser] at hcode
  unfold onMm
  rw [hdir, Act.zoom_state]
  exact h.vm.pageFault_spends hg hcr3 hva hcode

/-! ### The scheduler -/

theorem kva2pa_frameVa (hg : g < 2 ^ 19) : kva2pa (frameVa g) = pageSize * g := by
  unfold kva2pa u64 frameVa
  unfold kbase pageSize
  omega

/-- RUN: a process that may run gets the processor. -/
theorem running (h : Cow k root kdir) (hrun : (k.procs p).status = .runnable) :
    Cow (k.running p) root kdir := by
  obtain ⟨g, hg⟩ := Option.ne_none_iff_exists'.mp (h.live.mp hrun)
  have hg' : g < 2 ^ 19 := h.vm.tables.small_of_table
    ⟨p, [], tablePath_nil, by rw [tableAt, Radix.node_nil, hg]⟩
  have hcr3 : kva2pa (k.procs p).pgdir = pageSize * g := by
    rw [h.dir hg, kva2pa_frameVa hg']
  rw [KState.running, hcr3]
  refine ⟨h.vm.setCr3 _, h.kpgdir, h.dir, h.live, h.stack, fun {q} hq => ?_, h.slots⟩
  cases hq
  exact ⟨g, hg, rfl⟩

/-- HALT: nothing runs. -/
theorem halted (h : Cow k root kdir) : Cow { k with current := none } root kdir :=
  ⟨h.vm, h.kpgdir, h.dir, h.live, h.stack, fun hp => (by cases hp), h.slots⟩

/-! ### Forking -/

/-- What a fork does to the address spaces: `q` gets the directory `n`, and
sees what `p` sees. -/
structure Forked (root : Nat → Option Nat) (kdir p q n : Nat) (s s' : Mm) : Prop where
  vm : Vm s' (Function.update root q (some n)) kdir ∅
  cr3 : s'.cr3 = s.cr3
  view : ∀ {p' va}, UserVa va → view s'.mem (Function.update root q (some n)) p' va =
    if p' = q then Myos.Kernel.view s.mem root p va else Myos.Kernel.view s.mem root p' va
  stack : ∀ {p'}, (p' ≠ q → target (leaf s.mem root p' stackPage) ≠ none) →
    target (leaf s'.mem (Function.update root q (some n)) p' stackPage) ≠ none
  shared : ∀ {va}, UserVa va → va < stackPage →
    leaf s'.mem (Function.update root q (some n)) q va &&& pteW = 0

/-- The directory, the shared pages and the copy of the stack make a fork. -/
theorem Forked.of_copies {n : Nat} {s s₁ s₂ s₃ : Mm} (hqp : p ≠ q) (hcr3 : s₁.cr3 = s.cr3)
    (hview : ∀ p' va, UserVa va → Myos.Kernel.view s₁.mem (Function.update root q (some n)) p' va =
      if p' = q then 0 else Myos.Kernel.view s.mem root p' va)
    (hleaf : ∀ p' va, UserVa va → leaf s₁.mem (Function.update root q (some n)) p' va =
      if p' = q then 0 else leaf s.mem root p' va)
    (h₂ : Vm.SharedTo (Function.update root q (some n)) kdir p q s₁ s₂ stackPage)
    (hvm₃ : Vm s₃ (Function.update root q (some n)) kdir ∅) (hcr3₃ : s₃.cr3 = s₂.cr3)
    (hview₃ : ∀ p' va, UserVa va → Myos.Kernel.view s₃.mem (Function.update root q (some n)) p' va =
      if p' = q ∧ va / pageSize = stackPage / pageSize
      then Myos.Kernel.view s₂.mem (Function.update root q (some n)) p va
      else Myos.Kernel.view s₂.mem (Function.update root q (some n)) p' va)
    (hstack₃ : target (leaf s₃.mem (Function.update root q (some n)) q stackPage) ≠ none)
    (hleaf₃ : ∀ p' va, UserVa va → ¬ (p' = q ∧ va / pageSize = stackPage / pageSize) →
      leaf s₃.mem (Function.update root q (some n)) p' va =
        leaf s₂.mem (Function.update root q (some n)) p' va) :
    Forked root kdir p q n s s₃ := by
  refine ⟨hvm₃, by rw [hcr3₃, h₂.cr3, hcr3], fun {p' va} hva => ?_, fun {p'} hp' => ?_,
    fun {va} hva hlt => ?_⟩
  · rw [hview₃ p' va hva]
    by_cases hp' : p' = q
    · rw [if_pos hp', hp']
      by_cases hpage : va / pageSize = stackPage / pageSize
      · rw [if_pos ⟨rfl, hpage⟩, h₂.view hqp hva, hview p va hva, if_neg hqp]
      · have hbelow : va < stackPage := by
          have htop := hva.2
          unfold stackPage ustacktop pageSize at *
          omega
        rw [if_neg fun hk => hpage hk.2, h₂.below hva hbelow, hview p va hva, if_neg hqp]
    · rw [if_neg fun hk => hp' hk.1, if_neg hp', h₂.view hp' hva, hview p' va hva, if_neg hp']
  · by_cases hq' : p' = q
    · rw [hq']
      exact hstack₃
    · rw [hleaf₃ p' _ userVa_stackPage fun hk => hq' hk.1, Ne, h₂.mapped hq' userVa_stackPage,
        hleaf p' _ userVa_stackPage, if_neg hq']
      exact hp' hq'
  · rw [hleaf₃ q va hva fun hk => ?_]
    · exact h₂.shared hva hlt
    · have hpage := hk.2
      unfold stackPage ustacktop pageSize at *
      omega

/-- The part of `sys_fork` that copies the address space and the open files. -/
theorem forkSpace_run (hvm : Vm k.mm root kdir ∅) (hk : k.kpgdir = frameVa kdir)
    (hroot : root p = some g) (hdir : (k.procs p).pgdir = frameVa g)
    (hcr3 : k.mm.cr3 = pageSize * g) (hq : q < maxProc) (hrootq : root q = none)
    (hstack : target (leaf k.mm.mem root p stackPage) ≠ none)
    (hns : (forkSpace p q k).state.mm.starved = false) :
    ∃ n s k₁, forkSpace p q k = .ok ((k₁.procs q).pid : Int)
        (k₁.setProc q { k₁.procs q with status := .runnable }) ∧
      Forked root kdir p q n k.mm s ∧
      ((KState.setMm s k).setProc q { k.procs q with pgdir := frameVa n }).FilesOnly k₁ := by
  have hqp : p ≠ q := by
    rintro rfl
    rw [hrootq] at hroot
    cases hroot
  have hrest : ∀ pgdir, Act.Within KState.Starves (do
      onMm (copyStack pgdir)
      copyFiles p q maxOpenFile 0
      setProc q fun r => { r with status := .runnable }
      Act.gets fun k => ((k.procs q).pid : Int)) := fun pgdir =>
    KState.Starves.bind (KState.Starves.onMm (copyStack_starves pgdir)) fun _ =>
      KState.Starves.bind (copyFiles_starves p q _ 0) fun _ =>
        KState.Starves.bind (KState.Starves.setProc q _) fun _ => KState.Starves.gets _
  have hshare : ∀ (pgdir : Nat) (r : Int), Act.Within KState.Starves (if r < 0 then pure r else do
      onMm (copyStack pgdir)
      copyFiles p q maxOpenFile 0
      setProc q fun r => { r with status := .runnable }
      Act.gets fun k => ((k.procs q).pid : Int)) := fun pgdir r => by
    split
    · exact KState.Starves.pure r
    · exact hrest pgdir
  unfold forkSpace at hns ⊢
  rw [Act.gets_bind_apply, hk] at hns ⊢
  obtain ⟨n, s₁, hrun₁, hvm₁, hcr3₁, hview₁, hleaf₁⟩ := hvm.allocVm_run hq hrootq
    (KState.Starves.of_onMm (KState.Starves.of_bind (fun pgdir => by
      refine KState.Starves.bind (KState.Starves.setProc q _) fun _ => ?_
      show Act.Within _ (if _ then _ else _)
      split
      · exact KState.Starves.pure _
      · exact KState.Starves.bind (KState.Starves.gets _) fun dir =>
          KState.Starves.bind (KState.Starves.onMm (sharePages_starves _ _ _ _)) fun r =>
            hshare pgdir r) hns))
  have hrootp : Function.update root q (some n) p = some g := by
    rw [Function.update_of_ne hqp, hroot]
  have hrootn : Function.update root q (some n) q = some n := Function.update_self q _ root
  obtain ⟨k₂, hset, hk₂⟩ : ∃ k₂, setProc q (fun r => { r with pgdir := frameVa n })
      (KState.setMm s₁ k) = .ok () k₂ ∧
      k₂ = (KState.setMm s₁ k).setProc q { k.procs q with pgdir := frameVa n } := ⟨_, rfl, rfl⟩
  have hmm₂ : k₂.mm = s₁ := by rw [hk₂]; rfl
  have hdir₂ : (k₂.procs p).pgdir = frameVa g := by
    rw [hk₂, KState.setProc_procs, if_neg hqp]
    exact hdir
  rw [Act.bind_ok (onMm_ok hrun₁), Act.bind_ok hset, if_neg (frameVa_ne_zero n),
    Act.gets_bind_apply, hdir₂] at hns ⊢
  -- the pages up to the stack are shared
  have hstart : Vm.SharedTo (Function.update root q (some n)) kdir p q s₁ s₁ utext :=
    .start hvm₁ fun va hva => by rw [hleaf₁ q va hva, if_pos rfl]
  have hend : utext + pageSize * turns utext (ustacktop - pageSize) = stackPage := by decide
  have hns₂ := KState.Starves.of_onMm (KState.Starves.of_bind (hshare (frameVa n)) hns)
  rw [hmm₂] at hns₂
  obtain ⟨s₂, hrun₂, h₂⟩ := Vm.sharePages_run hqp hrootp hrootn hstart (by decide) (Nat.le_refl _)
    (by rw [hend]; exact Nat.sub_le _ _) hns₂
  rw [hend] at h₂
  have hrun₂' : onMm (sharePages (frameVa g) (frameVa n) (turns utext (ustacktop - pageSize)) utext)
      k₂ = .ok 0 (KState.setMm s₂ k₂) := onMm_ok (by rw [hmm₂]; exact hrun₂)
  rw [Act.bind_ok hrun₂', if_neg (show ¬ (0 : Int) < 0 by decide)] at hns ⊢
  -- the stack is copied
  have hmapped : target (leaf s₂.mem (Function.update root q (some n)) p stackPage) ≠ none := by
    rw [Ne, h₂.mapped hqp userVa_stackPage, hleaf₁ p _ userVa_stackPage, if_neg hqp]
    exact hstack
  obtain ⟨f, hf⟩ := Option.ne_none_iff_exists'.mp hmapped
  obtain ⟨s₃, hrun₃, hvm₃, hcr3₃, hview₃, hq₃, hleaf₃⟩ := h₂.vm.copyStack_run hrootp hrootn
    (h₂.cr3.trans (hcr3₁.trans hcr3)) hf (h₂.above userVa_stackPage (Nat.le_refl _))
    (KState.Starves.of_onMm (KState.Starves.of_bind (fun _ =>
      KState.Starves.bind (copyFiles_starves p q _ 0) fun _ =>
        KState.Starves.bind (KState.Starves.setProc q _) fun _ => KState.Starves.gets _) hns))
  obtain ⟨k₁, hrun₄, hfiles⟩ := copyFiles_run p q maxOpenFile 0 (KState.setMm s₃ k₂)
  have hrun₃' : onMm (copyStack (frameVa n)) (KState.setMm s₂ k₂) = .ok () (KState.setMm s₃ k₂) :=
    onMm_ok hrun₃
  rw [Act.bind_ok hrun₃', Act.bind_ok hrun₄, Act.bind_ok (setProc_apply _ _ _)]
  refine ⟨n, s₃, k₁, ?_, .of_copies hqp hcr3₁ hview₁ hleaf₁ h₂ hvm₃ hcr3₃ hview₃ hq₃ hleaf₃,
    by rw [hk₂] at hfiles; exact hfiles⟩
  rw [Act.gets_apply, KState.setProc_self]

/-- What a fork takes is known before. -/
theorem fork_spends (h : Cow k root kdir) (hcur : k.current = some p) (hhead : k.procHead = some q) :
    k.mm.Spends (5 + 3 * sharedPages k.mm.mem root p (turns utext stackPage) utext)
      (sysFork k).state.mm := by
  obtain ⟨g, hg, -⟩ := h.current hcur
  obtain ⟨l, hl, hfree⟩ := h.slots
  rw [KState.Slots, hhead] at hl
  obtain ⟨l, rfl, -⟩ := hl.of_some
  obtain ⟨hq, hrootq⟩ := hfree q List.mem_cons_self
  have hqp : p ≠ q := by
    rintro rfl
    rw [hrootq] at hg
    cases hg
  obtain ⟨k₁, heq, hkdir, hmm, hother, -⟩ := sysFork_start hcur hhead
  rw [heq, ← hmm]
  exact forkSpace_spends (by rw [hmm]; exact h.vm) (hkdir.trans h.kpgdir) hg
    (by rw [hother p hqp]; exact h.dir hg) hq hrootq

/-- The records in step again, once the new process may run. -/
theorem forked (h : Cow k root kdir) (hg : root p = some g) (hcur : k.current = some p)
    {n : Nat} {l : List Nat} (hl : k.Slots (q :: l))
    (hfree : ∀ p' ∈ q :: l, p' < maxProc ∧ root p' = none) {s : Mm} {k₂ : KState}
    (hforked : Forked root kdir p q n k.mm s)
    (hfiles : (k.forking p q (frameVa n) s).FilesOnly k₂) :
    Cow (k₂.setProc q { k₂.procs q with status := .runnable }) (Function.update root q (some n))
      kdir := by
  have hqp : p ≠ q := by
    rintro rfl
    rw [(hfree p List.mem_cons_self).2] at hg
    cases hg
  have hfresh : ∀ p' ∈ l, p' ≠ q := fun p' hp' hpq =>
    (List.nodup_cons.mp hl.nodup).1 (hpq ▸ hp')
  have hmm₂ : k₂.mm = s := hfiles.mm
  have hfields : ∀ {p'}, p' ≠ q → (k₂.procs p').pgdir = (k.procs p').pgdir ∧
      (k₂.procs p').status = (k.procs p').status ∧ (k₂.procs p').link = (k.procs p').link := by
    intro p' hp'
    rw [hfiles.pgdir, hfiles.status, hfiles.link, KState.forking_procs hp']
    exact ⟨rfl, rfl, rfl⟩
  refine ⟨?_, hfiles.kpgdir.trans h.kpgdir, fun {p' g'} hg' => ?_, fun {p'} => ?_,
    fun {p'} hp' => ?_, fun {p'} hp' => ?_, l, ?_, fun p' hp' => ?_⟩
  · rw [KState.setProc_mm, hmm₂]
    exact hforked.vm
  · rw [KState.setProc_procs]
    by_cases hq' : p' = q
    · rw [hq', Function.update_self] at hg'
      cases hg'
      rw [if_pos hq', hfiles.pgdir, KState.forking, KState.setProc_self]
    · rw [Function.update_of_ne hq'] at hg'
      rw [if_neg hq', (hfields hq').1]
      exact h.dir hg'
  · rw [KState.setProc_procs]
    by_cases hq' : p' = q
    · rw [if_pos hq', hq', Function.update_self]
      exact ⟨fun _ => Option.some_ne_none n, fun _ => rfl⟩
    · rw [if_neg hq', (hfields hq').2.1, Function.update_of_ne hq']
      exact h.live
  · rw [KState.setProc_mm, hmm₂]
    refine hforked.stack fun hq' => h.stack ?_
    rwa [Function.update_of_ne hq'] at hp'
  · cases (hfiles.current.trans hcur).symm.trans hp'
    obtain ⟨g', hg', hcr3⟩ := h.current hcur
    refine ⟨g', by rw [Function.update_of_ne hqp, hg'], ?_⟩
    rw [KState.setProc_mm, hmm₂, hforked.cr3, hcr3]
  · rw [KState.Slots, KState.setProc_procHead, hfiles.procHead]
    refine hl.taken.congr fun p' hp' => ?_
    rw [KState.setProc_procs, if_neg (hfresh p' hp'), (hfields (hfresh p' hp')).2.2, KState.taken,
      KState.setProc_procs, if_neg (hfresh p' hp')]
  · rw [Function.update_of_ne (hfresh p' hp')]
    exact hfree p' (List.mem_cons_of_mem q hp')

/-- FORK: the new process gets a copy of what the caller sees. -/
theorem fork (h : Cow k root kdir) (hcur : k.current = some p) (hhead : k.procHead = some q)
    (hns : (sysFork k).state.mm.starved = false) :
    ∃ n k', sysFork k = .ok (q : Int) k' ∧ Cow k' (Function.update root q (some n)) kdir ∧
      root q = none ∧ k'.current = some p ∧ k'.mm.starved = false ∧
      (∀ p' va, UserVa va → view k'.mm.mem (Function.update root q (some n)) p' va =
        if p' = q then view k.mm.mem root p va else view k.mm.mem root p' va) ∧
      ∀ va, UserVa va → va < stackPage →
        leaf k'.mm.mem (Function.update root q (some n)) q va &&& pteW = 0 := by
  obtain ⟨g, hg, hcr3⟩ := h.current hcur
  obtain ⟨l, hl, hfree⟩ := h.slots
  obtain ⟨l, rfl⟩ : ∃ l', l = q :: l' := by
    rw [KState.Slots, hhead] at hl
    obtain ⟨l', rfl, -⟩ := hl.of_some
    exact ⟨l', rfl⟩
  obtain ⟨hq, hrootq⟩ := hfree q List.mem_cons_self
  have hqp : p ≠ q := by
    rintro rfl
    rw [hrootq] at hg
    cases hg
  obtain ⟨k₁, heq, hkdir, hmm, hother, hset⟩ := sysFork_start hcur hhead
  rw [heq] at hns ⊢
  obtain ⟨n, s, k₂, hrun, hforked, hfiles⟩ := forkSpace_run (k := k₁) (by rw [hmm]; exact h.vm)
    (hkdir.trans h.kpgdir) hg (by rw [hother p hqp]; exact h.dir hg) (by rw [hmm]; exact hcr3)
    hq hrootq (by rw [hmm]; exact h.stack (by rw [hg]; exact Option.some_ne_none g)) hns
  rw [hset] at hfiles
  rw [hmm] at hforked
  rw [hrun] at hns ⊢
  have hmm₂ : k₂.mm = s := hfiles.mm
  have hpid : (k₂.procs q).pid = q := by
    rw [hfiles.pid, KState.forking, KState.setProc_self]
  refine ⟨n, _, by rw [hpid], h.forked hg hcur hl hfree hforked hfiles, hrootq,
    hfiles.current.trans hcur, hns, fun p' va hva => ?_, fun va hva hlt => ?_⟩
  · rw [KState.setProc_mm, hmm₂, hforked.view hva]
  · rw [KState.setProc_mm, hmm₂]
    exact hforked.shared hva hlt

/-! ### The end of a process -/

/-- The records in step again, once the slot is given back. -/
theorem stopped (h : Cow k root kdir) (hg : root p = some g) {s : Mm} {k₁ : KState}
    (hvm : Vm s (Function.update root p none) kdir ∅)
    (hleaf : ∀ p' va, p' ≠ p → UserVa va →
      leaf s.mem (Function.update root p none) p' va = leaf k.mm.mem root p' va)
    (hfiles : (k.ended p s).FilesOnly k₁) :
    Cow (k₁.stopped p) (Function.update root p none) kdir := by
  obtain ⟨l, hl, hfree⟩ := h.slots
  have hpl : p ∉ l := fun hmem => by
    rw [(hfree p hmem).2] at hg
    cases hg
  have hmm : (k₁.stopped p).mm = s := hfiles.mm
  have hproc : ∀ {p'}, p' ≠ p → ((k₁.stopped p).procs p').pgdir = (k.procs p').pgdir ∧
      ((k₁.stopped p).procs p').status = (k.procs p').status := by
    intro p' hp'
    rw [KState.stopped_procs, if_neg hp', hfiles.pgdir, hfiles.status, KState.ended,
      KState.setProc_procs, if_neg hp']
    exact ⟨rfl, rfl⟩
  have hended : (k.ended p s).Slots l := Chain.congr hl fun p' hp' => by
    rw [KState.ended, KState.setProc_procs, if_neg fun hpp : p' = p => hpl (hpp ▸ hp')]
    rfl
  refine ⟨by rw [hmm]; exact hvm, hfiles.kpgdir.trans h.kpgdir, fun {p' g'} hg' => ?_,
    fun {p'} => ?_, fun {p'} hp' => ?_, fun hp' => (by cases hp'), _,
    (hfiles.slots hended).stopped hpl, fun p' hp' => ?_⟩
  · by_cases hpp : p' = p
    · rw [hpp, Function.update_self] at hg'
      cases hg'
    · rw [Function.update_of_ne hpp] at hg'
      rw [(hproc hpp).1]
      exact h.dir hg'
  · by_cases hpp : p' = p
    · rw [hpp, Function.update_self, KState.stopped_procs, if_pos rfl]
      exact ⟨(by intro hs; cases hs), fun hn => absurd rfl hn⟩
    · rw [(hproc hpp).2, Function.update_of_ne hpp]
      exact h.live
  · have hpp : p' ≠ p := fun hpp => hp' (by rw [hpp, Function.update_self])
    rw [Function.update_of_ne hpp] at hp'
    rw [hmm, hleaf p' _ hpp userVa_stackPage]
    exact h.stack hp'
  · rcases List.mem_cons.mp hp' with hpp | hmem
    · rw [hpp, Function.update_self]
      exact ⟨h.vm.pids hg, rfl⟩
    · have hpp : p' ≠ p := fun hpp => hpl (hpp ▸ hmem)
      rw [Function.update_of_ne hpp]
      exact hfree p' hmem

/-- EXIT: the process is gone, and the others see what they saw. -/
theorem exit (h : Cow k root kdir) (hcur : k.current = some p) :
    ∃ c k', sysExit k = .ok c k' ∧ Cow k' (Function.update root p none) kdir ∧
      k'.mm.starved = k.mm.starved ∧
      ∀ p' va, p' ≠ p → UserVa va → view k'.mm.mem (Function.update root p none) p' va =
        view k.mm.mem root p' va := by
  obtain ⟨g, hg, -⟩ := h.current hcur
  obtain ⟨s, hdestroy, hvm, -, hst, hleaf, hview⟩ := h.vm.destroyVm_run hg
  rw [← h.dir hg] at hdestroy
  obtain ⟨k₁, hrel, hfiles⟩ := releaseFiles_run p maxOpenFile 0 (k.ended p s)
  have hrun : destroyProc (some p) k = schedule (k₁.stopped p) := destroyProc_run hcur hdestroy hrel
  have hcow := h.stopped hg hvm hleaf hfiles
  have hmm : (k₁.stopped p).mm = s := hfiles.mm
  have hview₁ : ∀ p' va, p' ≠ p → UserVa va →
      view (k₁.stopped p).mm.mem (Function.update root p none) p' va = view k.mm.mem root p' va := by
    intro p' va hp' hva
    rw [hmm, hview p' va hp' hva]
  have hst₁ : (k₁.stopped p).mm.starved = k.mm.starved := by rw [hmm, hst]
  unfold sysExit
  rw [Act.gets_bind_apply, hcur]
  rcases schedule_run (k := k₁.stopped p) (fun p' hp' => by cases hp')
    with ⟨p', hrunnable, hsched⟩ | hsched
  · rw [Act.bind_ok (hrun.trans hsched)]
    refine ⟨.run p', (k₁.stopped p).running p', rfl, hcow.running hrunnable, ?_, ?_⟩
    · rw [KState.running_starved, hst₁]
    · rw [KState.running_mem]
      exact hview₁
  · rw [Act.bind_ok (hrun.trans hsched)]
    exact ⟨.halt, _, rfl, hcow.halted, hst₁, hview₁⟩

end Cow

/-! ## The simulation -/

section Simulation

variable {k k' : KState} {a : Private} {root : Nat → Option Nat} {kdir : Nat}

/-- The running process has a private memory, and sees it. -/
theorem Sees.current (h : Sees k root a) (hcow : Cow k root kdir) (hcur : k.current ≠ none) :
    ∃ p m, k.current = some p ∧ a.running = some p ∧ a.mem p = some m := by
  obtain ⟨p, g, hp, hg, -⟩ := hcow.user_eq hcur
  have hne : a.mem p ≠ none := fun hn => by
    rw [h.live.mp hn] at hg
    cases hg
  obtain ⟨m, hm⟩ := Option.ne_none_iff_exists'.mp hne
  exact ⟨p, m, hp, h.running.trans hp, hm⟩

/-- What is seen after a store. -/
theorem Sees.store (h : Sees k root a) {p va : Nat} {m : Nat → UInt8} {b : UInt8}
    (hm : a.mem p = some m) (hcur : k'.current = k.current)
    (hview : ∀ q va', UserVa va' → view k'.mm.mem root q va' =
      if q = p ∧ va' = va then b else view k.mm.mem root q va') :
    Sees k' root { a with mem := Function.update a.mem p (some (Function.update m va b)) } := by
  refine ⟨h.running.trans hcur.symm, fun {q} => ?_, fun {q m' va'} hm' hva' => ?_⟩
  · by_cases hq : q = p
    · rw [hq]
      simp only [Function.update_self, reduceCtorEq, false_iff]
      rw [← h.live, hm]
      exact Option.some_ne_none m
    · simp only [Function.update_of_ne hq]
      exact h.live
  · rw [hview q va' hva']
    by_cases hq : q = p
    · subst hq
      simp only [Function.update_self, Option.some.injEq] at hm'
      subst hm'
      by_cases hv : va' = va
      · rw [hv, Function.update_self, if_pos ⟨rfl, rfl⟩]
      · rw [Function.update_of_ne hv, if_neg fun hk => hv hk.2, h.mem hm hva']
    · simp only [Function.update_of_ne hq] at hm'
      rw [if_neg fun hk => hq hk.1, h.mem hm' hva']

/-- What is seen after a fork. -/
theorem Sees.fork (h : Sees k root a) {p child n : Nat} {m : Nat → UInt8}
    (hm : a.mem p = some m) (hcur : k'.current = k.current)
    (hview : ∀ q va, UserVa va → view k'.mm.mem (Function.update root child (some n)) q va =
      if q = child then view k.mm.mem root p va else view k.mm.mem root q va) :
    Sees k' (Function.update root child (some n))
      { a with mem := Function.update a.mem child (some m) } := by
  refine ⟨h.running.trans hcur.symm, fun {q} => ?_, fun {q m' va} hm' hva => ?_⟩
  · by_cases hq : q = child
    · rw [hq]
      simp only [Function.update_self, reduceCtorEq]
    · simp only [Function.update_of_ne hq]
      exact h.live
  · rw [hview q va hva]
    by_cases hq : q = child
    · subst hq
      simp only [Function.update_self, Option.some.injEq] at hm'
      subst hm'
      rw [if_pos rfl, h.mem hm hva]
    · simp only [Function.update_of_ne hq] at hm'
      rw [if_neg hq, h.mem hm' hva]

/-- What is seen after the end of a process. -/
theorem Sees.exit (h : Sees k root a) {p : Nat}
    (hview : ∀ q va, q ≠ p → UserVa va → view k'.mm.mem (Function.update root p none) q va =
      view k.mm.mem root q va) :
    Sees k' (Function.update root p none) ⟨Function.update a.mem p none, k'.current⟩ := by
  refine ⟨rfl, fun {q} => ?_, fun {q m va} hm hva => ?_⟩
  · by_cases hq : q = p
    · rw [hq]
      simp only [Function.update_self]
    · simp only [Function.update_of_ne hq]
      exact h.live
  · have hqp : q ≠ p := by
      rintro rfl
      simp only [Function.update_self, reduceCtorEq] at hm
    simp only [Function.update_of_ne hqp] at hm
    rw [hview q va hqp hva, h.mem hm hva]

/-- STEP: the private memories move with every event. -/
theorem cow_simulates {e : CowEvent} (href : Refines k a) (hstep : cowStep k e k') :
    ∃ a', Private.step a e a' ∧ Refines k' a' := by
  obtain ⟨root, kdir, hcow, hsees⟩ := href
  cases e with
  | load va b =>
    obtain ⟨hcur, hva, pa, hpa, hb, rfl⟩ := hstep
    obtain ⟨p, g, hp, hg, -, -, huser⟩ := hcow.user_eq hcur
    obtain ⟨p', m, hp', hrun, hm⟩ := hsees.current hcow hcur
    cases hp.symm.trans hp'
    rw [huser] at hpa
    obtain ⟨f, hf, rfl, -⟩ := hcow.user_ok hg hva hpa
    have hseen : m va = b := by rw [hsees.mem hm hva, view_eq hf, hb]
    exact ⟨a, ⟨p, m, hrun, hm, hseen, rfl⟩, root, kdir, hcow, hsees⟩
  | store va b =>
    obtain ⟨hcur, hva, pa, hpa, rfl⟩ := hstep
    obtain ⟨p, m, hp, hrun, hm⟩ := hsees.current hcow hcur
    obtain ⟨hcow', hview, -⟩ := hcow.store (b := b) hp hva hpa
    exact ⟨_, ⟨p, m, hrun, hm, rfl⟩, root, kdir, hcow', hsees.store hm rfl hview⟩
  | fault va write =>
    obtain ⟨hcur, hva, code, hcode, hrun, hns⟩ := hstep
    obtain ⟨s, hrun', hcow', hview, -⟩ := hcow.fault hcur hva hcode (by rw [hrun]; exact hns)
    cases hrun.symm.trans hrun'
    exact ⟨a, rfl, root, kdir, hcow', hsees.running, hsees.live, fun {q m va'} hm hva' => by
      rw [KState.setMm_mm, hview q va' hva', hsees.mem hm hva']⟩
  | fork child =>
    obtain ⟨hcur, hrun, hns⟩ := hstep
    obtain ⟨p, m, hp, hrunning, hm⟩ := hsees.current hcow hcur
    obtain ⟨-, q, -, hq, -⟩ := sysFork_eq_ok hrun
    obtain ⟨n, k₁, hrun', hcow', hnone, hcur', -, hview, -⟩ :=
      hcow.fork hp hq (by rw [hrun]; exact hns)
    have hres := hrun.symm.trans hrun'
    rw [Res.ok.injEq] at hres
    obtain ⟨hchild, rfl⟩ := hres
    obtain rfl : child = q := Int.ofNat.inj hchild
    exact ⟨_, ⟨p, m, hrunning, hm, hsees.live.mpr hnone, rfl⟩, _, kdir, hcow',
      hsees.fork hm (hcur'.trans hp.symm) hview⟩
  | exit =>
    obtain ⟨hcur, c, hrun⟩ := hstep
    obtain ⟨p, m, hp, hrunning, hm⟩ := hsees.current hcow hcur
    obtain ⟨c', k₁, hrun', hcow', -, hview⟩ := hcow.exit hp
    cases hrun.symm.trans hrun'
    have hsees' : Sees k' (Function.update root p none) ⟨Function.update a.mem p none, k'.current⟩ :=
      hsees.exit hview
    refine ⟨_, ⟨p, hrunning, rfl, fun q hq hn => ?_⟩, _, kdir, hcow', hsees'⟩
    obtain ⟨g, hg, -⟩ := hcow'.current hq
    rw [hsees'.live.mp hn] at hg
    cases hg
  | run p =>
    obtain ⟨hstatus, hrun⟩ := hstep
    have hres := hrun.symm.trans (runProc_ok k p)
    rw [Res.ok.injEq] at hres
    obtain ⟨-, rfl⟩ := hres
    refine ⟨_, ⟨fun hn => hcow.live.mp hstatus (hsees.live.mp hn), rfl⟩, root,
      kdir, hcow.running hstatus, rfl, hsees.live, fun {q m va} hm hva => ?_⟩
    rw [KState.running_mem, hsees.mem hm hva]

end Simulation

/-! ## Whole runs -/

/-- The states to start from. No table is reached twice and every one is in
use; a page that is mapped is private: its frame is one nothing else is mapped
to, with one reference; every runnable process has its stack page mapped; the
lower half of the kernel's directory, which every new process gets a copy of,
is empty; and the free slots are on their list. -/
structure Start (k : KState) (root : Nat → Option Nat) (kdir : Nat) : Prop where
  tables : Tables UserEntry userTop k.mm root
  pids : ∀ {p g}, root p = some g → p < maxProc
  tableCount : ∀ {g}, IsTable userTop k.mm.mem root g → k.mm.count g = 1
  kdirUse : kdir < k.mm.npages ∧ k.mm.count kdir ≠ 0
  kdirTable : ¬ IsTable userTop k.mm.mem root kdir
  kdirLow : ∀ {i}, i < userTop → Mem.entry k.mm.mem kdir i = 0
  mapped : ∀ {p va f}, va < 2 ^ 47 → target (leaf k.mm.mem root p va) = some f →
    f < k.mm.npages ∧ ¬ IsTable userTop k.mm.mem root f ∧ f ≠ kdir ∧ k.mm.count f = 1
  priv : ∀ {p va p' va' f}, va < 2 ^ 47 → va' < 2 ^ 47 →
    target (leaf k.mm.mem root p va) = some f → target (leaf k.mm.mem root p' va') = some f →
      p' = p ∧ va' / pageSize = va / pageSize
  flags : ∀ {p va}, UserVa va → leaf k.mm.mem root p va ≠ 0 →
    leaf k.mm.mem root p va &&& pteP ≠ 0 ∧ leaf k.mm.mem root p va &&& pteU ≠ 0
  kpgdir : k.kpgdir = frameVa kdir
  dir : ∀ {p g}, root p = some g → (k.procs p).pgdir = frameVa g
  live : ∀ {p}, (k.procs p).status = .runnable ↔ root p ≠ none
  stack : ∀ {p}, root p ≠ none → target (leaf k.mm.mem root p stackPage) ≠ none
  current : ∀ {p}, k.current = some p → ∃ g, root p = some g ∧ k.mm.cr3 = pageSize * g
  slots : ∃ l, k.Slots l ∧ ∀ p ∈ l, p < maxProc ∧ root p = none

/-- The machine of private memories that starts like the kernel. -/
def Private.of (k : KState) (root : Nat → Option Nat) : Private where
  mem p := (root p).map fun _ => view k.mm.mem root p
  running := k.current

section Start

variable {k : KState} {root : Nat → Option Nat} {kdir : Nat}

/-- Private pages are counted right. -/
theorem Start.cow (h : Start k root kdir) : Cow k root kdir := by
  have hone : ∀ {p va f}, UserVa va → target (leaf k.mm.mem root p va) = some f →
      userRefs k.mm.mem root f = 1 := by
    intro p va f hva hf
    obtain ⟨g, hg⟩ := Vm.root_of_target hf
    refine Owners.refs_of_unique (mem_userKeys.mpr ⟨h.pids hg, hva⟩)
      ((userFrame_page _ root p va).trans hf) fun key hkey hf' => ?_
    obtain ⟨va', hva', -, hpage⟩ := key_of_mem hkey
    obtain ⟨p', page⟩ := key
    subst hpage
    rw [userFrame_page] at hf'
    obtain ⟨hp, hpage⟩ := h.priv hva.lt hva'.lt hf hf'
    rw [hp, hpage]
  have hnone : ∀ {f}, hold ∅ f = 0 := hold_of_not_mem (Finset.notMem_empty _)
  refine ⟨⟨h.tables, h.pids, h.tableCount, h.kdirUse, h.kdirTable, h.kdirLow, fun {f} hpos => ?_,
    h.flags, fun hva hf _ => (h.mapped hva.lt hf).2.2.2, fun {p va f} hva hu hf => ?_⟩, h.kpgdir,
    h.dir, h.live, h.stack, h.current, h.slots⟩
  · rw [hnone, Nat.add_zero] at hpos ⊢
    obtain ⟨p, va, -, hva, hf⟩ := userRefs_pos.mp hpos
    obtain ⟨h1, h2, h3, h4⟩ := h.mapped hva.lt hf
    rw [hone hva hf]
    exact ⟨h1, h2, h3, h4⟩
  · obtain ⟨h1, h2, -, h4⟩ := h.mapped hva hf
    refine ⟨⟨h1, by rw [h4]; decide⟩, h2, ?_⟩
    rw [hnone, Nat.add_zero]
    by_contra hne
    obtain ⟨p', va', -, hva', hf'⟩ := userRefs_pos.mp (Nat.pos_of_ne_zero hne)
    exact hu (UserVa.page (h.priv hva'.lt hva hf' hf).2 hva')

theorem Private.of_sees (k : KState) (root : Nat → Option Nat) :
    Sees k root (Private.of k root) := by
  refine ⟨rfl, fun {p} => ?_, fun {p m va} hm _ => ?_⟩
  · show (root p).map _ = none ↔ _
    rw [Option.map_eq_none_iff]
  · obtain ⟨g, -, hmem⟩ := Option.map_eq_some_iff.mp hm
    rw [← hmem]

end Start

/-- A page of a live process is mapped to a frame: the processor, walking the
tables of the process, comes to it. -/
def Maps (k : KState) (p va f : Nat) : Prop :=
  (k.procs p).status = .runnable ∧ va < 2 ^ 47 ∧
    mmu k.mm.mem (kva2pa (k.procs p).pgdir) va ⟨false, false⟩ = .ok (pageSize * f + va % pageSize)

/-- No frame that is mapped is on the free list, and `alloc_page` hands none out. -/
def Apart (k : KState) : Prop :=
  ∃ l, FreeList k.mm l ∧ ∀ p va f, Maps k p va f → f ∉ l ∧
    ∀ flags n s, allocPage flags k.mm = .ok (some n) s → n ≠ f

/-- While it finds frames, the kernel serves what the running process asks
for: an access goes through at once or after the fault is handled, and the two
system calls return. -/
structure Serves (k : KState) : Prop where
  access : ∀ va w, k.current ≠ none → UserVa va → (∃ pa, k.user va w = .ok pa) ∨
    ∃ code, faultCode w (k.user va w) = some code ∧
      ((onMm (pageFault k.curPgdir va code) k).state.mm.starved = false →
        ∃ k' pa, onMm (pageFault k.curPgdir va code) k = .ok () k' ∧ k'.user va w = .ok pa)
  fork : ∀ q, k.current ≠ none → k.procHead = some q → (sysFork k).state.mm.starved = false →
    ∃ k', sysFork k = .ok (q : Int) k'
  exit : k.current ≠ none → ∃ c k', sysExit k = .ok c k'

namespace Cow

variable {k : KState} {root : Nat → Option Nat} {kdir : Nat}

theorem apart (h : Cow k root kdir) : Apart k := by
  obtain ⟨l, hl⟩ := h.vm.tables.list
  have huse : ∀ {p va f}, Maps k p va f → ¬ k.mm.Free f := by
    rintro p va f ⟨hstatus, hva, hmmu⟩
    obtain ⟨g, hg⟩ := Option.ne_none_iff_exists'.mp (h.live.mp hstatus)
    have hg' : g < 2 ^ 19 := h.vm.tables.small_of_table
      ⟨p, [], tablePath_nil, by rw [tableAt, Radix.node_nil, hg]⟩
    have hin : ∀ f', target (leaf k.mm.mem root p va) = some f' →
        f' < k.mm.npages ∧ ¬ k.mm.Free f' := by
      intro f' hf'
      by_cases hu : UserVa va
      · exact ⟨(h.vm.mapped hu hf').1, h.vm.mapped_not_free hu hf'⟩
      · have := (h.vm.outside hva hu hf').1
        exact ⟨this.1, this.not_free⟩
    rw [h.dir hg, kva2pa_frameVa hg',
      mmu_leaf h.vm.tables hg hva fun f' hf' => h.vm.frame_lt (hin f' hf').1] at hmmu
    cases hf : target (leaf k.mm.mem root p va) with
    | none =>
      rw [hf] at hmmu
      cases hmmu
    | some f' =>
      have hper : Access.permits ⟨false, false⟩ (leaf k.mm.mem root p va) = true := rfl
      rw [hf] at hmmu
      simp only [hper, if_true, Xlate.ok.injEq] at hmmu
      have hff : f' = f := by
        unfold pageSize at hmmu
        omega
      exact hff ▸ (hin f' hf).2
  refine ⟨l, hl, fun p va f hmap => ⟨fun hmem => huse hmap ((hl.mem f).mp hmem), ?_⟩⟩
  rintro flags n s halloc rfl
  cases hhead : k.mm.phead with
  | none =>
    rw [allocPage_none hhead] at halloc
    cases halloc
  | some n' =>
    obtain ⟨hfree, hn'⟩ := h.vm.tables.head hhead
    rw [allocPage_some hhead hn'] at halloc
    cases halloc
    exact huse hmap hfree

theorem serves (h : Cow k root kdir) : Serves k := by
  refine ⟨fun va w hcur hva => ?_, fun q hcur hq hns => ?_, fun hcur => ?_⟩
  · cases hx : k.user va w with
    | ok pa => exact .inl ⟨pa, rfl⟩
    | notPresent =>
      refine .inr ⟨_, rfl, fun hns => ?_⟩
      obtain ⟨s, hrun, -, -, -, pa, hpa⟩ := h.fault hcur hva (by rw [hx]; rfl) hns
      exact ⟨_, pa, hrun, hpa⟩
    | denied =>
      refine .inr ⟨_, rfl, fun hns => ?_⟩
      obtain ⟨s, hrun, -, -, -, pa, hpa⟩ := h.fault hcur hva (by rw [hx]; rfl) hns
      exact ⟨_, pa, hrun, hpa⟩
  · obtain ⟨p, hp⟩ := Option.ne_none_iff_exists'.mp hcur
    obtain ⟨n, k', hrun, -⟩ := h.fork hp hq hns
    exact ⟨k', hrun⟩
  · obtain ⟨p, hp⟩ := Option.ne_none_iff_exists'.mp hcur
    obtain ⟨c, k', hrun, -⟩ := h.exit hp
    exact ⟨c, k', hrun⟩

end Cow

/-- COPY ON WRITE: whatever the processes do, every load returns what it would
return if each had a memory of its own that a fork copies whole. No frame that
is mapped is free or handed out again, and the kernel serves every request. -/
theorem copy_on_write {k k' : KState} {es : List CowEvent} {root : Nat → Option Nat} {kdir : Nat}
    (hstart : Start k root kdir) (hrun : Steps cowStep k es k') :
    (∃ a, Steps Private.step (Private.of k root) es a ∧ a.running = k'.current) ∧
      Apart k' ∧ Serves k' := by
  have href : Refines k (Private.of k root) := ⟨root, kdir, hstart.cow, Private.of_sees k root⟩
  have hsim : ∃ a, Steps Private.step (Private.of k root) es a ∧ Refines k' a :=
    @Steps.simulate _ _ _ cowStep _ _ _ Private.step Refines
      (fun h hstep => cow_simulates h hstep) _ hrun href
  obtain ⟨a, hsteps, root', kdir', hcow, hsees⟩ := hsim
  exact ⟨⟨a, hsteps, hsees.running⟩, hcow.apart, hcow.serves⟩

/-! ## A state to start from -/

/-- Frame 2 is a directory, frames 3 to 5 its tables for the stack page, which
is frame 6. -/
def sampleMem : Mem :=
  Mem.wr 8 (Mem.wr 8 (Mem.wr 8 (Mem.wr 8 (fun _ => 0) (pageSize * 2 + 8 * 0) (tableEntry 3))
    (pageSize * 3 + 8 * 2) (tableEntry 4)) (pageSize * 4 + 8 * 127) (tableEntry 5))
    (pageSize * 5 + 8 * 510) (tableEntry 6)

def sampleRoot : Nat → Option Nat := fun p => if p = 0 then some 2 else none

/-- Twenty-four frames, the last seventeen of them free. One process runs. -/
def sampleKernel : KState where
  fs := {
    mm := {
      mem := sampleMem
      pages := fun i => if i < 7 then { count := 1 } else
        { link := if i + 1 < 24 then some (i + 1) else none }
      phead := some 7
      npages := 24
      kusedMem := 0
      pagesVa := 0
      cr3 := pageSize * 2
      starved := false }
    disk := fun _ => 0
    sb := 0
    blkBitmap := 0
    inoBitmap := 0
    inoTable := 0 }
  procs := fun p => if p = 0 then { status := .runnable, pgdir := frameVa 2 } else
    { link := if p + 1 < maxProc then some (p + 1) else none }
  procHead := some 1
  current := some 0
  filetable := fun _ => {}
  kbs := ⟨fun _ => 0, 0, 0⟩
  kpgdir := frameVa 1

/-- Where the entries of the tables lead. -/
def sampleLink (f i : Nat) : Option Nat :=
  if f = 5 ∧ i = 510 then some 6 else if f = 4 ∧ i = 127 then some 5
  else if f = 3 ∧ i = 2 then some 4 else if f = 2 ∧ i = 0 then some 3 else none

theorem sampleMem_entry {f i : Nat} (hi : i < 512) : Mem.entry sampleMem f i =
    match sampleLink f i with
    | some n => tableEntry n
    | none => 0 := by
  have hzero : Mem.entry (fun _ => 0) f i = 0 := Mem.rd_zero fun _ _ _ => rfl
  have hmod : ∀ n, n < 16 → tableEntry n % 2 ^ 64 = tableEntry n := by decide
  unfold sampleMem sampleLink
  rw [Mem.entry_wr _ _ hi (by decide), Mem.entry_wr _ _ hi (by decide),
    Mem.entry_wr _ _ hi (by decide), Mem.entry_wr _ _ hi (by decide), hzero,
    hmod 3 (by decide), hmod 4 (by decide), hmod 5 (by decide), hmod 6 (by decide)]
  split
  · rfl
  · split
    · rfl
    · split
      · rfl
      · split
        · rfl
        · rfl

theorem sampleMem_target {f i : Nat} (hi : i < 512) :
    target (Mem.entry sampleMem f i) = sampleLink f i := by
  rw [sampleMem_entry hi]
  cases sampleLink f i with
  | none => rfl
  | some n => exact target_tableEntry n

/-- The four tables, and the paths to them. -/
theorem sample_tableAt {p g : Nat} {path : List Nat} (hpath : TablePath userTop path)
    (hg : tableAt sampleMem sampleRoot p path = some g) : p = 0 ∧
      (path = [] ∧ g = 2 ∨ path = [0] ∧ g = 3 ∨ path = [0, 2] ∧ g = 4 ∨
        path = [0, 2, 127] ∧ g = 5) := by
  induction path using List.reverseRecOn generalizing g with
  | nil =>
    rw [tableAt, Radix.node_nil, sampleRoot] at hg
    by_cases hp : p = 0
    · rw [if_pos hp] at hg
      exact ⟨hp, .inl ⟨rfl, (Option.some.inj hg).symm⟩⟩
    · rw [if_neg hp] at hg
      cases hg
  | append_singleton path i ih =>
    rw [tableAt, Radix.node_snoc] at hg
    obtain ⟨f, hf, hnext⟩ := Option.bind_eq_some_iff.mp hg
    obtain ⟨hp, hcases⟩ := ih hpath.init hf
    rw [sampleMem_target hpath.last, sampleLink] at hnext
    refine ⟨hp, ?_⟩
    rcases hcases with ⟨rfl, rfl⟩ | ⟨rfl, rfl⟩ | ⟨rfl, rfl⟩ | ⟨rfl, rfl⟩
    · simp at hnext ⊢
      omega
    · simp at hnext ⊢
      omega
    · simp at hnext ⊢
      omega
    · exact absurd hpath.1 (by simp)

/-- The stack page of process 0 is the only page there is. -/
theorem sample_leaf {p va : Nat} (hva : va < 2 ^ 47) (hne : leaf sampleMem sampleRoot p va ≠ 0) :
    p = 0 ∧ va / pageSize = stackPage / pageSize ∧
      leaf sampleMem sampleRoot p va = tableEntry 6 := by
  obtain ⟨g, hg⟩ := tableAt_of_leaf hne
  obtain ⟨hp, hcases⟩ := sample_tableAt (tablePath_pathTo (pmlIndex_lt_userTop hva)) hg
  rw [leaf_of_tableAt hg, sampleMem_entry (pteIndex_lt va)] at hne ⊢
  have hpath : pathTo va = [0, 2, 127] ∧ g = 5 := by
    rcases hcases with ⟨h, -⟩ | ⟨h, -⟩ | ⟨h, -⟩ | h
    · simp [pathTo] at h
    · simp [pathTo] at h
    · simp [pathTo] at h
    · exact h
  obtain ⟨hpath, rfl⟩ := hpath
  by_cases hi : pteIndex va = 510
  · refine ⟨hp, (page_eq_iff (by decide) (lt_48_of_47 hva)).mpr ⟨hpath, hi⟩, ?_⟩
    rw [hi]
    rfl
  · simp [sampleLink, hi] at hne

theorem sample_stack : leaf sampleMem sampleRoot 0 stackPage = tableEntry 6 := by
  have hpath : pathTo stackPage = [0, 2, 127] := by decide
  have hnode : ∀ {path i f g}, tableAt sampleMem sampleRoot 0 path = some f → i < 512 →
      sampleLink f i = some g → tableAt sampleMem sampleRoot 0 (path ++ [i]) = some g := by
    intro path i f g hf hi hg
    rw [tableAt, Radix.node_snoc]
    rw [tableAt] at hf
    rw [hf, Option.bind_some, sampleMem_target hi, hg]
  have h₀ : tableAt sampleMem sampleRoot 0 [] = some 2 := rfl
  have h₁ := hnode h₀ (by decide) (i := 0) (g := 3) rfl
  have h₂ := hnode h₁ (by decide) (i := 2) (g := 4) rfl
  have h₃ := hnode h₂ (by decide) (i := 127) (g := 5) rfl
  have h₄ : tableAt sampleMem sampleRoot 0 (pathTo stackPage) = some 5 := by
    rw [hpath]
    exact h₃
  rw [leaf_of_tableAt h₄, sampleMem_entry (pteIndex_lt _)]
  rfl

theorem sample_count (f : Nat) : sampleKernel.mm.count f = if f < 7 then 1 else 0 := by
  show (if f < 7 then _ else _ : Page).count = _
  split <;> rfl

theorem sampleKernel_list : FreeList sampleKernel.mm
    [7, 8, 9, 10, 11, 12, 13, 14, 15, 16, 17, 18, 19, 20, 21, 22, 23] := by
  refine ⟨.cons (.cons (.cons (.cons (.cons (.cons (.cons (.cons (.cons (.cons (.cons (.cons
    (.cons (.cons (.cons (.cons (.cons .nil)))))))))))))))), fun f => ?_⟩
  have hn : sampleKernel.mm.npages = 24 := rfl
  rw [sample_count, hn]
  simp only [List.mem_cons, List.not_mem_nil, or_false]
  split <;> omega

theorem sampleKernel_start : Start sampleKernel sampleRoot 1 := by
  have hmem : sampleKernel.mm.mem = sampleMem := rfl
  have hone : ∀ {f}, f < 7 → sampleKernel.mm.count f = 1 := fun hf => by
    rw [sample_count, if_pos hf]
  have htab : ∀ {g}, IsTable userTop sampleKernel.mm.mem sampleRoot g → 2 ≤ g ∧ g ≤ 5 := by
    rintro g ⟨r, path, hpath, hg⟩
    have := (sample_tableAt hpath hg).2
    omega
  have hmapped : ∀ {p va f}, va < 2 ^ 47 → target (leaf sampleKernel.mm.mem sampleRoot p va) = some f →
      p = 0 ∧ va / pageSize = stackPage / pageSize ∧ f = 6 := by
    intro p va f hva hf
    rw [hmem] at hf
    obtain ⟨hp, hpage, hleaf⟩ := sample_leaf hva fun hz => by rw [hz, target_zero] at hf; cases hf
    rw [hleaf, target_tableEntry] at hf
    exact ⟨hp, hpage, (Option.some.inj hf).symm⟩
  have hroot : ∀ {p g}, sampleRoot p = some g → p = 0 ∧ g = 2 := by
    intro p g hg
    unfold sampleRoot at hg
    split at hg
    · next hp => exact ⟨hp, (Option.some.inj hg).symm⟩
    · cases hg
  refine ⟨⟨by decide, ⟨_, sampleKernel_list⟩, ?_, fun hg => ?_, fun hpi _ => ?_⟩, fun hg => ?_, fun hg => ?_,
    ⟨by decide, by rw [hone (by decide)]; decide⟩, fun hg => ?_, fun hi => ?_, fun hva hf => ?_,
    fun hva hva' hf hf' => ?_, fun hva hne => ?_, rfl, fun {p g} hg => ?_, fun {p} => ?_,
    fun {p} hp => ?_, fun {p} hp => ?_, [1, 2, 3, 4, 5, 6, 7, 8, 9], ?_, fun p hp => ?_⟩
  · intro r r' path path' g hp hp' hg hg'
    obtain ⟨hr, hc⟩ := sample_tableAt hp hg
    obtain ⟨hr', hc'⟩ := sample_tableAt hp' hg'
    refine ⟨hr.trans hr'.symm, Eq.symm ?_⟩
    rcases hc with ⟨rfl, rfl⟩ | ⟨rfl, rfl⟩ | ⟨rfl, rfl⟩ | ⟨rfl, rfl⟩ <;> simpa using hc'
  · obtain ⟨h1, h2⟩ := htab hg
    rw [hone (by omega)]
    exact ⟨Nat.lt_of_le_of_lt h2 (by decide), by decide⟩
  · rw [hmem, sampleMem_entry hpi.last]
    split
    · exact userEntry.link _
    · exact userEntry.zero
  · rw [(hroot hg).1]
    decide
  · exact hone (by have := htab hg; omega)
  · have := htab hg
    omega
  · rw [hmem, sampleMem_entry (Nat.lt_trans hi (by decide))]
    simp [sampleLink]
  · obtain ⟨-, -, rfl⟩ := hmapped hva hf
    refine ⟨by decide, fun hg => ?_, by decide, hone (by decide)⟩
    have := htab hg
    omega
  · obtain ⟨hp, hpage, -⟩ := hmapped hva hf
    obtain ⟨hp', hpage', -⟩ := hmapped hva' hf'
    exact ⟨hp'.trans hp.symm, hpage'.trans hpage.symm⟩
  · rw [hmem] at hne ⊢
    rw [(sample_leaf hva.lt hne).2.2]
    decide
  · obtain ⟨rfl, rfl⟩ := hroot hg
    rfl
  · by_cases hp : p = 0
    · subst hp
      exact ⟨fun _ => Option.some_ne_none 2, fun _ => rfl⟩
    · show (if p = 0 then _ else _ : Proc).status = _ ↔ (if p = 0 then _ else _ : Option Nat) ≠ _
      rw [if_neg hp, if_neg hp]
      simp
  · have hp0 : p = 0 := by
      by_contra hne
      exact hp (if_neg hne)
    rw [hmem, hp0, sample_stack, target_tableEntry]
    exact Option.some_ne_none 6
  · cases hp
    exact ⟨2, rfl, rfl⟩
  · exact .cons (.cons (.cons (.cons (.cons (.cons (.cons (.cons (.cons .nil))))))))
  · simp only [List.mem_cons, List.not_mem_nil, or_false] at hp
    refine ⟨?_, if_neg ?_⟩
    · unfold maxProc
      omega
    · omega

/-- The first page of the text is touched and written; a fork shares it; the
new process reads what was written, writes to the page and exits; and the old
one reads what it wrote. -/
def sampleEvents : List CowEvent :=
  [.fault utext true, .store utext 7, .fork 1, .run 1, .load utext 7, .fault utext true,
    .store utext 9, .exit, .run 0, .load utext 7]

/-- No page but the first is shared. -/
theorem sample_shared {m : Mem} (h : ∀ p va, UserVa va → va / pageSize ≠ utext / pageSize →
    leaf m sampleRoot p va = leaf sampleMem sampleRoot p va) :
    sharedPages m sampleRoot 0 (turns utext stackPage) utext ≤ 1 := by
  obtain ⟨n, hn⟩ : ∃ n, turns utext stackPage = n + 1 := ⟨turns utext stackPage - 1, by decide⟩
  have hend : utext + pageSize * (n + 1) = stackPage := by
    rw [← hn]
    decide
  have hzero : sharedPages m sampleRoot 0 n (utext + pageSize) = 0 := by
    refine sharedPages_zero fun va hlo hhi => ?_
    have hva : UserVa va := by
      refine ⟨by omega, ?_⟩
      unfold stackPage ustacktop pageSize at *
      omega
    rw [h 0 va hva (by unfold utext pageSize at *; omega)]
    by_contra hne
    have hpage := (sample_leaf hva.lt fun hz => hne (by rw [hz, target_zero])).2.1
    unfold stackPage ustacktop pageSize at *
    omega
  rw [hn, sharedPages, hzero]
  split <;> omega

theorem enter_room {k : KState} {m : Nat} (h : k.mm.Room m) (p cr3 : Nat) :
    (k.enter p cr3).mm.Room m := h.congr rfl rfl rfl rfl

/-- The first process touches the page, writes to it and forks. -/
theorem sample_forked : ∃ n k', Steps cowStep sampleKernel
      [.fault utext true, .store utext 7, .fork 1] k' ∧
    Cow k' (Function.update sampleRoot 1 (some n)) 1 ∧ k'.mm.Room 5 ∧
    (∀ p, p = 0 ∨ p = 1 → view k'.mm.mem (Function.update sampleRoot 1 (some n)) p utext = 7) ∧
    leaf k'.mm.mem (Function.update sampleRoot 1 (some n)) 1 utext &&& pteW = 0 := by
  have hva : UserVa utext := ⟨Nat.le_refl _, by decide⟩
  have hcur : sampleKernel.current ≠ none := Option.some_ne_none 0
  have h₀ := sampleKernel_start.cow
  have hroom₀ : sampleKernel.mm.Room 17 := ⟨by decide, rfl, _, sampleKernel_list, Nat.le_refl _⟩
  have hzero : leaf sampleKernel.mm.mem sampleRoot 0 utext = 0 := by
    by_contra hne
    exact absurd (sample_leaf hva.lt hne).2.1 (by decide)
  obtain ⟨code, hcode⟩ := h₀.faults (p := 0) rfl hva (by rw [hzero, Nat.zero_and])
  have hroom₁ := (h₀.fault_spends hcur hva hcode).room (m := 13) hroom₀
  obtain ⟨s₁, hrun₁, h₁, -, hleaf₁, pa, hpa⟩ := h₀.fault hcur hva hcode hroom₁.served
  rw [hrun₁] at hroom₁
  obtain ⟨k₂, hk₂⟩ : ∃ k₂, k₂ = KState.setMm (s₁.setMem (Function.update s₁.mem pa 7))
    (KState.setMm s₁ sampleKernel) := ⟨_, rfl⟩
  obtain ⟨h₂, hview₂, hleaf₂⟩ : Cow k₂ sampleRoot 1 ∧ _ ∧ _ := hk₂ ▸ h₁.store (p := 0) rfl hva hpa
  have hmem₂ : k₂.mm.mem = Function.update s₁.mem pa 7 := by rw [hk₂]; rfl
  have hroom₂ : k₂.mm.Room 13 := hk₂ ▸ hroom₁.congr rfl rfl rfl rfl
  have hcur₂ : k₂.current = some 0 := by rw [hk₂]; rfl
  have hhead₂ : k₂.procHead = some 1 := by rw [hk₂]; rfl
  have hshared : sharedPages k₂.mm.mem sampleRoot 0 (turns utext stackPage) utext ≤ 1 := by
    rw [hmem₂]
    exact sample_shared fun p va hva' hne => (hleaf₂ p va hva').trans (hleaf₁ p va hva' hne)
  have hseven : view k₂.mm.mem sampleRoot 0 utext = 7 := by
    rw [hmem₂]
    exact (hview₂ 0 utext hva).trans (if_pos ⟨rfl, rfl⟩)
  have hroom₃ := ((h₂.fork_spends hcur₂ hhead₂).mono (k := 8) (by omega)).room (m := 5) hroom₂
  obtain ⟨n, k₃, hrun₃, h₃, -, hcur₃, -, hview₃, hro₃⟩ := h₂.fork hcur₂ hhead₂ hroom₃.served
  rw [hrun₃] at hroom₃
  refine ⟨n, k₃, ?_, h₃, hroom₃, fun p hp => ?_, hro₃ utext hva (by decide)⟩
  · exact .cons ⟨hcur, hva, code, hcode, hrun₁, (hroom₁.served : _)⟩
      (.cons ⟨hcur, hva, pa, hpa, hk₂⟩
        (.cons ⟨by rw [hcur₂]; exact Option.some_ne_none 0, hrun₃, hroom₃.served⟩ (.nil _)))
  · rw [hview₃ p utext hva]
    cases hp with
    | inl hp => rw [hp, if_neg (by decide), hseven]
    | inr hp => rw [if_pos hp, hseven]

theorem copy_on_write_sample : ∃ k' a, Steps cowStep sampleKernel sampleEvents k' ∧
    Steps Private.step (Private.of sampleKernel sampleRoot) sampleEvents a ∧
      Apart k' ∧ Serves k' := by
  have hva : UserVa utext := ⟨Nat.le_refl _, by decide⟩
  have hsome : ∀ p : Nat, some p ≠ none := fun p => Option.some_ne_none p
  obtain ⟨n, k₃, hsteps, h₃, hroom₃, hseven, hro⟩ := sample_forked
  obtain ⟨root, hroot⟩ : ∃ root, root = Function.update sampleRoot 1 (some n) := ⟨_, rfl⟩
  rw [← hroot] at h₃ hseven hro
  -- what shows seven can be read
  have hload : ∀ {k : KState} {root : Nat → Option Nat} {p : Nat}, Cow k root 1 →
      k.current = some p → view k.mm.mem root p utext = 7 →
      cowStep k (.load utext 7) k := fun {k root p} h hcur hsee => by
    have hmap : target (leaf k.mm.mem root p utext) ≠ none := fun hz => by
      rw [view_none hz] at hsee
      exact absurd hsee (by decide)
    obtain ⟨pa, hpa, hbyte⟩ := h.load hcur hva hmap
    exact ⟨by rw [hcur]; exact hsome p, hva, pa, hpa, hbyte.trans hsee, rfl⟩
  -- the second process reads the page, and gets one of its own to write to
  have hlive₃ : (k₃.procs 1).status = .runnable := h₃.live.mpr (by
    rw [hroot, Function.update_self]
    exact hsome n)
  have h₄ := h₃.running hlive₃
  have hroom₄ := enter_room hroom₃ 1 (kva2pa (k₃.procs 1).pgdir)
  obtain ⟨k₄, hk₄⟩ : ∃ k₄, k₄ = k₃.running 1 := ⟨_, rfl⟩
  have hcur₄ : k₄.current = some 1 := hk₄ ▸ KState.running_current k₃ 1
  have hmem₄ : k₄.mm.mem = k₃.mm.mem := hk₄ ▸ KState.running_mem k₃ 1
  rw [← KState.running, ← hk₄] at hroom₄
  rw [← hk₄] at h₄
  rw [← hmem₄] at hro hseven
  have hrun₄ : k₄.current ≠ none := by rw [hcur₄]; exact hsome 1
  obtain ⟨code, hcode⟩ := h₄.faults hcur₄ hva hro
  have hroom₅ := (h₄.fault_spends hrun₄ hva hcode).room (m := 1) hroom₄
  obtain ⟨s₅, hrun₅, h₅, hview₅, -, pa, hpa⟩ := h₄.fault hrun₄ hva hcode hroom₅.served
  rw [hrun₅] at hroom₅
  obtain ⟨h₆, hview₆, -⟩ := h₅.store (b := 9) hcur₄ hva hpa
  -- it exits, and the first reads what it wrote
  obtain ⟨c, k₇, hrun₇, h₇, -, hview₇⟩ := h₆.exit hcur₄
  have hlive₇ : (k₇.procs 0).status = .runnable := h₇.live.mpr (by
    rw [hroot, Function.update_of_ne (by decide), Function.update_of_ne (by decide)]
    exact hsome 2)
  have hsee₇ : view k₇.mm.mem (Function.update root 1 none) 0 utext = 7 := by
    rw [hview₇ 0 utext (by decide) hva]
    refine (hview₆ 0 utext hva).trans ?_
    rw [if_neg fun hk => absurd hk.1 (by decide)]
    exact (hview₅ 0 utext hva).trans (hseven 0 (.inl rfl))
  have hlast := hload (h₇.running hlive₇) (KState.running_current k₇ 0) (by
    rw [KState.running_mem]
    exact hsee₇)
  have hrest : Steps cowStep k₃ [.run 1, .load utext 7, .fault utext true, .store utext 9, .exit,
      .run 0, .load utext 7] (k₇.running 0) :=
    .cons ⟨hlive₃, hk₄ ▸ runProc_ok k₃ 1⟩ (.cons (hload h₄ hcur₄ (hseven 1 (.inr rfl)))
      (.cons ⟨hrun₄, hva, code, hcode, hrun₅, hroom₅.served⟩
        (.cons ⟨hrun₄, hva, pa, hpa, rfl⟩ (.cons ⟨hrun₄, c, hrun₇⟩
          (.cons ⟨hlive₇, runProc_ok k₇ 0⟩ (.cons hlast (.nil _)))))))
  have hrun : Steps cowStep sampleKernel sampleEvents (k₇.running 0) := hsteps.append hrest
  obtain ⟨⟨a, hsim, -⟩, hapart, hserves⟩ := copy_on_write sampleKernel_start hrun
  exact ⟨_, a, hrun, hsim, hapart, hserves⟩

end Myos.Kernel
