import Myos.Lib.Pipe
import Myos.Kernel.Contexts
import Myos.Kernel.Scancodes

/-!
# From the keys to the processes

The keyboard buffer is shared: `kbd_handler` types into it, and `cons_read` takes out of it,
for whichever process reads the console. No other system call, fault or switch touches it
(`doTrap_kbs`). So of what is typed nothing is lost, made up, doubled or moved on the way
to the processes, as long as the buffer has room (`keys_delivered`), and the lines that
`getline` of `user/init.c` returns are those that were typed (`getline_reads`).
-/

namespace Myos.Kernel

open Myos.Lib
open Myos.Lib.Act (Leaves)
open Scancodes (KbByte Desk typed typed_append typed_lt typeInto)

/-! ## What leaves the keyboard buffer alone -/

section Leaves

theorem onMm_kbs {α : Type} (x : Act Mm α) : Leaves KState.kbs (onMm x) := by
  unfold onMm
  refine Leaves.beside ?_ x
  exact fun _ _ => rfl

theorem onFile_kbs {α : Type} (f : Nat) (x : Act FileSt α) : Leaves KState.kbs (onFile f x) := by
  unfold onFile
  refine Leaves.beside ?_ x
  exact fun _ _ => rfl

theorem onLocalFile_kbs {α : Type} (pfile : File) (x : Act FileSt α) :
    Leaves KState.kbs (onLocalFile pfile x) := by
  unfold onLocalFile
  refine Leaves.beside ?_ x
  exact fun _ _ => rfl

theorem setProc_kbs (p : Nat) (f : Proc → Proc) : Leaves KState.kbs (setProc p f) := fun _ => rfl

theorem setFile_kbs (i : Nat) (f : File → File) : Leaves KState.kbs (setFile i f) := fun _ => rfl

theorem runProc_kbs (p : Nat) : Leaves KState.kbs (runProc p) :=
  Leaves.bind (Leaves.gets _) fun _ => Leaves.bind (onMm_kbs _) fun _ => Leaves.modify fun _ => rfl

theorem schedule_kbs : Leaves KState.kbs schedule := by
  have hloop : ∀ c n i, Leaves KState.kbs (scheduleLoop c n i) := by
    intro c n
    induction n with
    | zero => exact fun _ => Leaves.stop
    | succ n ih =>
      exact fun i => Leaves.ite (Leaves.pure _) (Leaves.bind (Leaves.gets _) fun _ =>
        Leaves.ite (Leaves.pure _) (ih _))
  refine Leaves.bind (Leaves.gets _) fun curind => Leaves.bind (hloop _ _ _) fun o => ?_
  cases o with
  | some p => exact Leaves.bind (runProc_kbs p) fun _ => Leaves.pure _
  | none =>
    exact Leaves.bind (Leaves.gets _) fun _ => Leaves.ite
      (Leaves.bind (runProc_kbs _) fun _ => Leaves.pure _)
      (Leaves.bind (Leaves.modify fun _ => rfl) fun _ => Leaves.pure _)

theorem sysExit_kbs : Leaves KState.kbs sysExit := by
  have hfiles : ∀ p n i, Leaves KState.kbs (releaseFiles p n i) := by
    intro p n
    induction n with
    | zero => exact fun _ => Leaves.pure _
    | succ n ih =>
      intro i
      refine Leaves.bind (Leaves.gets _) fun o => ?_
      cases o with
      | none => exact ih _
      | some f =>
        exact Leaves.bind (setFile_kbs f _) fun _ => Leaves.bind (Leaves.gets _) fun _ =>
          Leaves.ite (Leaves.bind (setProc_kbs p _) fun _ => ih _) (ih _)
  have hfree : ∀ p, Leaves KState.kbs (freeProc p) := fun p =>
    Leaves.bind (Leaves.gets _) fun _ => Leaves.bind (setProc_kbs p _) fun _ =>
      Leaves.modify fun _ => rfl
  have hdestroy : ∀ o, Leaves KState.kbs (destroyProc o) := by
    intro o
    cases o with
    | none => exact Leaves.pure _
    | some p =>
      refine Leaves.bind (Leaves.gets _) fun _ => Leaves.bind (onMm_kbs _) fun _ =>
        Leaves.bind (setProc_kbs p _) fun _ => Leaves.bind (hfiles p _ _) fun _ =>
        Leaves.bind (hfree p) fun _ => Leaves.bind (setProc_kbs p _) fun _ => ?_
      exact Leaves.bind (Leaves.gets _) fun _ => Leaves.ite
        (Leaves.bind (Leaves.modify fun _ => rfl) fun _ => schedule_kbs) (Leaves.pure _)
  refine Leaves.bind (Leaves.gets _) fun o => Leaves.bind (hdestroy o) fun c => ?_
  cases c with
  | ret a => exact Leaves.pure _
  | run p => exact Leaves.pure _
  | halt => exact Leaves.pure _

theorem sysFork_kbs : Leaves KState.kbs sysFork := by
  have hfiles : ∀ cur p n i, Leaves KState.kbs (copyFiles cur p n i) := by
    intro cur p n
    induction n with
    | zero => exact fun _ => Leaves.pure _
    | succ n ih =>
      intro i
      refine Leaves.bind (Leaves.gets _) fun o => ?_
      cases o with
      | none => exact ih _
      | some f =>
        exact Leaves.bind (setProc_kbs p _) fun _ => Leaves.bind (setFile_kbs f _) fun _ => ih _
  have halloc : Leaves KState.kbs allocProc :=
    Leaves.bind (Leaves.gets _) fun o => Leaves.bind (Leaves.deref o) fun p =>
      Leaves.bind (Leaves.modify fun _ => rfl) fun _ => Leaves.bind (setProc_kbs p _) fun _ =>
        Leaves.pure p
  have hspace : ∀ cur p, Leaves KState.kbs (forkSpace cur p) := fun cur p =>
    Leaves.bind (Leaves.gets _) fun _ => Leaves.bind (onMm_kbs _) fun _ =>
      Leaves.bind (setProc_kbs p _) fun _ => Leaves.ite (Leaves.pure _)
        (Leaves.bind (Leaves.gets _) fun _ => Leaves.bind (onMm_kbs _) fun _ =>
          Leaves.ite (Leaves.pure _) (Leaves.bind (onMm_kbs _) fun _ =>
            Leaves.bind (hfiles cur p _ _) fun _ => Leaves.bind (setProc_kbs p _) fun _ =>
              Leaves.gets _))
  exact Leaves.bind halloc fun p => Leaves.bind currentProc_leaves fun cur =>
    Leaves.bind (Leaves.gets _) fun _ => Leaves.bind (setProc_kbs p _) fun _ => hspace cur p

theorem sysWaitpid_kbs (pid : Int) : Leaves KState.kbs (sysWaitpid pid) := by
  refine Leaves.ite (Leaves.pure _) (Leaves.bind (Leaves.gets _) fun status => ?_)
  refine Leaves.ite (Leaves.pure _) (Leaves.bind schedule_kbs fun c => ?_)
  cases c with
  | ret a => exact Leaves.pure _
  | run p => exact Leaves.pure _
  | halt => exact Leaves.pure _

theorem sysExecve_kbs (binary : Nat) (pfile : File) (fname : Nat) :
    Leaves KState.kbs (sysExecve binary pfile fname) := by
  refine Leaves.bind currentProc_leaves fun p => Leaves.bind (Leaves.gets _) fun _ =>
    Leaves.bind (onLocalFile_kbs _ _) fun o => ?_
  cases o with
  | none => exact Leaves.pure _
  | some entry =>
    exact Leaves.bind (setProc_kbs p _) fun _ => Leaves.bind (runProc_kbs p) fun _ => Leaves.pure _

theorem allocfile_kbs : Leaves KState.kbs allocfile := by
  have hloop : ∀ n i, Leaves KState.kbs (allocfileLoop n i) := by
    intro n
    induction n with
    | zero => exact fun _ => Leaves.pure _
    | succ n ih =>
      exact fun i => Leaves.bind (Leaves.gets _) fun _ => Leaves.ite
        (Leaves.bind (setFile_kbs i _) fun _ => Leaves.pure _) (ih (i + 1))
  exact hloop maxFile 0

theorem opened_kbs (f fd : Nat) (g : File → File) : Leaves KState.kbs (do
    setFile f g
    setFd (← currentProc) fd (some f)
    return (fd : Int)) :=
  Leaves.bind (setFile_kbs f g) fun _ => Leaves.bind currentProc_leaves fun p =>
    Leaves.bind (setProc_kbs p _) fun _ => Leaves.pure _

theorem sysOpencons_kbs : Leaves KState.kbs sysOpencons := by
  refine Leaves.bind allocfd_leaves fun r => Leaves.ite (Leaves.pure _) ?_
  refine Leaves.bind allocfile_kbs fun o => ?_
  cases o with
  | none => exact Leaves.pure _
  | some f => exact opened_kbs f _ _

theorem sysOpen_kbs (fname : Nat) : Leaves KState.kbs (sysOpen fname) := by
  refine Leaves.bind (onMm_kbs _) fun _ => ?_
  refine Leaves.bind allocfd_leaves fun r => Leaves.ite (Leaves.pure _) ?_
  refine Leaves.bind allocfile_kbs fun o => ?_
  cases o with
  | none => exact Leaves.pure _
  | some f =>
    exact Leaves.bind (onFile_kbs f _) fun r => Leaves.ite (Leaves.pure _) (opened_kbs f _ _)

theorem sysWrite_kbs (w : Stray) {fd : Int} (hfd : 0 ≤ fd ∧ fd < maxOpenFile) (buf count : Nat) :
    Leaves KState.kbs (sysWrite w fd buf count) := by
  have hloop : ∀ n i buf, Leaves KState.kbs (consWriteLoop n i buf) := by
    intro n
    induction n with
    | zero => exact fun _ _ => Leaves.pure _
    | succ n ih => exact fun i buf => Leaves.bind (onMm_kbs _) fun _ => ih _ _
  unfold sysWrite
  rw [if_pos hfd]
  refine Leaves.bind (fdFile_leaves fd) fun o => Leaves.bind (Leaves.deref o) fun f =>
    Leaves.bind (Leaves.gets _) fun t => ?_
  cases t with
  | file => exact onFile_kbs f _
  | cons => exact hloop count 0 buf
  | unknown => exact Leaves.pure _

theorem sysLseek_kbs (w : Stray) {fd : Int} (hfd : 0 ≤ fd ∧ fd < maxOpenFile) (offset : Int) :
    Leaves KState.kbs (sysLseek w fd offset) := by
  unfold sysLseek
  rw [if_pos hfd]
  refine Leaves.bind (fdFile_leaves fd) fun o => ?_
  cases o with
  | none => exact Leaves.pure _
  | some f =>
    exact Leaves.bind (Leaves.gets _) fun _ => Leaves.bind (onMm_kbs _) fun _ =>
      Leaves.bind (setFile_kbs f _) fun _ => Leaves.pure _

theorem createVcpu_kbs (basicMsr : Nat) : Leaves KState.kbs (createVcpu basicMsr) :=
  Leaves.bind (onMm_kbs _) fun _ => Leaves.bind (Leaves.modify fun _ => rfl) fun _ =>
    Leaves.pure _

theorem allocVmMem_kbs (phys : Nat) : Leaves KState.kbs (allocVmMem phys) :=
  Leaves.bind (Leaves.gets _) fun _ => Leaves.ite Leaves.stop (onMm_kbs _)

theorem mmapMem_kbs (addr length gpa : Nat) (prot : Int) :
    Leaves KState.kbs (mmapMem addr length gpa prot) :=
  Leaves.bind (Leaves.gets _) fun _ => onMm_kbs _

/-- CALL: of the system calls of a mannered process only `read` looks at what was typed. -/
theorem doSyscall_kbs {h : Services} {e : Trap} (he : e.Mannered) (hcall : u32 e.pt.num = 20)
    (hread : ¬ e.pt.Calls nrRead) : Leaves KState.kbs
      (doSyscall h (u32 e.pt.rax) e.pt.rbx e.pt.rcx e.pt.rdx e.pt.rsi) := by
  have hreturns : ∀ {x : Act KState Int}, Leaves KState.kbs x → Leaves KState.kbs (returns x) :=
    fun hx => Leaves.bind hx fun _ => Leaves.pure _
  have hnr : ∀ {nr : Nat} {x y : Act KState (Ctl Int)}, (e.pt.Calls nr → Leaves KState.kbs x) →
      Leaves KState.kbs y → Leaves KState.kbs (if u32 e.pt.rax = nr then x else y) := by
    intro nr x y hx hy
    by_cases h : u32 e.pt.rax = nr
    · rw [if_pos h]
      exact hx ⟨hcall, h⟩
    · rw [if_neg h]
      exact hy
  unfold doSyscall
  refine hnr (fun _ => hreturns (sysOpen_kbs _)) ?_
  refine hnr (fun h => absurd h hread) ?_
  refine hnr (fun h => hreturns (sysWrite_kbs _ (he.fd (.inr (.inl h))) _ _)) ?_
  refine hnr (fun _ => hreturns sysFork_kbs) ?_
  refine hnr (fun _ => Leaves.bind schedule_kbs fun _ => Leaves.pure _) ?_
  refine hnr (fun _ => sysExit_kbs) ?_
  refine hnr (fun _ => sysExecve_kbs _ _ _) ?_
  refine hnr (fun _ => sysWaitpid_kbs _) ?_
  refine hnr (fun h => hreturns (sysLseek_kbs _ (he.fd (.inr (.inr h))) _)) ?_
  refine hnr (fun _ => Leaves.pure _) ?_
  refine hnr (fun _ => hreturns sysOpencons_kbs) ?_
  refine hnr (fun _ => hreturns (allocVmMem_kbs _)) ?_
  refine hnr (fun _ => hreturns (createVcpu_kbs _)) ?_
  refine hnr (fun h => absurd h he.runVm) ?_
  exact hnr (fun _ => hreturns (mmapMem_kbs _ _ _ _)) (Leaves.pure _)

/-- TRAP: but for the keyboard's and for `read`, no trap of a mannered process touches what
was typed. -/
theorem doTrap_kbs {h : Services} {e : Trap} (he : e.Mannered) (hkbd : u32 e.pt.num ≠ 0x21)
    (hread : ¬ e.pt.Calls nrRead) : Leaves KState.kbs (doTrap h e.cr2 e.data e.pt) := by
  have hsave : Leaves KState.kbs (saveFrame e.pt) := by
    refine Leaves.bind (Leaves.gets _) fun o => ?_
    cases o with
    | none => exact Leaves.pure _
    | some p => exact setProc_kbs p _
  refine Leaves.bind hsave fun _ => ?_
  dsimp only
  rw [if_neg hkbd]
  refine Leaves.ite (Leaves.bind schedule_kbs fun _ => Leaves.pure _) <| Leaves.ite
    (Leaves.ite (Leaves.pure _) (Leaves.bind (Leaves.gets _) fun _ =>
      Leaves.bind (onMm_kbs _) fun _ => Leaves.pure _)) ?_
  split
  · next hcall =>
    refine Leaves.bind (doSyscall_kbs he hcall hread) fun c => ?_
    cases c with
    | ret r => exact Leaves.pure _
    | run p => exact Leaves.pure _
    | halt => exact Leaves.pure _
  · exact Leaves.pure _

end Leaves

/-! ## Reading the console -/

/-- Bytes that are stored one after another. -/
def storeBytes : Nat → List UInt8 → Act Mm Unit
  | _, [] => return ()
  | va, b :: bs => do
    store 1 va b.toNat
    storeBytes (va + 1) bs

/-- What is unread is ASCII, and its places are inside the buffer. -/
structure Kbs.Ascii (k : Kbs) : Prop where
  inside : k.Inside
  ascii : ∀ b ∈ k.pending, b < 128

section Read

variable {k k' : KState} {n i buf : Nat} {r : Int}

/-- An ASCII character is not taken for the end of what is unread. -/
theorem ascii_toNat {b : UInt8} (h : b < 128) : b.toNat < 128 := UInt8.lt_iff_toNat_lt.mp h

theorem returned {x y : Int} (h : (pure x : Act KState Int) k = .ok y k') : y = x ∧ k' = k := by
  injection h with hx hk
  exact ⟨hx.symm, hk.symm⟩

/-- READ: the loop of `cons_read` stores what is unread, as much as there is room for, and
it is read. -/
theorem consReadLoop_run (h : k.kbs.Ascii) (hi : i + k.kbs.pending.length < 2 ^ 31)
    (hrun : consReadLoop n i buf k = .ok r k') :
    r = (i + (k.kbs.pending.take n).length : Nat) ∧
      storeBytes buf (k.kbs.pending.take n) k.mm = .ok () k'.mm ∧ k'.kbs.Inside ∧
      k'.kbs.pending = k.kbs.pending.drop n := by
  induction n generalizing k i buf with
  | zero =>
    obtain ⟨hr, hk⟩ := returned hrun
    rw [hr, hk]
    exact ⟨int32_nat (by omega), rfl, h.inside, rfl⟩
  | succ n ih =>
    obtain ⟨ch, k₁, hch, hrun⟩ := Act.bind_eq_ok.mp hrun
    obtain ⟨htail, hanswer⟩ := Kbs.pending_get h.inside
    cases hch
    cases hpending : k.kbs.pending with
    | nil =>
      rw [hpending] at hanswer htail
      have hnone : KbQueue.answer [] % 256 = 255 := rfl
      rw [hanswer, if_pos hnone] at hrun
      obtain ⟨hr, hk⟩ := returned hrun
      rw [hr, hk]
      exact ⟨int32_nat (by omega), rfl, h.inside.step .get, htail⟩
    | cons b q =>
      rw [hpending] at hanswer htail hi
      have hmem : b ∈ k.kbs.pending := by
        rw [hpending]
        exact List.mem_cons_self
      have hb := ascii_toNat (h.ascii b hmem)
      have hmod : KbQueue.answer (b :: q) % 256 = b.toNat := by
        show (b.toNat : Int) % 256 = b.toNat
        omega
      rw [hanswer, hmod, if_neg (by omega)] at hrun
      obtain ⟨u, k₂, hstore, hrun⟩ := Act.bind_eq_ok.mp hrun
      obtain ⟨m, hm, rfl⟩ := Act.zoom_eq_ok.mp hstore
      rw [List.length_cons] at hi
      have hnext : (getKbdata k.kbs).2.Ascii :=
        ⟨h.inside.step .get, fun b' hb' => h.ascii b' (by
          rw [hpending]
          rw [htail] at hb'
          exact List.mem_cons_of_mem b hb')⟩
      have hlen : i + 1 + (getKbdata k.kbs).2.pending.length < 2 ^ 31 := by
        rw [htail, List.tail_cons]
        omega
      obtain ⟨hr, hstored, hinside, hrest⟩ := ih hnext hlen hrun
      have hq : (KState.setMm m { k with kbs := (getKbdata k.kbs).2 }).kbs.pending = q := htail
      rw [hq] at hr hstored hrest
      rw [List.take_succ_cons, List.drop_succ_cons]
      refine ⟨?_, ?_, hinside, hrest⟩
      · rw [hr, List.length_cons]
        omega
      · have hbyte : store 1 buf b.toNat k.mm = .ok () m := hm
        rw [storeBytes, Act.bind_ok hbyte]
        exact hstored

/-- A descriptor of the process that runs is the console. -/
def KState.Console (k : KState) (fd : Int) : Prop :=
  ∃ p f, k.current = some p ∧ 0 ≤ fd ∧ fd < maxOpenFile ∧
    (k.procs p).fdtable fd.toNat = some f ∧ (k.filetable f).type = .cons

/-- `read` takes out of the keyboard buffer if the descriptor is the console, and leaves it
alone if it is not. -/
theorem sysRead_cases {w : Stray} {fd : Int} {count : Nat} (hrange : 0 ≤ fd ∧ fd < maxOpenFile)
    (hrun : sysRead w fd buf count k = .ok r k') :
    (k.Console fd ∧ consRead buf count k = .ok r k') ∨ (¬ k.Console fd ∧ k'.kbs = k.kbs) := by
  unfold sysRead at hrun
  rw [if_pos hrange] at hrun
  obtain ⟨o, k₁, hfd, hrest⟩ := Act.bind_eq_ok.mp hrun
  unfold fdFile at hfd
  obtain ⟨p, k₂, hget, hfile⟩ := Act.bind_eq_ok.mp hfd
  obtain ⟨hcur, hk⟩ := currentProc_eq_ok.mp hget
  rw [hk] at hfile
  injection hfile with ho hk₁
  have hslot : o = (k.procs p).fdtable fd.toNat := ho.symm
  rw [hslot, ← hk₁] at hrest
  cases hf : (k.procs p).fdtable fd.toNat with
  | none =>
    rw [hf] at hrest
    cases hrest
  | some f =>
    rw [hf, Act.deref_bind_apply, Act.gets_bind_apply, Act.gets_bind_apply] at hrest
    have hiff : k.Console fd ↔ (k.filetable f).type = .cons := by
      constructor
      · rintro ⟨p', f', hp', -, -, hf', htype⟩
        cases hcur.symm.trans hp'
        cases hf.symm.trans hf'
        exact htype
      · exact fun htype => ⟨p, f, hcur, hrange.1, hrange.2, hf, htype⟩
    cases htype : (k.filetable f).type with
    | cons =>
      rw [htype] at hrest
      exact .inl ⟨hiff.mpr htype, hrest⟩
    | file =>
      rw [htype] at hrest
      refine .inr ⟨fun h => ?_, (onFile_kbs f _).of_ok hrest⟩
      cases htype.symm.trans (hiff.mp h)
    | unknown =>
      rw [htype] at hrest
      refine .inr ⟨fun h => ?_, congrArg KState.kbs (returned hrest).2⟩
      cases htype.symm.trans (hiff.mp h)

end Read

/-! ## The machine with its keyboard -/

/-- The trap reads the console. -/
def Machine.Reads (m : Machine) (e : Trap) : Prop :=
  e.pt.Calls nrRead ∧ m.k.Console (int32 e.pt.rbx)

/-- What the process that trapped got from the keyboard: the bytes are in its buffer, it is
told how many, and it gets fewer than it asked for only if no more are there. -/
structure Machine.Gets (m : Machine) (e : Trap) (chunk : List UInt8) (m' : Machine) : Prop where
  none : ¬ m.Reads e → chunk = []
  told : m.Reads e → chunk.length ≤ u32 e.pt.rdx ∧ m'.user = some { e.pt with rax := chunk.length }
  stored : m.Reads e → storeBytes e.pt.rcx chunk m.k.mm = .ok () m'.k.mm
  all : m.Reads e → chunk.length < u32 e.pt.rdx → m'.k.kbs.pending = []

section Traps

variable {h : Services} {m m' : Machine} {e : Trap}

/-- The trap of a `read`. -/
theorem doTrap_read {k k' : KState} {pt : PtRegs} {p cr2 : Nat} {data : List UInt8}
    {c : Ctl PtRegs} (hcur : k.current = some p) (hcall : pt.Calls nrRead)
    (hrun : doTrap h cr2 data pt k = .ok c k') :
    ∃ r, sysRead h.stray (int32 pt.rbx) pt.rcx (u32 pt.rdx) (k.saved p pt) = .ok r k' ∧
      c = .ret { pt with rax := (r % 2 ^ 64).toNat } := by
  unfold doTrap at hrun
  rw [Act.bind_ok (saveFrame_ok hcur), hcall.1, if_neg (by decide), if_neg (by decide),
    if_neg (by decide), if_pos rfl] at hrun
  obtain ⟨c', k₁, hsys, hend⟩ := Act.bind_eq_ok.mp hrun
  unfold doSyscall at hsys
  rw [hcall.2, if_neg (by decide), if_pos rfl] at hsys
  obtain ⟨r, k₂, hread, hret⟩ := Act.bind_eq_ok.mp hsys
  injection hret with hc' hk₂
  rw [← hc'] at hend
  injection hend with hc hk'
  exact ⟨r, by rw [← hk', ← hk₂]; exact hread, hc.symm⟩

theorem KState.saved_console {k : KState} {pt : PtRegs} {p : Nat} {fd : Int} :
    (k.saved p pt).Console fd ↔ k.Console fd := by
  have hfds : ∀ q, ((k.saved p pt).procs q).fdtable = (k.procs q).fdtable := fun q => by
    rw [KState.saved_procs]
    split
    · next hq => rw [hq]
    · rfl
  unfold KState.Console
  simp only [hfds]
  exact Iff.rfl

/-- A trap that is not the keyboard's takes what it gives its process from the front of what
is unread. -/
theorem trapStep_gets (hascii : m.k.kbs.Ascii) (hstep : trapStep h m e m')
    (hkbd : u32 e.pt.num ≠ 0x21) : m'.k.kbs.Inside ∧
      ∃ chunk, m.Gets e chunk m' ∧ m.k.kbs.pending = chunk ++ m'.k.kbs.pending := by
  obtain ⟨hon, he, c, hrun, huser⟩ := hstep
  obtain ⟨p, hp⟩ := Option.ne_none_iff_exists'.mp hon
  have hcur := (Machine.on_eq_some.mp hp).2
  have hnone : ¬ m.Reads e → m'.k.kbs = m.k.kbs → m'.k.kbs.Inside ∧
      ∃ chunk, m.Gets e chunk m' ∧ m.k.kbs.pending = chunk ++ m'.k.kbs.pending := by
    intro hnot hsame
    rw [hsame]
    exact ⟨hascii.inside, [], ⟨fun _ => rfl, fun h => absurd h hnot, fun h => absurd h hnot,
      fun h => absurd h hnot⟩, rfl⟩
  by_cases hcall : e.pt.Calls nrRead
  · obtain ⟨r, hread, rfl⟩ := doTrap_read hcur hcall hrun
    rcases sysRead_cases (he.fd (.inl hcall)) hread with ⟨hcons, hread⟩ | ⟨hcons, hsame⟩
    · have hreads : m.Reads e := ⟨hcall, KState.saved_console.mp hcons⟩
      have hlen : m.k.kbs.pending.length < kbBufSize := by
        rw [Kbs.pending_length]
        exact Ring.gap_lt hascii.inside.1
      unfold kbBufSize at hlen
      obtain ⟨hr, hstored, hinside, hrest⟩ :=
        consReadLoop_run (k := m.k.saved p e.pt) hascii (by
          show 0 + m.k.kbs.pending.length < 2 ^ 31
          omega) hread
      have hchunk : (m.k.saved p e.pt).kbs.pending = m.k.kbs.pending := rfl
      rw [hchunk] at hr hstored hrest
      refine ⟨hinside, m.k.kbs.pending.take (u32 e.pt.rdx), ⟨fun hnot => absurd hreads hnot,
        fun _ => ⟨List.length_take_le _ _, ?_⟩, fun _ => hstored, fun _ hless => ?_⟩, ?_⟩
      · have hfit : (r % 2 ^ 64).toNat = (m.k.kbs.pending.take (u32 e.pt.rdx)).length := by
          have hle := List.length_take_le' (u32 e.pt.rdx) m.k.kbs.pending
          omega
        rw [huser, ← hfit]
        rfl
      · rw [List.length_take] at hless
        rw [hrest, List.drop_eq_nil_iff]
        omega
      · rw [hrest, List.take_append_drop]
    · exact hnone (fun hreads => hcons (KState.saved_console.mpr hreads.2)) hsame
  · exact hnone (fun hreads => hcall hreads.1) ((doTrap_kbs he hkbd hcall).of_ok hrun)

end Traps

/-- The machine, and the bytes at hand in the keyboard controller. -/
structure Session where
  machine : Machine
  out : List KbByte

/-- A trap, and what comes to the controller from then to the next one. -/
structure Moment where
  trap : Trap
  later : List (List KbByte)

/-- It is the trap of the keyboard. -/
def Moment.Keyboard (x : Moment) : Prop := u32 x.trap.pt.num = 0x21

/-- The trap is taken. If it is the keyboard's, the bytes that are typed are those that
`kbd_handler` takes from the controller. -/
structure Session.Step (h : Services) (s : Session) (x : Moment) (s' : Session) : Prop where
  trap : trapStep h s.machine x.trap s'.machine
  keyboard : x.Keyboard → ∃ d d' : Desk, d.ctl.out = s.out ∧ d.ctl.later = x.later ∧
    d.kbs = s.machine.k.kbs ∧ Act.Settles Scancodes.kbdHandlerPorts d () d' ∧
    s'.machine.k.kbs = d'.kbs ∧ s'.out = d'.ctl.out ++ d'.ctl.later.flatten
  other : ¬ x.Keyboard → s'.out = s.out ++ x.later.flatten

/-- When keys are typed there is room for them. -/
def Session.Roomy (s : Session) (x : Moment) : Prop :=
  x.Keyboard → s.machine.k.kbs.unread + (typed (s.out ++ x.later.flatten)).length < kbBufSize

/-- What was typed and not read yet: it is in the buffer or still in the controller. -/
def Session.held (s : Session) : List UInt8 := s.machine.k.kbs.pending ++ typed s.out

section Sessions

variable {h : Services} {s s' : Session} {x : Moment} {xs : List Moment}

/-- STEP: what is given to a process is taken from the front, and what is typed is put
behind the rest. -/
theorem Session.Step.gives (hascii : s.machine.k.kbs.Ascii) (hroom : s.Roomy x)
    (hstep : s.Step h x s') : s'.machine.k.kbs.Ascii ∧ ∃ chunk,
      s.machine.Gets x.trap chunk s'.machine ∧
      s.held ++ typed x.later.flatten = chunk ++ s'.held := by
  by_cases hkbd : x.Keyboard
  · obtain ⟨d, d', hout, hlater, hkbs, hsettles, hkbs', hout'⟩ := hstep.keyboard hkbd
    obtain ⟨bs, hends, hbs⟩ := Scancodes.kbdHandlerPorts_settles d
    have htyped : s'.machine.k.kbs = typeInto s.machine.k.kbs (typed bs) := by
      rw [hkbs', hsettles.unique hends, ← hkbs]
      rfl
    have hleft : s'.out = (x.later.drop (2 * bs.length + 1)).flatten := by
      rw [hout', hsettles.unique hends, ← hlater, ← List.drop_tail]
      rfl
    have hall : typed (s.out ++ x.later.flatten) = typed bs ++ typed s'.out := by
      rw [hout, hlater] at hbs
      generalize 2 * bs.length + 1 = n at hbs hleft
      rw [← typed_append, hleft, hbs, List.append_assoc, ← List.flatten_append,
        List.take_append_drop]
    obtain ⟨hinside, hpending⟩ := Scancodes.typeInto_pending hascii.inside
    have hfits := hroom hkbd
    rw [hall, List.length_append] at hfits
    rw [← htyped] at hinside hpending
    have hnext := hpending (by omega)
    have hnot : ¬ s.machine.Reads x.trap := fun hreads => by
      have hnum : u32 x.trap.pt.num = 0x21 := hkbd
      rw [hreads.1.1] at hnum
      cases hnum
    refine ⟨⟨hinside, fun b hb => ?_⟩, [], ⟨fun _ => rfl, fun hr => absurd hr hnot,
      fun hr => absurd hr hnot, fun hr => absurd hr hnot⟩, ?_⟩
    · rw [hnext] at hb
      rcases List.mem_append.mp hb with hb | hb
      · exact hascii.ascii b hb
      · exact typed_lt hb
    · rw [Session.held, List.append_assoc, ← typed_append, hall, List.nil_append, Session.held,
        hnext, List.append_assoc]
  · obtain ⟨hinside, chunk, hgets, hrest⟩ := trapStep_gets hascii hstep.trap hkbd
    refine ⟨⟨hinside, fun b hb => hascii.ascii b ?_⟩, chunk, hgets, ?_⟩
    · rw [hrest]
      exact List.mem_append_right _ hb
    · rw [Session.held, hrest, Session.held, hstep.other hkbd, typed_append, List.append_assoc,
        List.append_assoc]

/-- KEYS TO PROCESSES: in every run of traps, whichever processes run, fork, exit or read, what
was typed is handed out in the order it was typed, each byte once: what is not handed out
yet is in the buffer or in the controller. -/
theorem keys_delivered (hascii : s.machine.k.kbs.Ascii)
    (hrun : Steps (fun s x s' => s.Roomy x ∧ Session.Step h s x s') s xs s') :
    s'.machine.k.kbs.Ascii ∧ ∃ outs : List (Moment × List UInt8), outs.map Prod.fst = xs ∧
      Steps (fun s (x : Moment × List UInt8) s' => (s.Roomy x.1 ∧ Session.Step h s x.1 s') ∧
        s.machine.Gets x.1.trap x.2 s'.machine) s outs s' ∧
      s.held ++ xs.flatMap (fun x => typed x.later.flatten) =
        outs.flatMap Prod.snd ++ s'.held :=
  Steps.conserved (fun s : Session => s.machine.k.kbs.Ascii) Session.held
    (fun x => typed x.later.flatten) (fun s x out s' => s.machine.Gets x.trap out s'.machine)
    (fun hascii hstep => hstep.2.gives hascii hstep.1) hrun hascii

end Sessions

/-! ## A line -/

/-- What `getline` has: the character it read last, how many it has, and the buffer it
fills. -/
structure Getline where
  ch : UInt8 := 0
  i : Nat := 0
  buf : List UInt8 := []

/-- The condition of its loop. -/
def Getline.Goes (n : Nat) (g : Getline) : Prop := g.ch ≠ 10 ∧ g.i < n

/-- A turn of its loop, with what `read` put into `ch`, if anything; it yields if nothing. -/
def Getline.turn (g : Getline) : List UInt8 → Getline
  | [] => g
  | ch :: _ => { ch := ch, i := g.i + 1, buf := g.buf ++ [ch] }

/-- The first line of what is typed, with its end, or as much of it as there is room for. -/
def firstLine : Nat → List UInt8 → List UInt8
  | 0, _ => []
  | _, [] => []
  | n + 1, b :: bs => if b = 10 then [b] else b :: firstLine n bs

/-- One process is in `getline`, and nobody else reads the console. -/
structure Getline.Step (h : Services) (n : Nat) (t : Session × Getline) (x : Moment)
    (t' : Session × Getline) : Prop where
  roomy : t.1.Roomy x
  step : Session.Step h t.1 x t'.1
  reads : t.1.machine.Reads x.trap → t.2.Goes n ∧ u32 x.trap.pt.rdx = 1 ∧
    ∃ chunk, t.1.machine.Gets x.trap chunk t'.1.machine ∧ t'.2 = t.2.turn chunk
  rests : ¬ t.1.machine.Reads x.trap → t'.2 = t.2

/-- What `getline` has at the head of its loop: a line without an end, unless it was read
just now. -/
structure Getline.Inv (n : Nat) (g : Getline) : Prop where
  count : g.i = g.buf.length
  room : g.i ≤ n
  ch : g.ch = g.buf.getLast?.getD 0
  ends : ∀ b ∈ g.buf.dropLast, b ≠ 10

section Line

variable {h : Services} {n : Nat} {g : Getline} {b : UInt8} {bs : List UInt8}
variable {t t' : Session × Getline} {x : Moment} {xs : List Moment}

theorem Getline.Inv.start : Getline.Inv n {} := ⟨rfl, Nat.zero_le n, rfl, by simp⟩

/-- Before the end of the line there is no end. -/
theorem Getline.Inv.goes_on (hg : g.Inv n) (hch : g.ch ≠ 10) : ∀ b ∈ g.buf, b ≠ 10 := by
  intro b hb
  have hlast := hg.ch
  have hends := hg.ends
  rcases List.eq_nil_or_concat g.buf with hnil | ⟨init, last, hbuf⟩
  · rw [hnil] at hb
    cases hb
  · rw [hbuf, List.concat_eq_append] at hb hlast hends
    rw [List.getLast?_append, List.getLast?_singleton] at hlast
    rw [List.dropLast_concat] at hends
    rcases List.mem_append.mp hb with hb | hb
    · exact hends b hb
    · rw [List.mem_singleton.mp hb]
      intro h
      exact hch (hlast.trans h)

theorem Getline.Inv.turn (hg : g.Inv n) (hgoes : g.Goes n) (chunk : List UInt8) :
    (g.turn chunk).Inv n := by
  cases chunk with
  | nil => exact hg
  | cons ch rest =>
    refine ⟨?_, hgoes.2, ?_, fun b hb => ?_⟩
    · simp [Getline.turn, hg.count]
    · simp [Getline.turn]
    · rw [Getline.turn, List.dropLast_concat] at hb
      exact hg.goes_on hgoes.1 b hb

/-- The characters before the end of the line are in it. -/
theorem firstLine_append {line : List UInt8} (hline : ∀ b ∈ line, b ≠ 10)
    (hlen : line.length ≤ n) :
    firstLine n (line ++ bs) = line ++ firstLine (n - line.length) bs := by
  induction line generalizing n with
  | nil => rfl
  | cons b line ih =>
    rw [List.length_cons] at hlen
    obtain ⟨k, rfl⟩ := Nat.exists_eq_add_of_le' (Nat.lt_of_lt_of_le (Nat.succ_pos _) hlen)
    rw [List.cons_append, firstLine, if_neg (hline b List.mem_cons_self),
      ih (fun b' hb' => hline b' (List.mem_cons_of_mem b hb')) (by omega), List.length_cons,
      Nat.add_sub_add_right, List.cons_append]

/-- A line that is at its end is the first one. -/
theorem Getline.Inv.firstLine (hg : g.Inv n) (hend : ¬ g.Goes n) (bs : List UInt8) :
    firstLine n (g.buf ++ bs) = g.buf := by
  have hcount := hg.count
  have hroom := hg.room
  by_cases hch : g.ch = 10
  · have hlast := hg.ch
    have hends := hg.ends
    rcases List.eq_nil_or_concat g.buf with hnil | ⟨init, last, hbuf⟩
    · rw [hnil, hch] at hlast
      exact absurd hlast (by decide)
    · rw [hbuf, List.concat_eq_append] at hlast hends hcount ⊢
      rw [List.getLast?_append, List.getLast?_singleton, hch] at hlast
      rw [List.dropLast_concat] at hends
      rw [List.length_append, List.length_singleton] at hcount
      obtain ⟨k, hk⟩ := Nat.exists_eq_add_of_lt (show init.length < n by omega)
      have hlast' : last = 10 := hlast.symm
      rw [List.append_assoc, firstLine_append hends (by omega), hk,
        show init.length + k + 1 - init.length = k + 1 by omega, List.singleton_append,
        Myos.Kernel.firstLine, if_pos hlast']
  · have hfull : n = g.buf.length := by
      by_contra hne
      exact hend ⟨hch, by omega⟩
    rw [firstLine_append (hg.goes_on hch) (by omega), hfull, Nat.sub_self, Myos.Kernel.firstLine,
      List.append_nil]

/-- A byte that is stored tells what it is. -/
theorem storeBytes_inj {chunk chunk' : List UInt8} {va : Nat} {m m' : Mm}
    (hlen : chunk.length = chunk'.length) (hone : chunk.length ≤ 1)
    (h : storeBytes va chunk m = .ok () m') (h' : storeBytes va chunk' m = .ok () m') :
    chunk = chunk' := by
  match chunk, chunk' with
  | [], [] => rfl
  | [b], [b'] =>
    have hstored : ∀ {b : UInt8}, storeBytes va [b] m = .ok () m' → ∃ pa, m.kpa va = some pa ∧
        Mem.rd 1 m'.mem pa = b.toNat := by
      intro b h
      cases hpa : m.kpa va with
      | none =>
        have hstop : store 1 va b.toNat m = .fault m := by rw [store, hpa]
        rw [storeBytes, Act.bind_fault hstop] at h
        cases h
      | some pa =>
        rw [storeBytes, Act.bind_ok (store_ok hpa)] at h
        injection h with _ hm
        refine ⟨pa, rfl, ?_⟩
        have hb := b.toNat_lt
        rw [← hm, Mm.setMem_mem, Mem.rd_wr_same]
        omega
    obtain ⟨pa, hpa, hb⟩ := hstored h
    obtain ⟨pa', hpa', hb'⟩ := hstored h'
    cases hpa.symm.trans hpa'
    rw [UInt8.toNat_inj.mp (hb.symm.trans hb')]

/-- STEP: the character that is read goes to the buffer. -/
theorem Getline.Step.pours (hascii : t.1.machine.k.kbs.Ascii)
    (hg : t.2.Inv n) (hstep : Getline.Step h n t x t') :
    (t'.1.machine.k.kbs.Ascii ∧ t'.2.Inv n) ∧ ∃ out, t'.2.buf = t.2.buf ++ out ∧
      t.1.held ++ typed x.later.flatten = out ++ t'.1.held := by
  obtain ⟨hascii', chunk, hgets, hheld⟩ := hstep.step.gives hascii hstep.roomy
  by_cases hreads : t.1.machine.Reads x.trap
  · obtain ⟨hgoes, hone, chunk', hgets', hturn⟩ := hstep.reads hreads
    have hlen : chunk.length ≤ 1 := hone ▸ (hgets.told hreads).1
    have hsame : chunk = chunk' := by
      have htold := (hgets.told hreads).2.symm.trans (hgets'.told hreads).2
      injection htold with hframe
      exact storeBytes_inj (congrArg PtRegs.rax hframe) hlen (hgets.stored hreads)
        (hgets'.stored hreads)
    rw [hturn, ← hsame]
    refine ⟨⟨hascii', hg.turn hgoes chunk⟩, chunk, ?_, hheld⟩
    match chunk with
    | [] => exact (List.append_nil _).symm
    | [b] => rfl
  · have hsame := hstep.rests hreads
    rw [hgets.none hreads] at hheld
    rw [hsame]
    exact ⟨⟨hascii', hg⟩, [], (List.append_nil _).symm, hheld⟩

/-- GETLINE: whatever runs meanwhile, what `getline` has is the front of what was typed, and
when it returns it is the first line, with its length. -/
theorem getline_reads {s s' : Session} (hascii : s.machine.k.kbs.Ascii)
    (hrun : Steps (Getline.Step h n) (s, {}) xs (s', g)) :
    s.held ++ xs.flatMap (fun x => typed x.later.flatten) = g.buf ++ s'.held ∧
      g.i = g.buf.length ∧
      (¬ g.Goes n → g.buf = firstLine n (s.held ++ xs.flatMap fun x => typed x.later.flatten)) := by
  obtain ⟨⟨-, hg⟩, out, hbuf, hheld⟩ := Steps.delivered
    (fun t : Session × Getline => t.1.machine.k.kbs.Ascii ∧ t.2.Inv n)
    (fun t => t.1.held) (fun t => t.2.buf) (fun x => typed x.later.flatten)
    (fun hinv hstep => hstep.pours hinv.1 hinv.2) hrun ⟨hascii, .start⟩
  have hout : g.buf = out := hbuf
  rw [← hout] at hheld
  exact ⟨hheld, hg.count, fun hend => by rw [hheld, hg.firstLine hend]⟩

end Line

/-! ## A line that is typed and read -/

section Sample

variable {h : Services} {k k' : KState} {pt : PtRegs} {p : Nat}

theorem doTrap_keyboard (hcur : k.current = some p) (hnum : u32 pt.num = 0x21) (cr2 : Nat)
    (data : List UInt8) : doTrap h cr2 data pt k =
      .ok (.ret pt) { k.saved p pt with kbs := typeInto k.kbs data } := by
  unfold doTrap
  rw [Act.bind_ok (saveFrame_ok hcur), hnum, if_neg (by decide), if_pos rfl]
  rfl

theorem sysRead_console (w : Stray) {fd : Int} {buf count : Nat} (hcons : k.Console fd) :
    sysRead w fd buf count k = consRead buf count k := by
  obtain ⟨p, f, hcur, hlo, hhi, hf, htype⟩ := hcons
  have hfd : fdFile fd k = .ok (some f) k := by
    unfold fdFile
    rw [Act.bind_ok (currentProc_ok hcur), ← hf]
    rfl
  unfold sysRead
  rw [if_pos ⟨hlo, hhi⟩, Act.bind_ok hfd, Act.deref_bind_apply, Act.gets_bind_apply, Act.gets_bind_apply, htype]

/-- The first of what is unread, alone. -/
theorem consRead_first {buf : Nat} {b : UInt8} {q : KbQueue} {m : Mm} (hin : k.kbs.Inside)
    (hpending : k.kbs.pending = b :: q) (hb : b < 128)
    (hstore : store 1 buf b.toNat k.mm = .ok () m) :
    consRead buf 1 k = .ok 1 (KState.setMm m { k with kbs := (getKbdata k.kbs).2 }) := by
  have hanswer : (getKbdata k.kbs).1 = b.toNat := by
    rw [(Kbs.pending_get hin).2, hpending]
    rfl
  have hlt := ascii_toNat hb
  have hmod : (b.toNat : Int) % 256 = b.toNat := by omega
  show (if (getKbdata k.kbs).1 % 256 = 255 then (pure (int32 (0 : Nat)) : Act KState Int) else do
    onMm (store 1 buf ((getKbdata k.kbs).1 % 256).toNat)
    consReadLoop 0 1 (buf + 1)) { k with kbs := (getKbdata k.kbs).2 } = _
  rw [hanswer, hmod, if_neg (by omega)]
  exact Act.bind_ok (onMm_ok (k := { k with kbs := (getKbdata k.kbs).2 }) hstore)

theorem doTrap_read_console {r : Int} (hcur : k.current = some p) (hcall : pt.Calls nrRead)
    (hread : sysRead h.stray (int32 pt.rbx) pt.rcx (u32 pt.rdx) (k.saved p pt) = .ok r k') (cr2 : Nat)
    (data : List UInt8) :
    doTrap h cr2 data pt k = .ok (.ret { pt with rax := (r % 2 ^ 64).toNat }) k' := by
  have hsys : doSyscall h (u32 pt.rax) pt.rbx pt.rcx pt.rdx pt.rsi (k.saved p pt) =
      .ok (.ret r) k' := by
    unfold doSyscall
    rw [hcall.2, if_neg (by decide), if_pos rfl, returns, Act.bind_ok hread]
    rfl
  unfold doTrap
  rw [Act.bind_ok (saveFrame_ok hcur), hcall.1, if_neg (by decide), if_neg (by decide),
    if_neg (by decide), if_pos rfl, Act.bind_ok hsys]
  rfl

/-- A process with a stack page and the console. -/
def consoleKernel : KState :=
  { sampleKernel with
    procs := fun p => if p = 0 then { sampleKernel.procs 0 with
      fdtable := fun fd => if fd = 0 then some 0 else none } else sampleKernel.procs p
    filetable := fun f => if f = 0 then { refcount := 1, type := .cons } else {} }

/-- It runs, and the return key is pressed. -/
def consoleSession : Session where
  machine := ⟨consoleKernel, some {}⟩
  out := [⟨false, 0x1c⟩]

def pressed : Moment := ⟨⟨{ num := 0x21 }, 0, [10]⟩, []⟩

/-- A byte is read to the stack. -/
def asked : Moment := ⟨⟨syscallFrame nrRead 0 stackPage 1 0 0 {}, 0, []⟩, []⟩

/-- The key is typed. -/
def typedSession : Session where
  machine := ⟨{ consoleKernel.saved 0 pressed.trap.pt with
    kbs := typeInto consoleKernel.kbs [10] }, some pressed.trap.pt⟩
  out := []

theorem consoleSession_pressed : consoleSession.Roomy pressed ∧
    Session.Step Services.idle consoleSession pressed typedSession := by
  have hnum : u32 pressed.trap.pt.num = 0x21 := by decide
  have hroom : consoleSession.machine.k.kbs.unread +
      (typed (consoleSession.out ++ pressed.later.flatten)).length < kbBufSize := by
    show Ring.gap kbBufSize 0 0 + 1 < kbBufSize
    decide
  have hmannered : pressed.trap.Mannered := by
    apply Trap.mannered_of_num
    · rw [hnum]
      decide
    · intro h14
      rw [hnum] at h14
      cases h14
  refine ⟨fun _ => hroom, ⟨Option.some_ne_none 0, hmannered, .ret _,
    doTrap_keyboard rfl hnum 0 [10], rfl⟩, fun _ => ?_, fun hnot => absurd hnum hnot⟩
  · obtain ⟨bs, hsettles, hbs⟩ := Scancodes.kbdHandlerPorts_settles
      ⟨⟨[⟨false, 0x1c⟩], [], 0⟩, consoleKernel.kbs, ⟨fun _ => 0, 0, 0⟩⟩
    have hone : bs = [⟨false, 0x1c⟩] := by
      rw [hbs, List.take_nil]
      rfl
    rw [hone] at hsettles
    exact ⟨_, _, rfl, rfl, rfl, hsettles, rfl, rfl⟩

theorem typedSession_kpa : typedSession.machine.k.mm.kpa stackPage = some (pageSize * 6) := by
  have hf : target (leaf sampleKernel.mm.mem sampleRoot 0 stackPage) = some 6 := by
    have hleaf : leaf sampleKernel.mm.mem sampleRoot 0 stackPage = tableEntry 6 := sample_stack
    rw [hleaf, target_tableEntry]
  exact sampleKernel_start.cow.vm.kpa_user (p := 0) rfl rfl userVa_stackPage hf

theorem typedSession_reads : typedSession.machine.Reads asked.trap := by
  have hfd : int32 asked.trap.pt.rbx = 0 := by decide
  refine ⟨⟨by decide, by decide⟩, ?_⟩
  rw [hfd]
  exact ⟨0, 0, rfl, by decide, by decide, rfl, rfl⟩

theorem asked_mannered : asked.trap.Mannered := by
  have hcall : asked.trap.pt.Calls nrRead := typedSession_reads.1
  have hother : ∀ {nr : Nat}, nr ≠ nrRead → ¬ asked.trap.pt.Calls nr := fun hne h =>
    hne (h.2.symm.trans hcall.2)
  have hfd : int32 asked.trap.pt.rbx = 0 := by decide
  have hone : u32 asked.trap.pt.rdx = 1 := by decide
  exact {
    fault := fun h14 => by
      rw [hcall.1] at h14
      cases h14
    read := fun _ => by
      rw [hone]
      decide
    fd := fun _ => by
      rw [hfd]
      decide
    mmap := fun h => absurd h (hother (by decide))
    runVm := hother (by decide) }

/-- The key is read. -/
theorem typedSession_asked : ∃ s₂ : Session, typedSession.Roomy asked ∧
    Session.Step Services.idle typedSession asked s₂ ∧
    typedSession.machine.Gets asked.trap [10] s₂.machine := by
  obtain ⟨hcall, hcons⟩ := typedSession_reads
  have hnot : ¬ asked.Keyboard := fun hkbd => by
    have hnum : u32 asked.trap.pt.num = 0x21 := hkbd
    rw [hcall.1] at hnum
    cases hnum
  have hstore : store 1 stackPage 10 typedSession.machine.k.mm = .ok () _ :=
    store_ok typedSession_kpa
  have hin : typedSession.machine.k.kbs.Inside := ⟨by decide, by decide⟩
  have hpending : typedSession.machine.k.kbs.pending = [10] := by decide
  have hread := consRead_first (k := typedSession.machine.k.saved 0 asked.trap.pt) hin hpending
    (by decide) hstore
  have hone : u32 asked.trap.pt.rdx = 1 := by decide
  rw [← hone, ← sysRead_console Services.idle.stray (KState.saved_console.mpr hcons)] at hread
  have hrun := doTrap_read_console (h := Services.idle) (k := typedSession.machine.k) rfl hcall
    hread 0 []
  refine ⟨⟨⟨_, _⟩, []⟩, fun hkbd => absurd hkbd hnot,
    ⟨⟨Option.some_ne_none 0, asked_mannered, _, hrun, rfl⟩,
      fun hkbd => absurd hkbd hnot, fun _ => rfl⟩, fun hreads => ?_, fun _ => ⟨?_, rfl⟩,
      fun _ => ?_, fun _ hless => ?_⟩
  · exact absurd ⟨hcall, hcons⟩ hreads
  · rw [hone]
    exact Nat.le_refl 1
  · exact Act.bind_ok hstore
  · rw [hone] at hless
    exact absurd hless (Nat.lt_irrefl 1)

theorem consoleSession_ascii : consoleSession.machine.k.kbs.Ascii :=
  ⟨⟨by decide, by decide⟩, fun b hb => by
    have hnone : consoleSession.machine.k.kbs.pending = [] := initKbdata_pending ⟨fun _ => 0, 0, 0⟩
    rw [hnone] at hb
    cases hb⟩

theorem consoleSession_idle : ¬ consoleSession.machine.Reads pressed.trap := fun hreads =>
  absurd hreads.1.1 (by decide)

theorem keys_delivered_sample : ∃ s' : Session, s'.machine.k.kbs.Ascii ∧
    ∃ outs : List (Moment × List UInt8), outs.map Prod.fst = [pressed, asked] ∧
      Steps (fun s (x : Moment × List UInt8) s' =>
        (s.Roomy x.1 ∧ Session.Step Services.idle s x.1 s') ∧
          s.machine.Gets x.1.trap x.2 s'.machine) consoleSession outs s' ∧
      consoleSession.held ++ [pressed, asked].flatMap (fun x => typed x.later.flatten) =
        outs.flatMap Prod.snd ++ s'.held := by
  obtain ⟨s', hroom, hasked, -⟩ := typedSession_asked
  exact ⟨s', keys_delivered consoleSession_ascii
    (.cons consoleSession_pressed (.cons ⟨hroom, hasked⟩ (.nil s')))⟩

theorem getline_reads_sample : ∃ s' : Session,
    consoleSession.held ++ [pressed, asked].flatMap (fun x => typed x.later.flatten) =
      [10] ++ s'.held ∧ (1 : Nat) = [(10 : UInt8)].length ∧
    (¬ Getline.Goes 512 ⟨10, 1, [10]⟩ → [10] = firstLine 512
      (consoleSession.held ++ [pressed, asked].flatMap fun x => typed x.later.flatten)) := by
  obtain ⟨s', hroom, hasked, hgets⟩ := typedSession_asked
  obtain ⟨hroomy, hpressed⟩ := consoleSession_pressed
  have hfirst : Getline.Step Services.idle 512 (consoleSession, {}) pressed (typedSession, {}) :=
    ⟨hroomy, hpressed, fun hreads => absurd hreads consoleSession_idle, fun _ => rfl⟩
  have hsecond : Getline.Step Services.idle 512 (typedSession, {}) asked (s', ⟨10, 1, [10]⟩) :=
    ⟨hroom, hasked, fun _ => ⟨⟨by decide, by decide⟩, by decide, [10], hgets, rfl⟩,
      fun hnot => absurd typedSession_reads hnot⟩
  exact ⟨s', getline_reads consoleSession_ascii
    (.cons hfirst (.cons hsecond (.nil _)))⟩

end Sample

end Myos.Kernel
