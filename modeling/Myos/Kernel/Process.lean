import Myos.Lib.Chain
import Myos.Kernel.Proc

/-!
# What the process code does to the kernel's state

One lemma for each function of `kernel/proc.c` that is not about an address
space: the slot list, the loops over the open files, the scheduler. Each says
what the function comes to and what it leaves alone.
-/

namespace Myos.Kernel

open Myos.Lib

/-! ## Starving -/

/-- Once the kernel ran out of frames that stays recorded. -/
def KState.Starves (k k' : KState) : Prop := k.mm.Starves k'.mm

namespace KState.Starves

variable {α β : Type} {k : KState}

theorem refl (k : KState) : k.Starves k := fun h => h

theorem trans {a b c : KState} (h : a.Starves b) (h' : b.Starves c) : a.Starves c :=
  fun hs => h' (h hs)

theorem pure (a : α) : Act.Within KState.Starves (Pure.pure a : Act KState α) :=
  Act.Within.pure refl a

theorem gets (f : KState → α) : Act.Within KState.Starves (Act.gets f) :=
  Act.Within.gets refl f

theorem bind {x : Act KState α} {f : α → Act KState β} (hx : Act.Within KState.Starves x)
    (hf : ∀ a, Act.Within KState.Starves (f a)) : Act.Within KState.Starves (x >>= f) :=
  Act.Within.bind (r := KState.Starves) trans hx hf

theorem modify {f : KState → KState} (h : ∀ k, (f k).mm = k.mm) :
    Act.Within KState.Starves (Act.modify f) := fun k hs => by
  show (f k).mm.starved = true
  rw [h]
  exact hs

theorem setProc (p : Nat) (f : Proc → Proc) : Act.Within KState.Starves (Myos.Kernel.setProc p f) :=
  modify fun _ => rfl

theorem setFile (i : Nat) (f : File → File) : Act.Within KState.Starves (Myos.Kernel.setFile i f) :=
  modify fun _ => rfl

theorem deref (o : Option α) : Act.Within KState.Starves (Act.deref o) := by
  cases o with
  | none => exact Act.Within.stop refl
  | some a => exact pure a

theorem onMm {x : Act Mm α} (h : Act.Within Mm.Starves x) :
    Act.Within KState.Starves (onMm x) := fun k hs => by
  show (Myos.Kernel.onMm x k).state.mm.starved = true
  rw [Myos.Kernel.onMm, Act.zoom_state]
  exact h k.mm hs

/-- If what follows can only keep the record, the first part did not starve either. -/
theorem of_bind {x : Act KState α} {f : α → Act KState β}
    (hf : ∀ a, Act.Within KState.Starves (f a)) (h : ((x >>= f) k).state.mm.starved = false) :
    (x k).state.mm.starved = false := by
  cases hx : x k with
  | ok a k' =>
    rw [Act.bind_ok hx] at h
    by_contra hne
    have := hf a k' (Bool.eq_true_of_not_eq_false hne)
    rw [h] at this
    cases this
  | fault k' =>
    rw [Act.bind_fault hx] at h
    exact h

theorem of_onMm {x : Act Mm α} (h : (Myos.Kernel.onMm x k).state.mm.starved = false) :
    (x k.mm).state.starved = false := by
  rw [Myos.Kernel.onMm, Act.zoom_state] at h
  exact h

end KState.Starves

/-! ## The slots -/

section Slots

variable {k : KState} {p q : Nat} {l : List Nat}

/-- The free slots, in order. -/
def KState.Slots (k : KState) (l : List Nat) : Prop :=
  Chain (fun p => (k.procs p).link) k.procHead l

/-- The slot `alloc_proc` takes, cleared. -/
def KState.taken (k : KState) (q : Nat) : KState :=
  { k with procHead := (k.procs q).link }.setProc q { status := .stop, pid := q, link := none }

/-- `alloc_proc` takes the head of the list. -/
theorem allocProc_some (h : k.procHead = some q) : allocProc k = .ok q (k.taken q) := by
  have hderef : Act.deref k.procHead k = .ok q k := by rw [h]; rfl
  unfold allocProc
  rw [Act.gets_bind_apply, Act.bind_ok hderef]
  rfl

theorem KState.Slots.taken (h : k.Slots (q :: l)) : (k.taken q).Slots l := by
  have hq : q ∉ l := (List.nodup_cons.mp h.nodup).1
  refine h.of_cons.2.congr fun p hp => ?_
  have hne : p ≠ q := fun hpq => hq (hpq ▸ hp)
  show ((k.taken q).procs p).link = (k.procs p).link
  rw [KState.taken, KState.setProc_procs, if_neg hne]

/-- The state after `free_proc`. -/
def KState.released (k : KState) (p : Nat) : KState :=
  { k.setProc p { k.procs p with link := k.procHead } with procHead := some p }

theorem KState.released_procs (k : KState) (p q : Nat) : (k.released p).procs q =
    if q = p then { k.procs p with link := k.procHead } else k.procs q :=
  KState.setProc_procs k p q _

theorem freeProc_ok (k : KState) (p : Nat) : freeProc p k = .ok () (k.released p) := rfl

theorem KState.Slots.released (h : k.Slots l) (hp : p ∉ l) : (k.released p).Slots (p :: l) := by
  have hpush := Chain.push h hp
  refine hpush.congr fun q _ => ?_
  show (Function.update k.procs p _ q).link = _
  by_cases hq : q = p
  · subst hq
    rw [Function.update_self, Function.update_self]
  · rw [Function.update_of_ne hq, Function.update_of_ne hq]

end Slots

/-! ## The loops over the open files -/

/-- The open files and the descriptors may have changed, and nothing else. -/
structure KState.FilesOnly (k k' : KState) : Prop where
  fs : k'.fs = k.fs
  procHead : k'.procHead = k.procHead
  current : k'.current = k.current
  kpgdir : k'.kpgdir = k.kpgdir
  proc : ∀ p, { k'.procs p with fdtable := (k.procs p).fdtable } = k.procs p

namespace KState.FilesOnly

variable {k k' k'' : KState}

theorem refl (k : KState) : k.FilesOnly k := ⟨rfl, rfl, rfl, rfl, fun _ => rfl⟩

theorem trans (h : k.FilesOnly k') (h' : k'.FilesOnly k'') : k.FilesOnly k'' := by
  refine ⟨h'.fs.trans h.fs, h'.procHead.trans h.procHead, h'.current.trans h.current,
    h'.kpgdir.trans h.kpgdir, fun p => ?_⟩
  have h₁ := h.proc p
  rw [← h'.proc p] at h₁
  exact h₁

theorem setFile (k : KState) (f : Nat) (x : File) : k.FilesOnly (k.setFile f x) :=
  ⟨rfl, rfl, rfl, rfl, fun _ => rfl⟩

theorem setFd (k : KState) (p : Nat) (fds : Nat → Option Nat) :
    k.FilesOnly (k.setProc p { k.procs p with fdtable := fds }) := by
  refine ⟨rfl, rfl, rfl, rfl, fun q => ?_⟩
  rw [KState.setProc_procs]
  by_cases hq : q = p
  · rw [if_pos hq, hq]
  · rw [if_neg hq]

theorem mm (h : k.FilesOnly k') : k'.mm = k.mm := congrArg Fs.mm h.fs
theorem status (h : k.FilesOnly k') (p : Nat) : (k'.procs p).status = (k.procs p).status :=
  (congrArg Proc.status (h.proc p) :)
theorem pgdir (h : k.FilesOnly k') (p : Nat) : (k'.procs p).pgdir = (k.procs p).pgdir :=
  (congrArg Proc.pgdir (h.proc p) :)
theorem pid (h : k.FilesOnly k') (p : Nat) : (k'.procs p).pid = (k.procs p).pid :=
  (congrArg Proc.pid (h.proc p) :)
theorem link (h : k.FilesOnly k') (p : Nat) : (k'.procs p).link = (k.procs p).link :=
  (congrArg Proc.link (h.proc p) :)
theorem pregs (h : k.FilesOnly k') (p : Nat) : (k'.procs p).pregs = (k.procs p).pregs :=
  (congrArg Proc.pregs (h.proc p) :)

theorem slots (h : k.FilesOnly k') {l : List Nat} (hl : k.Slots l) : k'.Slots l := by
  rw [KState.Slots, h.procHead]
  exact Chain.congr hl fun p _ => h.link p

end KState.FilesOnly

/-- `sys_fork` copies the descriptors. -/
theorem copyFiles_run (cur p n i : Nat) (k : KState) :
    ∃ k', copyFiles cur p n i k = .ok () k' ∧ k.FilesOnly k' := by
  induction n generalizing i k with
  | zero => exact ⟨k, rfl, .refl k⟩
  | succ n ih =>
    unfold copyFiles
    rw [Act.gets_bind_apply]
    cases (k.procs cur).fdtable i with
    | none => exact ih (i + 1) k
    | some f =>
      obtain ⟨k', hrun, h⟩ := ih (i + 1) _
      exact ⟨k', hrun, ((KState.FilesOnly.setFd k p _).trans (.setFile _ f _)).trans h⟩

theorem copyFiles_starves (cur p n i : Nat) :
    Act.Within KState.Starves (copyFiles cur p n i) := fun k hs => by
  obtain ⟨k', hrun, h⟩ := copyFiles_run cur p n i k
  rw [hrun]
  show k'.mm.starved = true
  rw [h.mm]
  exact hs

/-- `destroy_proc` lets the open files go. -/
theorem releaseFiles_run (p n i : Nat) (k : KState) :
    ∃ k', releaseFiles p n i k = .ok () k' ∧ k.FilesOnly k' := by
  induction n generalizing i k with
  | zero => exact ⟨k, rfl, .refl k⟩
  | succ n ih =>
    unfold releaseFiles
    rw [Act.gets_bind_apply]
    cases (k.procs p).fdtable i with
    | none => exact ih (i + 1) k
    | some f =>
      have hrest : ∀ k₁ : KState, ∃ k', (if (k₁.filetable f).refcount = 0 then do
            setProc p fun r => { r with fdtable := Function.update r.fdtable i none }
            releaseFiles p n (i + 1)
          else releaseFiles p n (i + 1)) k₁ = .ok () k' ∧ k₁.FilesOnly k' := by
        intro k₁
        by_cases hz : (k₁.filetable f).refcount = 0
        · obtain ⟨k', hrun, h⟩ := ih (i + 1) _
          rw [if_pos hz]
          exact ⟨k', hrun, (KState.FilesOnly.setFd k₁ p _).trans h⟩
        · rw [if_neg hz]
          exact ih (i + 1) k₁
      obtain ⟨k', hrun, h⟩ := hrest _
      exact ⟨k', hrun, (KState.FilesOnly.setFile k f _).trans h⟩

/-! ## The scheduler -/

section Schedule

variable {k : KState} {curind next n : Nat}

/-- The state in which a process runs under the tables at `cr3`. -/
def KState.enter (k : KState) (p cr3 : Nat) : KState :=
  { k.setMm { k.mm with cr3 := cr3 } with current := some p }

/-- The state in which `run_proc` leaves the kernel. -/
def KState.running (k : KState) (p : Nat) : KState := k.enter p (kva2pa (k.procs p).pgdir)

theorem KState.enter_mem (k : KState) (p cr3 : Nat) : (k.enter p cr3).mm.mem = k.mm.mem := rfl
theorem KState.enter_starved (k : KState) (p cr3 : Nat) :
    (k.enter p cr3).mm.starved = k.mm.starved := rfl

theorem KState.enter_procs (k : KState) (p cr3 : Nat) : (k.enter p cr3).procs = k.procs := rfl
theorem KState.enter_procHead (k : KState) (p cr3 : Nat) :
    (k.enter p cr3).procHead = k.procHead := rfl
theorem KState.enter_current (k : KState) (p cr3 : Nat) : (k.enter p cr3).current = some p := rfl
theorem KState.enter_filetable (k : KState) (p cr3 : Nat) :
    (k.enter p cr3).filetable = k.filetable := rfl

theorem KState.enter_phead (k : KState) (p cr3 : Nat) :
    (k.enter p cr3).mm.phead = k.mm.phead := rfl

theorem KState.running_procs (k : KState) (p : Nat) : (k.running p).procs = k.procs :=
  KState.enter_procs k p (kva2pa (k.procs p).pgdir)
theorem KState.running_procHead (k : KState) (p : Nat) : (k.running p).procHead = k.procHead :=
  KState.enter_procHead k p (kva2pa (k.procs p).pgdir)
theorem KState.running_current (k : KState) (p : Nat) : (k.running p).current = some p :=
  KState.enter_current k p (kva2pa (k.procs p).pgdir)
theorem KState.running_filetable (k : KState) (p : Nat) :
    (k.running p).filetable = k.filetable :=
  KState.enter_filetable k p (kva2pa (k.procs p).pgdir)
theorem KState.running_phead (k : KState) (p : Nat) : (k.running p).mm.phead = k.mm.phead :=
  KState.enter_phead k p (kva2pa (k.procs p).pgdir)
theorem KState.running_mem (k : KState) (p : Nat) : (k.running p).mm.mem = k.mm.mem :=
  KState.enter_mem k p (kva2pa (k.procs p).pgdir)
theorem KState.running_starved (k : KState) (p : Nat) :
    (k.running p).mm.starved = k.mm.starved :=
  KState.enter_starved k p (kva2pa (k.procs p).pgdir)

theorem runProc_ok (k : KState) (p : Nat) : runProc p k = .ok () (k.running p) := rfl

/-- The loop looks at every slot from `next` on, up to that of the caller. -/
theorem scheduleLoop_run (hcur : curind < maxProc) (hnext : next < maxProc)
    (hn : (curind + maxProc - next) % maxProc < n) :
    ∃ r, scheduleLoop curind n next k = .ok r k ∧
      ∀ p, r = some p → (k.procs p).status = .runnable := by
  induction n generalizing next with
  | zero => omega
  | succ n ih =>
    unfold scheduleLoop
    by_cases hend : curind = next
    · rw [if_pos hend]
      exact ⟨none, rfl, fun _ h => by cases h⟩
    · rw [if_neg hend, Act.gets_bind_apply]
      by_cases hrun : (k.procs next).status = .runnable
      · rw [if_pos hrun]
        exact ⟨some next, rfl, fun p hp => by cases hp; exact hrun⟩
      · rw [if_neg hrun]
        refine ih (Nat.mod_lt _ (by decide)) ?_
        unfold maxProc at *
        omega

/-- `schedule` enters a process that may run, or stops. -/
theorem schedule_run (hpid : ∀ p, k.current = some p → (k.procs p).pid < maxProc) :
    (∃ p, (k.procs p).status = .runnable ∧ schedule k = .ok (.run p) (k.running p)) ∨
      schedule k = .ok .halt { k with current := none } := by
  have hcur : k.curind < maxProc := by
    unfold KState.curind
    cases hc : k.current with
    | none => exact Nat.succ_pos 9
    | some p => exact hpid p hc
  -- the first turn looks one slot past the caller's, which may be past the last
  have hloop : ∀ curind, curind < maxProc →
      ∃ r, scheduleLoop curind (maxProc + 2) (curind + 1) k = .ok r k ∧
        ∀ p, r = some p → (k.procs p).status = .runnable := by
    intro curind hlt
    by_cases hlast : curind + 1 < maxProc
    · refine scheduleLoop_run hlt hlast ?_
      unfold maxProc at *
      omega
    · unfold scheduleLoop
      rw [if_neg (Nat.ne_of_lt (Nat.lt_succ_self curind)), Act.gets_bind_apply]
      by_cases hrun : (k.procs (curind + 1)).status = .runnable
      · rw [if_pos hrun]
        exact ⟨_, rfl, fun p hp => by cases hp; exact hrun⟩
      · rw [if_neg hrun]
        refine scheduleLoop_run hlt (Nat.mod_lt _ (by decide)) ?_
        unfold maxProc at *
        omega
  obtain ⟨r, hr, hrun⟩ := hloop _ hcur
  unfold schedule
  rw [Act.gets_bind_apply, Act.bind_ok hr]
  cases r with
  | some p => exact .inl ⟨p, hrun p rfl, rfl⟩
  | none =>
    simp only [Act.gets_bind_apply]
    split
    · next h => exact .inl ⟨_, h, rfl⟩
    · exact .inr rfl

end Schedule

/-! ## What the code on memory leaves alone -/

theorem onMm_eq_ok {α : Type} {x : Act Mm α} {k k' : KState} {a : α} :
    onMm x k = .ok a k' ↔ ∃ m, x k.mm = .ok a m ∧ k' = KState.setMm m k := Act.zoom_eq_ok

theorem currentProc_eq_ok {k k' : KState} {p : Nat} :
    currentProc k = .ok p k' ↔ k.current = some p ∧ k' = k := by
  unfold currentProc
  rw [Act.gets_bind_apply]
  cases k.current with
  | none => exact ⟨fun h => (by cases h), fun h => (by cases h.1)⟩
  | some c =>
    constructor
    · intro h
      cases h
      exact ⟨rfl, rfl⟩
    · rintro ⟨h, rfl⟩
      cases h
      rfl

theorem allocProc_eq_ok {k k' : KState} {q : Nat} (h : allocProc k = .ok q k') :
    k.procHead = some q ∧ k' = k.taken q := by
  cases hhead : k.procHead with
  | none =>
    unfold allocProc at h
    rw [Act.gets_bind_apply, hhead] at h
    cases h
  | some p =>
    rw [allocProc_some hhead] at h
    cases h
    exact ⟨rfl, rfl⟩

/-! ## `sys_fork` -/

theorem walkDir_creates {pgdir va : Nat} {s s' : Mm} {o : Option Nat}
    (h : walkDir pgdir va 1 s = .ok o s') : o ≠ none := by
  unfold walkDir at h
  obtain ⟨e, s₁, -, h⟩ := Act.bind_eq_ok.mp h
  split at h
  · cases h
    exact Option.some_ne_none _
  · rw [if_pos rfl] at h
    obtain ⟨pde, s₂, -, h⟩ := Act.bind_eq_ok.mp h
    cases h
    exact Option.some_ne_none _

/-- The walk that creates finds an entry. -/
theorem walkPage_creates {pgdir va : Nat} {s s' : Mm} {o : Option Nat}
    (h : walkPage pgdir va 1 s = .ok o s') : o ≠ none := by
  unfold walkPage at h
  obtain ⟨e, s₁, -, h⟩ := Act.bind_eq_ok.mp h
  split at h
  · obtain ⟨e, s₂, -, h⟩ := Act.bind_eq_ok.mp h
    split at h
    · exact walkDir_creates h
    · rw [if_neg (by decide)] at h
      obtain ⟨pdpt, s₃, -, h⟩ := Act.bind_eq_ok.mp h
      exact walkDir_creates h
  · rw [if_neg (by decide)] at h
    obtain ⟨pml4, s₂, -, h⟩ := Act.bind_eq_ok.mp h
    obtain ⟨pdpt, s₃, -, h⟩ := Act.bind_eq_ok.mp h
    exact walkDir_creates h

theorem insertPage_nonneg {pgdir va p flag : Nat} {s s' : Mm} {r : Int}
    (h : insertPage pgdir va (some p) flag s = .ok r s') : r = 0 := by
  unfold insertPage at h
  obtain ⟨o, s₁, hwalk, h⟩ := Act.bind_eq_ok.mp h
  cases o with
  | none => exact absurd rfl (walkPage_creates hwalk)
  | some pte =>
    obtain ⟨pa, s₂, -, h⟩ := Act.bind_eq_ok.mp h
    obtain ⟨u, s₃, -, h⟩ := Act.bind_eq_ok.mp h
    cases h
    rfl

theorem sharePages_nonneg {pgdir child n addr : Nat} {s s' : Mm} {r : Int}
    (h : sharePages pgdir child n addr s = .ok r s') : r = 0 := by
  induction n generalizing addr s with
  | zero =>
    cases h
    rfl
  | succ n ih =>
    unfold sharePages at h
    obtain ⟨o, s₁, -, h⟩ := Act.bind_eq_ok.mp h
    cases o with
    | none => exact ih h
    | some pte =>
      obtain ⟨e, s₂, -, h⟩ := Act.bind_eq_ok.mp h
      dsimp only at h
      split at h
      · exact ih h
      · obtain ⟨r', s₃, hins, h⟩ := Act.bind_eq_ok.mp h
        cases insertPage_nonneg hins
        rw [if_neg (by decide)] at h
        obtain ⟨u, s₄, -, h⟩ := Act.bind_eq_ok.mp h
        obtain ⟨e', s₅, -, h⟩ := Act.bind_eq_ok.mp h
        obtain ⟨u', s₆, -, h⟩ := Act.bind_eq_ok.mp h
        exact ih h

/-- The state in which `sys_fork` has the slot `q`, the directory `d` and the memory `m`. -/
def KState.forking (k : KState) (p q d : Nat) (m : Mm) : KState :=
  (KState.setMm m (k.taken q)).setProc q
    { status := .stop
      pid := q
      pgdir := d
      pregs := { ((k.taken q).procs p).pregs with rax := 0 } }

theorem KState.forking_procs {k : KState} {q x : Nat} (hx : x ≠ q) (p d : Nat) (m : Mm) :
    (k.forking p q d m).procs x = k.procs x := by
  rw [KState.forking, KState.setProc_procs, if_neg hx, KState.setMm_procs, KState.taken,
    KState.setProc_procs, if_neg hx]

/-- How `sys_fork` comes out, if it returns: without a frame for the directory
the slot stays taken; else the files are copied and the process may run. -/
inductive Forking (k : KState) (p q : Nat) : Int → KState → Prop where
  | noFrame {m : Mm} (none : allocVm k.kpgdir k.mm = .ok 0 m) :
      Forking k p q (-1) (k.forking p q 0 m)
  | forked {d : Nat} {m₁ m : Mm} {k₁ : KState} (dir : allocVm k.kpgdir k.mm = .ok d m₁)
      (ne : d ≠ 0) (files : copyFiles p q maxOpenFile 0 (k.forking p q d m) = .ok () k₁) :
      Forking k p q ((k₁.procs q).pid) (k₁.setProc q { k₁.procs q with status := .runnable })

/-- `sys_fork` up to the address space: a slot is taken, with the caller's registers. -/
theorem sysFork_start {k : KState} {p q : Nat} (hcur : k.current = some p)
    (hhead : k.procHead = some q) :
    ∃ k₁, sysFork k = forkSpace p q k₁ ∧ k₁.kpgdir = k.kpgdir ∧ k₁.mm = k.mm ∧
      (∀ x, x ≠ q → k₁.procs x = k.procs x) ∧
      ∀ d m, (KState.setMm m k₁).setProc q { k₁.procs q with pgdir := d } =
        k.forking p q d m := by
  have hself : (k.taken q).procs q = { status := .stop, pid := q, link := none } :=
    KState.setProc_self _ _ _
  refine ⟨(k.taken q).setProc q { (k.taken q).procs q with
    pregs := { ((k.taken q).procs p).pregs with rax := 0 } }, ?_, rfl, rfl, fun x hx => ?_,
    fun d m => ?_⟩
  · unfold sysFork
    rw [Act.bind_ok (allocProc_some hhead),
      Act.bind_ok (currentProc_eq_ok.mpr ⟨show (k.taken q).current = some p from hcur, rfl⟩),
      Act.gets_bind_apply, Act.bind_ok (setProc_apply _ _ _)]
  · rw [KState.setProc_procs, if_neg hx, KState.taken, KState.setProc_procs, if_neg hx]
  · rw [KState.setProc_self, hself]
    exact KState.setProc_setProc (KState.setMm m (k.taken q)) q _ _

theorem sysFork_eq_ok {k k' : KState} {r : Int} (h : sysFork k = .ok r k') :
    ∃ p q, k.current = some p ∧ k.procHead = some q ∧ Forking k p q r k' := by
  have hparts := h
  unfold sysFork at hparts
  obtain ⟨q, k₀, halloc, hparts⟩ := Act.bind_eq_ok.mp hparts
  obtain ⟨hhead, rfl⟩ := allocProc_eq_ok halloc
  obtain ⟨p, k₀, hcur, -⟩ := Act.bind_eq_ok.mp hparts
  have hcurrent : k.current = some p := (currentProc_eq_ok.mp hcur).1
  refine ⟨p, q, hcurrent, hhead, ?_⟩
  obtain ⟨k₁, heq, hdir, hmm, -, hset⟩ := sysFork_start hcurrent hhead
  rw [heq] at h
  unfold forkSpace at h
  rw [Act.gets_bind_apply, hdir] at h
  obtain ⟨d, k₃, hvm, h⟩ := Act.bind_eq_ok.mp h
  obtain ⟨m₁, hvm', rfl⟩ := onMm_eq_ok.mp hvm
  rw [hmm] at hvm'
  rw [Act.bind_ok (setProc_apply _ _ _), KState.setMm_procs, hset] at h
  by_cases hd : d = 0
  · subst hd
    rw [if_pos rfl] at h
    cases h
    exact .noFrame hvm'
  · rw [if_neg hd, Act.gets_bind_apply] at h
    obtain ⟨r', k₄, hshare, h⟩ := Act.bind_eq_ok.mp h
    obtain ⟨m₂, hshare', rfl⟩ := onMm_eq_ok.mp hshare
    cases sharePages_nonneg hshare'
    rw [if_neg (by decide)] at h
    obtain ⟨u, k₅, hstack, h⟩ := Act.bind_eq_ok.mp h
    obtain ⟨m₃, hstack', rfl⟩ := onMm_eq_ok.mp hstack
    obtain ⟨u', k₆, hfiles, h⟩ := Act.bind_eq_ok.mp h
    rw [Act.bind_ok (setProc_apply _ _ _), Act.gets_apply, KState.setProc_self] at h
    cases h
    exact .forked (m := m₃) hvm' hd hfiles

/-- `sys_fork` where there is no frame at all. -/
theorem sysFork_starved {k : KState} {p q : Nat} (hcur : k.current = some p)
    (hhead : k.procHead = some q) (hnone : k.mm.phead = none) :
    sysFork k = .ok (-1) (k.forking p q 0 { k.mm with starved := true }) := by
  have hvm : allocVm k.kpgdir k.mm = .ok 0 { k.mm with starved := true } := by
    unfold allocVm
    rw [Act.bind_ok (allocPage_none hnone)]
    rfl
  obtain ⟨k₁, heq, hdir, hmm, -, hset⟩ := sysFork_start hcur hhead
  have hvm₁ : onMm (allocVm k.kpgdir) k₁ = .ok 0 (KState.setMm { k.mm with starved := true } k₁) :=
    onMm_ok (by rw [hmm]; exact hvm)
  rw [heq]
  unfold forkSpace
  rw [Act.gets_bind_apply, hdir, Act.bind_ok hvm₁, Act.bind_ok (setProc_apply _ _ _),
    KState.setMm_procs, hset, if_pos rfl]
  rfl

/-! ## `sys_exit` -/

/-- The state in which `destroy_proc` has taken the address space of `p` away. -/
def KState.ended (k : KState) (p : Nat) (m : Mm) : KState :=
  (KState.setMm m k).setProc p { k.procs p with pgdir := 0 }

/-- The slot of `p` is free, and nothing runs. -/
def KState.stopped (k : KState) (p : Nat) : KState :=
  { (k.released p).setProc p { (k.released p).procs p with status := .stop } with current := none }

theorem KState.stopped_procs (k : KState) (p q : Nat) : (k.stopped p).procs q =
    if q = p then { k.procs p with link := k.procHead, status := .stop } else k.procs q := by
  show (((k.released p).setProc p _).procs q) = _
  rw [KState.setProc_procs]
  by_cases hq : q = p
  · rw [if_pos hq, if_pos hq, KState.released_procs, if_pos rfl]
  · rw [if_neg hq, if_neg hq, KState.released_procs, if_neg hq]

theorem KState.Slots.stopped {k : KState} {l : List Nat} {p : Nat} (h : k.Slots l) (hp : p ∉ l) :
    (k.stopped p).Slots (p :: l) := by
  refine (h.released hp).congr fun q _ => ?_
  rw [KState.stopped_procs, KState.released_procs]
  split <;> rfl

/-- `destroy_proc` of the running process: its address space, its files and its slot go, and
the processor is given away. -/
theorem destroyProc_run {k k₁ : KState} {p : Nat} {m : Mm} (hcur : k.current = some p)
    (hvm : destroyVm (k.procs p).pgdir k.mm = .ok () m)
    (hfiles : releaseFiles p maxOpenFile 0 (k.ended p m) = .ok () k₁) :
    destroyProc (some p) k = schedule (k₁.stopped p) := by
  have hset : setProc p (fun r => { r with pgdir := 0 }) (KState.setMm m k) =
      .ok () (k.ended p m) := rfl
  obtain ⟨k₂, hfiles', honly⟩ := releaseFiles_run p maxOpenFile 0 (k.ended p m)
  cases hfiles'.symm.trans hfiles
  rw [destroyProc, Act.gets_bind_apply, Act.bind_ok (onMm_ok hvm), Act.bind_ok hset,
    Act.bind_ok hfiles, Act.bind_ok (freeProc_ok k₁ p), Act.bind_ok (setProc_apply _ _ _),
    Act.gets_bind_apply, KState.setProc_current,
    if_pos (show (k₁.released p).current = some p from honly.current.trans hcur),
    Act.modify_bind_apply]
  rfl

/-- How `sys_exit` comes out for the process `p`, if it returns. -/
inductive Exiting (k : KState) (p : Nat) : Ctl Int → KState → Prop where
  | run {m : Mm} {k₁ : KState} {q : Nat}
      (files : releaseFiles p maxOpenFile 0 (k.ended p m) = .ok () k₁)
      (runnable : ((k₁.stopped p).procs q).status = .runnable) :
      Exiting k p (.run q) ((k₁.stopped p).running q)
  | halt {m : Mm} {k₁ : KState}
      (files : releaseFiles p maxOpenFile 0 (k.ended p m) = .ok () k₁) :
      Exiting k p .halt (k₁.stopped p)

theorem sysExit_eq_ok {k k' : KState} {p : Nat} {c : Ctl Int} (hcur : k.current = some p)
    (h : sysExit k = .ok c k') : Exiting k p c k' := by
  unfold sysExit at h
  rw [Act.gets_bind_apply, hcur] at h
  obtain ⟨c', k₁, hdestroy, h⟩ := Act.bind_eq_ok.mp h
  have hparts := hdestroy
  unfold destroyProc at hparts
  dsimp only at hparts
  rw [Act.gets_bind_apply] at hparts
  obtain ⟨u, k₂, hvm, -⟩ := Act.bind_eq_ok.mp hparts
  obtain ⟨m, hvm', -⟩ := onMm_eq_ok.mp hvm
  obtain ⟨k₃, hfiles, -⟩ := releaseFiles_run p maxOpenFile 0 (k.ended p m)
  rw [destroyProc_run hcur hvm' hfiles] at hdestroy
  rcases schedule_run (k := k₃.stopped p) (fun q hq => by cases hq) with ⟨q, hrun, hsched⟩ | hsched
  · cases hdestroy.symm.trans hsched
    cases h
    exact .run hfiles hrun
  · cases hdestroy.symm.trans hsched
    cases h
    exact .halt hfiles

end Myos.Kernel
