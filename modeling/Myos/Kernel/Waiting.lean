import Myos.Kernel.Slots

/-!
# Waiting for a process

`sys_waitpid` over the process tables of runs from the boot on. A run carries
the slots that were ever taken: `STOP` is stored when a slot is taken and when
its process ends, so a slot that was never taken still has the nought of the
boot for a status, which is `RUNNING`. The loop of `sys_waitpid` takes it for
a process that has not ended. Its check of the argument lets `MAXPROC` pass.
-/

namespace Myos.Kernel

open Myos.Lib

/-! ## The slots ever taken -/

/-- The slot an event takes. -/
def SlotEvent.takes (k : KState) : SlotEvent → Option Nat
  | .create _ => k.procHead
  | .fork => k.procHead
  | .exit => none
  | .run _ => none

/-- An event, and the slots taken so far. -/
def takingStep (s : KState × List Nat) (e : SlotEvent) (s' : KState × List Nat) : Prop :=
  slotStep s.1 e s'.1 ∧ s'.2 = (e.takes s.1).toList ++ s.2

/-- What `status` was set to once the slot was taken. -/
def ProcStatus.Set (x : ProcStatus) : Prop := x = .stop ∨ x = .runnable

section Steps

variable {k k' : KState} {l U : List Nat} {p q : Nat}

/-- TAKE: only the slot that is taken gets another status. -/
theorem KState.Touches.taken_status (htouch : (k.taken q).Touches q k') (hp : p ≠ q) :
    (k'.procs p).status = (k.procs p).status := by
  rw [htouch.status p hp, KState.taken, KState.setProc_procs, if_neg hp]

/-- CREATE: the slot has a process that may run. -/
theorem createProc_status {binary : Nat} (hrun : createProc binary k = .ok q k') :
    k'.Live q ∧ ∀ p, p ≠ q → (k'.procs p).status = (k.procs p).status := by
  obtain ⟨-, k₁, hnew, rfl⟩ := createProc_eq_ok hrun
  have hprocs := KState.running_procs k₁ q
  refine ⟨?_, fun p hp => ?_⟩
  · rw [KState.Live, hprocs]
    exact hnew.live
  · rw [hprocs]
    exact hnew.touches.taken_status hp

/-- FORK: the slot is `STOP` if it was lost, and may run otherwise. -/
theorem Forking.status {r : Int} (h : Forking k p q r k') :
    (k'.procs q).status.Set ∧ ∀ p', p' ≠ q → (k'.procs p').status = (k.procs p').status := by
  cases h with
  | @noFrame m none =>
    refine ⟨.inl ?_, fun p' hp' => (KState.Touches.forking k p q 0 m).taken_status hp'⟩
    rw [KState.forking, KState.setProc_self]
  | @forked d m₁ m k₁ dir ne files =>
    obtain ⟨k₂, hfiles, honly⟩ := copyFiles_run p q maxOpenFile 0 (k.forking p q d m)
    cases hfiles.symm.trans files
    refine ⟨.inr ?_, fun p' hp' => ?_⟩
    · rw [KState.setProc_self]
    · rw [KState.setProc_procs, if_neg hp', honly.status]
      exact (KState.Touches.forking k p q d m).taken_status hp'

/-- EXIT: the slot of the process is `STOP`. -/
theorem Exiting.status {c : Ctl Int} (h : Exiting k p c k') :
    (k'.procs p).status = .stop ∧ ∀ q, q ≠ p → (k'.procs q).status = (k.procs q).status := by
  have hends : ∀ {m k₁}, releaseFiles p maxOpenFile 0 (k.ended p m) = .ok () k₁ →
      ((k₁.stopped p).procs p).status = .stop ∧
        ∀ q, q ≠ p → ((k₁.stopped p).procs q).status = (k.procs q).status := by
    intro m k₁ hfiles
    obtain ⟨k₂, hfiles', honly⟩ := releaseFiles_run p maxOpenFile 0 (k.ended p m)
    cases hfiles'.symm.trans hfiles
    refine ⟨?_, fun q hq => ?_⟩
    · rw [KState.stopped_procs, if_pos rfl]
    · rw [KState.stopped_procs, if_neg hq, honly.status, KState.ended, KState.setProc_procs,
        if_neg hq]
      rfl
  cases h with
  | @run m k₁ q files runnable =>
    rw [KState.running_procs]
    exact hends files
  | halt files => exact hends files

/-- The list of free slots, and the statuses: nought where no slot was taken. -/
structure Taken (k : KState) (U : List Nat) : Prop where
  inv : ∃ l, SlotInv k l
  used : ∀ {p}, p ∈ U → (k.procs p).status.Set
  unused : ∀ {p}, p ∉ U → (k.procs p).status = .running

/-- A slot is taken, and gets a status. -/
theorem Taken.take (h : Taken k U) (hinv : ∃ l, SlotInv k' l) (hset : (k'.procs q).status.Set)
    (hother : ∀ p, p ≠ q → (k'.procs p).status = (k.procs p).status) : Taken k' (q :: U) := by
  refine ⟨hinv, fun {p} hp => ?_, fun {p} hp => ?_⟩
  · by_cases hpq : p = q
    · rw [hpq]
      exact hset
    · rw [hother p hpq]
      exact h.used ((List.mem_cons.mp hp).resolve_left hpq)
  · have hpq : p ≠ q := fun hpq => hp (hpq ▸ List.mem_cons_self)
    rw [hother p hpq]
    exact h.unused fun hin => hp (List.mem_cons_of_mem q hin)

/-- STEP: the statuses say which slots were taken. -/
theorem Taken.step (h : Taken k U) {e : SlotEvent} (hstep : slotStep k e k') :
    Taken k' ((e.takes k).toList ++ U) := by
  obtain ⟨l, hinv⟩ := h.inv
  obtain ⟨l', hinv', -⟩ := hinv.step hstep
  cases e with
  | create binary =>
    obtain ⟨q, hrun⟩ := hstep
    obtain ⟨hlive, hother⟩ := createProc_status hrun
    show Taken k' (k.procHead.toList ++ U)
    rw [(createProc_eq_ok hrun).1]
    exact h.take ⟨l', hinv'⟩ (.inr hlive) hother
  | fork =>
    obtain ⟨r, hrun⟩ := hstep
    obtain ⟨p, q, -, hhead, hfork⟩ := sysFork_eq_ok hrun
    show Taken k' (k.procHead.toList ++ U)
    rw [hhead]
    exact h.take ⟨l', hinv'⟩ hfork.status.1 hfork.status.2
  | exit =>
    obtain ⟨c, hrun⟩ := hstep
    show Taken k' U
    cases hcur : k.current with
    | none =>
      cases (sysExit_idle hcur).symm.trans hrun
      exact h
    | some p =>
      obtain ⟨hstop, hother⟩ := (sysExit_eq_ok hcur hrun).status
      have hlive : (k.procs p).status = .runnable := hinv.current hcur
      refine ⟨⟨l', hinv'⟩, fun {q} hq => ?_, fun {q} hq => ?_⟩
      · by_cases hqp : q = p
        · rw [hqp, hstop]
          exact .inl rfl
        · rw [hother q hqp]
          exact h.used hq
      · -- a process that runs is in a slot that was taken
        have hqp : q ≠ p := fun hqp =>
          ProcStatus.noConfusion ((h.unused (hqp ▸ hq)).symm.trans hlive)
        rw [hother q hqp]
        exact h.unused hq
  | run p =>
    obtain ⟨-, hrun⟩ := hstep
    rw [runProc_ok] at hrun
    cases hrun
    refine ⟨⟨l', hinv'⟩, fun {q} hq => ?_, fun {q} hq => ?_⟩
    · rw [KState.running_procs]
      exact h.used hq
    · rw [KState.running_procs]
      exact h.unused hq

end Steps

/-- At the boot none was taken. -/
theorem Booted.taken {k : KState} (h : Booted k) : Taken k [] := by
  obtain ⟨⟨l, hinv, -⟩, -⟩ := h.inv
  refine ⟨⟨l, hinv⟩, fun {p} hp => absurd hp List.not_mem_nil, fun {p} _ => ?_⟩
  obtain ⟨k₀, hzero, -, hrun⟩ := h
  unfold initProc at hrun
  rw [Act.bind_ok (initProcs_run maxProc none k₀)] at hrun
  cases hrun
  show (linkedProcs k₀.procs maxProc none p).status = .running
  unfold linkedProcs
  rw [hzero]
  split <;> rfl

/-- RUN: the statuses say it in every state of a run from the boot. -/
theorem taken_run {k₀ k : KState} {U : List Nat} {es : List SlotEvent} (hboot : Booted k₀)
    (hrun : Steps takingStep (k₀, []) es (k, U)) : Taken k U := by
  refine Steps.invariant (fun s => Taken s.1 s.2) ?_ hrun hboot.taken
  rintro s e t h ⟨hstep, hused⟩
  rw [hused]
  exact h.step hstep

/-! ## The argument -/

section Argument

variable {k : KState} {p : Nat}

/-- The loop is over at once for a slot that is `STOP`, and only then. -/
theorem waitpidTurn_ret :
    (∃ r k', waitpidTurn p k = .ok (.ret r) k') ↔ (k.procs p).status = .stop := by
  unfold waitpidTurn
  rw [Act.gets_bind_apply]
  by_cases hstop : (k.procs p).status = .stop
  · rw [if_pos hstop]
    exact ⟨fun _ => hstop, fun _ => ⟨p, k, rfl⟩⟩
  · rw [if_neg hstop]
    refine ⟨fun ⟨r, k', hrun⟩ => ?_, fun h => absurd h hstop⟩
    obtain ⟨c, k₁, -, hrun⟩ := Act.bind_eq_ok.mp hrun
    cases c <;> cases hrun

/-- An argument that passes the check. -/
theorem sysWaitpid_slot (hp : p ≤ maxProc) : sysWaitpid p = waitpidTurn p := by
  unfold sysWaitpid
  rw [if_neg (by omega), Int.toNat_natCast]

theorem sysWaitpid_stop (hp : p ≤ maxProc) (hstop : (k.procs p).status = .stop) :
    sysWaitpid p k = .ok (.ret p) k := by
  rw [sysWaitpid_slot hp]
  unfold waitpidTurn
  rw [Act.gets_bind_apply, if_pos hstop]
  rfl

/-- SPIN: where no process ever was, the call does not return. -/
theorem Taken.spins {U : List Nat} (h : Taken k U) (hp : p < maxProc) (hout : p ∉ U) :
    ¬ ∃ r k', sysWaitpid p k = .ok (.ret r) k' := by
  rw [sysWaitpid_slot hp.le, waitpidTurn_ret, h.unused hout]
  exact ProcStatus.noConfusion

/-- What `waitpid` should do: it refuses a number that no slot has, whatever
`procs` holds, and it returns at once where no process is live. -/
def Waits (k : KState) (pid : Int) : Prop :=
  (pid < 0 ∨ (maxProc : Int) ≤ pid → ∀ procs, sysWaitpid pid { k with procs := procs } =
    .ok (.ret (-1)) { k with procs := procs }) ∧
  ∀ p : Nat, pid = p → p < maxProc → ¬ k.Live p → sysWaitpid pid k = .ok (.ret pid) k

/-- The first number that no slot has is not refused. -/
theorem not_waits_maxProc : ¬ Waits k (maxProc : Nat) := by
  intro h
  have hrun := h.1 (.inr (Int.le_refl _)) k.procs
  rw [sysWaitpid_slot (Nat.le_refl _)] at hrun
  have hstop := waitpidTurn_ret.mp ⟨_, _, hrun⟩
  rw [← sysWaitpid_slot (Nat.le_refl _), sysWaitpid_stop (Nat.le_refl _) hstop] at hrun
  cases hrun

/-- WAITPID: it does what it should for every argument but `MAXPROC` and the
slots that no process was ever in. -/
theorem waitpid_returns {k₀ k : KState} {U : List Nat} {es : List SlotEvent} (pid : Int)
    (hboot : Booted k₀) (hrun : Steps takingStep (k₀, []) es (k, U)) :
    Waits k pid ↔ pid ≠ maxProc ∧ ∀ p : Nat, pid = p → p < maxProc → p ∈ U := by
  have htaken := taken_run hboot hrun
  constructor
  · intro h
    refine ⟨fun hpid => not_waits_maxProc (hpid ▸ h), fun p hpid hp => ?_⟩
    by_contra hout
    have hzero := htaken.unused hout
    have hdead : ¬ k.Live p := fun hlive => ProcStatus.noConfusion (hzero.symm.trans hlive)
    have hret := h.2 p hpid hp hdead
    rw [hpid] at hret
    exact htaken.spins hp hout ⟨_, _, hret⟩
  · rintro ⟨hne, hused⟩
    refine ⟨fun hout procs => ?_, fun p hpid hp hdead => ?_⟩
    · unfold sysWaitpid
      rw [if_pos (by omega)]
      rfl
    · have hstop := (htaken.used (hused p hpid hp)).resolve_right hdead
      rw [hpid]
      exact sysWaitpid_stop hp.le hstop

end Argument

/-- After the boot and the first process: slot 0 was taken. -/
theorem waitpid_returns_first : ∃ k,
    Steps takingStep (oneFrameBooted, []) [.create (frameVa 0)] (k, [0]) ∧
      (Waits k (0 : Nat) ↔ ((0 : Nat) : Int) ≠ maxProc ∧
        ∀ p : Nat, ((0 : Nat) : Int) = p → p < maxProc → p ∈ [0]) := by
  obtain ⟨k, hcreate, -, -⟩ := oneFrame_create
  have hrun : Steps takingStep (oneFrameBooted, []) [.create (frameVa 0)] (k, [0]) :=
    .cons ⟨⟨0, hcreate⟩, rfl⟩ (.nil _)
  exact ⟨k, hrun, waitpid_returns _ oneFrame_booted hrun⟩

/-- Of the slots of the boot none was taken, and waiting for one does not return. -/
theorem waitpid_unused : ¬ ∀ k₀ es k U pid, Booted k₀ → Steps takingStep (k₀, []) es (k, U) →
    Waits k pid := by
  intro hall
  have h := hall oneFrameBooted [] oneFrameBooted [] (0 : Nat) oneFrame_booted (.nil _)
  have hdead : ¬ oneFrameBooted.Live 0 := oneFrame_booted.inv.2 0
  have hret := h.2 0 rfl (by decide) hdead
  exact oneFrame_booted.taken.spins (by decide) List.not_mem_nil ⟨_, _, hret⟩

end Myos.Kernel
