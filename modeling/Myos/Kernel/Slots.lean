import Myos.Lib.Run
import Myos.Kernel.Exec
import Myos.Kernel.Process

/-!
# The process slots

The list from `proc_head` against the processes that may run: together they
are `procs[0]` to `procs[MAXPROC - 1]`, each once. `SlotEvent` is what moves a
slot from the one to the other. What goes wrong is `sys_fork` without a frame
for the directory, which takes a slot and returns without giving it back, and
`alloc_proc` without a slot, which follows a null pointer.
-/

namespace Myos.Kernel

open Myos.Lib

/-! ## What happens -/

/-- What the slots are moved by; `run` is a process getting the processor. -/
inductive SlotEvent where
  | create (binary : Nat)
  | fork
  | exit
  | run (p : Nat)

def slotStep (k : KState) : SlotEvent → KState → Prop
  | .create binary, k' => ∃ p, createProc binary k = .ok p k'
  | .fork, k' => ∃ r, sysFork k = .ok r k'
  | .exit, k' => ∃ c, sysExit k = .ok c k'
  | .run p, k' => (k.procs p).status = .runnable ∧ runProc p k = .ok () k'

/-- There is a frame for a directory. -/
def KState.HasFrame (k : KState) : Prop :=
  ∃ n, k.mm.phead = some n ∧ k.mm.page2va (some n) ≠ 0

/-- A slot is there for a process that is made, and for a fork a frame too. -/
def SlotEvent.Served (k : KState) : SlotEvent → Prop
  | .create _ => k.procHead ≠ none
  | .fork => k.procHead ≠ none ∧ k.HasFrame
  | .exit => True
  | .run _ => True

/-- The slots, as `init_proc` leaves them: the records were zero. -/
def Booted (k : KState) : Prop :=
  ∃ k₀ : KState, (∀ p, k₀.procs p = {}) ∧ k₀.current = none ∧ initProc k₀ = .ok () k

/-- A process that may run; the status is set to nothing but this and `STOP`. -/
def KState.Live (k : KState) (p : Nat) : Prop := (k.procs p).status = .runnable

theorem KState.stopped_dead (k : KState) (p : Nat) : ¬ (k.stopped p).Live p := by
  unfold KState.Live
  rw [KState.stopped_procs, if_pos rfl]
  exact ProcStatus.noConfusion

theorem KState.stopped_live {k : KState} {p q : Nat} (hq : q ≠ p) :
    (k.stopped p).Live q ↔ k.Live q := by
  unfold KState.Live
  rw [KState.stopped_procs, if_neg hq]

/-- The list from `proc_head` is `l`, without repetition, and has no live process. -/
structure Listed (k : KState) (l : List Nat) : Prop where
  slots : k.Slots l
  nodup : l.Nodup
  free : ∀ {p}, p ∈ l → p < maxProc ∧ ¬ k.Live p
  live : ∀ {p}, k.Live p → p < maxProc
  pid : ∀ {p}, k.Live p → (k.procs p).pid = p

/-- Its members and the live processes are all the slots there are. -/
structure Partition (k : KState) (l : List Nat) : Prop extends Listed k l where
  all : ∀ {p}, p < maxProc → ¬ k.Live p → p ∈ l

section Steps

variable {k k' : KState} {l : List Nat} {p q : Nat}

/-- What is kept when neither the list nor a process changes. -/
theorem Listed.congr (h : Listed k l) (hhead : k'.procHead = k.procHead)
    (hlink : ∀ p, (k'.procs p).link = (k.procs p).link)
    (hstatus : ∀ p, (k'.procs p).status = (k.procs p).status)
    (hpid : ∀ p, (k'.procs p).pid = (k.procs p).pid) : Listed k' l := by
  have hlive : ∀ p, k'.Live p ↔ k.Live p := fun p => by
    unfold KState.Live
    rw [hstatus]
  refine ⟨?_, h.nodup, fun {p} hp => ?_, fun {p} hp => h.live ((hlive p).mp hp), fun {p} hp => ?_⟩
  · rw [KState.Slots, hhead]
    exact Chain.congr h.slots fun p _ => hlink p
  · rw [hlive]
    exact h.free hp
  · rw [hpid]
    exact h.pid ((hlive p).mp hp)

/-- TAKE: the head of the list becomes a live process, and nothing else changes. -/
theorem Listed.take (h : Listed k (q :: l)) (hlink : ∀ p, (k'.procs p).link =
      ((k.taken q).procs p).link) (hhead : k'.procHead = (k.taken q).procHead)
    (hother : ∀ p, p ≠ q → (k'.procs p).status = (k.procs p).status ∧
      (k'.procs p).pid = (k.procs p).pid)
    (hpid : (k'.procs q).pid = q) : Listed k' l := by
  have hq : q ∉ l := (List.nodup_cons.mp h.nodup).1
  have hmem : ∀ p, p ≠ q → (k'.Live p ↔ k.Live p) := fun p hp => by
    unfold KState.Live
    rw [(hother p hp).1]
  refine ⟨?_, (List.nodup_cons.mp h.nodup).2, fun {p} hp => ?_, fun {p} hp => ?_, fun {p} hp => ?_⟩
  · rw [KState.Slots, hhead]
    exact Chain.congr h.slots.taken fun p _ => hlink p
  · rw [hmem p fun hpq => hq (hpq ▸ hp)]
    exact h.free (List.mem_cons_of_mem q hp)
  · by_cases hpq : p = q
    · rw [hpq]
      exact (h.free List.mem_cons_self).1
    · exact h.live ((hmem p hpq).mp hp)
  · by_cases hpq : p = q
    · rw [hpq]
      exact hpid
    · rw [(hother p hpq).2]
      exact h.pid ((hmem p hpq).mp hp)

/-- GIVE BACK: a live process ends, and its slot is the head of the list. -/
theorem Listed.stopped (h : Listed k l) (hp : k.Live p) : Listed (k.stopped p) (p :: l) := by
  have hout : p ∉ l := fun hin => (h.free hin).2 hp
  have hdead : ¬ (k.stopped p).Live p := KState.stopped_dead k p
  refine ⟨?_, List.nodup_cons.mpr ⟨hout, h.nodup⟩, fun {q} hq => ?_, fun {q} hq => ?_,
    fun {q} hq => ?_⟩
  · exact h.slots.stopped hout
  · by_cases hqp : q = p
    · rw [hqp]
      exact ⟨h.live hp, hdead⟩
    · rw [KState.stopped_live hqp]
      exact h.free ((List.mem_cons.mp hq).resolve_left hqp)
  · by_cases hqp : q = p
    · exact absurd (hqp ▸ hq) hdead
    · exact h.live ((KState.stopped_live hqp).mp hq)
  · by_cases hqp : q = p
    · exact absurd (hqp ▸ hq) hdead
    · rw [KState.stopped_procs, if_neg hqp]
      exact h.pid ((KState.stopped_live hqp).mp hq)

/-- As far as the slots are concerned, at most the status of `q` changed. -/
structure KState.Touches (q : Nat) (k k' : KState) : Prop where
  procHead : k'.procHead = k.procHead
  current : k'.current = k.current
  link : ∀ p, (k'.procs p).link = (k.procs p).link
  pid : ∀ p, (k'.procs p).pid = (k.procs p).pid
  status : ∀ p, p ≠ q → (k'.procs p).status = (k.procs p).status

namespace KState.Touches

theorem refl (k : KState) : Touches q k k := ⟨rfl, rfl, fun _ => rfl, fun _ => rfl, fun _ _ => rfl⟩

theorem trans {k'' : KState} (h : Touches q k k') (h' : Touches q k' k'') : Touches q k k'' :=
  ⟨h'.procHead.trans h.procHead, h'.current.trans h.current,
    fun p => (h'.link p).trans (h.link p), fun p => (h'.pid p).trans (h.pid p),
    fun p hp => (h'.status p hp).trans (h.status p hp)⟩

theorem setMm (k : KState) (m : Mm) : Touches q k (KState.setMm m k) :=
  ⟨rfl, rfl, fun _ => rfl, fun _ => rfl, fun _ _ => rfl⟩

theorem of_onMm {α : Type} {x : Act Mm α} {a : α} (h : onMm x k = .ok a k') : Touches q k k' := by
  obtain ⟨m, -, rfl⟩ := onMm_eq_ok.mp h
  exact setMm k m

theorem setProc (k : KState) {r : Proc} (hlink : r.link = (k.procs q).link)
    (hpid : r.pid = (k.procs q).pid) : Touches q k (k.setProc q r) := by
  refine ⟨rfl, rfl, fun p => ?_, fun p => ?_, fun p hp => ?_⟩
  · rw [KState.setProc_procs]
    split
    · next hp => rw [hp, hlink]
    · rfl
  · rw [KState.setProc_procs]
    split
    · next hp => rw [hp, hpid]
    · rfl
  · rw [KState.setProc_procs, if_neg hp]

theorem of_setProc {f : Proc → Proc} {u : Unit} (h : Myos.Kernel.setProc q f k = .ok u k')
    (hlink : ∀ r, (f r).link = r.link) (hpid : ∀ r, (f r).pid = r.pid) : Touches q k k' := by
  rw [setProc_apply] at h
  cases h
  exact setProc k (hlink _) (hpid _)

theorem of_filesOnly (h : k.FilesOnly k') : Touches q k k' :=
  ⟨h.procHead, h.current, h.link, h.pid, fun p _ => h.status p⟩

/-- From the slot taken to the slot filled in. -/
theorem forking (k : KState) (p q d : Nat) (m : Mm) :
    (k.taken q).Touches q (k.forking p q d m) := by
  have hself : (k.taken q).procs q = { status := .stop, pid := q, link := none } :=
    KState.setProc_self _ _ _
  refine (setMm (k.taken q) m).trans (setProc _ ?_ ?_)
  · rw [KState.setMm_procs, hself]
  · rw [KState.setMm_procs, hself]

end KState.Touches

/-- The open files are the same, and the descriptors of the processes in `P`. -/
structure KState.KeepsFds (P : Nat → Prop) (k k' : KState) : Prop where
  filetable : k'.filetable = k.filetable
  fdtable : ∀ p, P p → (k'.procs p).fdtable = (k.procs p).fdtable

namespace KState.KeepsFds

variable {P : Nat → Prop}

theorem refl (k : KState) : KeepsFds P k k := ⟨rfl, fun _ _ => rfl⟩

theorem trans {k'' : KState} (h : KeepsFds P k k') (h' : KeepsFds P k' k'') : KeepsFds P k k'' :=
  ⟨h'.filetable.trans h.filetable, fun p hp => (h'.fdtable p hp).trans (h.fdtable p hp)⟩

theorem of_onMm {α : Type} {x : Act Mm α} {a : α} (h : onMm x k = .ok a k') : KeepsFds P k k' := by
  obtain ⟨m, -, rfl⟩ := onMm_eq_ok.mp h
  exact ⟨rfl, fun _ _ => rfl⟩

theorem of_setProc {f : Proc → Proc} {u : Unit} (h : Myos.Kernel.setProc q f k = .ok u k')
    (hfds : P q → ∀ r, (f r).fdtable = r.fdtable) : KeepsFds P k k' := by
  rw [setProc_apply] at h
  cases h
  refine ⟨rfl, fun p hp => ?_⟩
  rw [KState.setProc_procs]
  split
  · next hpq => rw [hfds (hpq ▸ hp), hpq]
  · rfl

end KState.KeepsFds

/-- What `create_proc` makes of the slot `q` it took. -/
structure KState.Created (k : KState) (q : Nat) (k' : KState) : Prop where
  touches : (k.taken q).Touches q k'
  fds : k.KeepsFds (fun p => p ≠ q) k'
  noFds : (k'.procs q).fdtable = fun _ => none
  live : k'.Live q

/-- How `create_proc` comes out, if it returns: the new process runs. -/
theorem createProc_eq_ok {binary : Nat} (h : createProc binary k = .ok q k') :
    k.procHead = some q ∧ ∃ k₁, k.Created q k₁ ∧ k' = k₁.running q := by
  unfold createProc at h
  obtain ⟨q', k₀, halloc, h⟩ := Act.bind_eq_ok.mp h
  obtain ⟨hhead, hk₀⟩ := allocProc_eq_ok halloc
  obtain ⟨u, k₁, hregs, h⟩ := Act.bind_eq_ok.mp h
  rw [Act.gets_bind_apply] at h
  obtain ⟨d, k₂, hvm, h⟩ := Act.bind_eq_ok.mp h
  obtain ⟨u₂, k₃, hdir, h⟩ := Act.bind_eq_ok.mp h
  obtain ⟨u₃, k₄, hcr3, h⟩ := Act.bind_eq_ok.mp h
  obtain ⟨o, k₅, hload, h⟩ := Act.bind_eq_ok.mp h
  obtain ⟨k₆, h₆, hfds₆, h⟩ : ∃ k₆, KState.Touches q' k₅ k₆ ∧ KState.KeepsFds (fun _ => True) k₅ k₆ ∧
      (do
        setProc q' fun r => { r with status := .runnable }
        runProc q'
        return q') k₆ = .ok q k' := by
    cases o with
    | none => exact ⟨k₅, .refl k₅, .refl k₅, h⟩
    | some entry =>
      obtain ⟨u₄, k₆, hentry, h⟩ := Act.bind_eq_ok.mp h
      exact ⟨k₆, .of_setProc hentry (fun _ => rfl) fun _ => rfl,
        .of_setProc hentry fun _ _ => rfl, h⟩
  obtain ⟨u₅, k₇, hstatus, h⟩ := Act.bind_eq_ok.mp h
  rw [Act.bind_ok (runProc_ok k₇ q')] at h
  cases h
  have h₁ := KState.Touches.of_setProc (q := q) hregs (fun _ => rfl) fun _ => rfl
  have h₃ := KState.Touches.of_setProc hdir (fun _ => rfl) fun _ => rfl
  have h₇ := KState.Touches.of_setProc hstatus (fun _ => rfl) fun _ => rfl
  have hrest : k₃.KeepsFds (fun _ => True) k₇ :=
    (((KState.KeepsFds.of_onMm hcr3).trans (.of_onMm hload)).trans hfds₆).trans
      (.of_setProc hstatus fun _ _ => rfl)
  have hothers : k.KeepsFds (fun p => p ≠ q) k₃ := by
    have htaken : k.KeepsFds (fun p => p ≠ q) (k.taken q) := ⟨rfl, fun p hp => by
      rw [KState.taken, KState.setProc_procs, if_neg hp]⟩
    rw [hk₀] at hregs
    exact ((htaken.trans (.of_setProc hregs fun _ _ => rfl)).trans (.of_onMm hvm)).trans
      (.of_setProc hdir fun hq => absurd rfl hq)
  have hnone : (k₃.procs q).fdtable = fun _ => none := by
    rw [setProc_apply] at hdir
    cases hdir
    rw [KState.setProc_self]
  have hlive : k₇.Live q := by
    rw [setProc_apply] at hstatus
    cases hstatus
    rw [KState.Live, KState.setProc_self]
  rw [hk₀] at h₁
  exact ⟨hhead, k₇, ⟨((((((h₁.trans (.of_onMm hvm)).trans h₃).trans (.of_onMm hcr3)).trans
    (.of_onMm hload)).trans h₆).trans h₇),
    ⟨hrest.filetable.trans hothers.filetable, fun p hp =>
      (hrest.fdtable p trivial).trans (hothers.fdtable p hp)⟩,
    (hrest.fdtable q trivial).trans hnone, hlive⟩, rfl⟩

/-- The list has a head if `proc_head` says so. -/
theorem Listed.head (h : Listed k l) (hhead : k.procHead = some q) : ∃ l', l = q :: l' := by
  have hslots := h.slots
  rw [KState.Slots, hhead] at hslots
  obtain ⟨l', rfl, -⟩ := hslots.of_some
  exact ⟨l', rfl⟩

/-- The slot `q` was taken; its process need not be live yet. -/
theorem Listed.touched (h : Listed k (q :: l)) (htouch : (k.taken q).Touches q k') :
    Listed k' l := by
  refine h.take htouch.link htouch.procHead (fun p hp => ?_) ?_
  · rw [htouch.status p hp, htouch.pid, KState.taken, KState.setProc_procs, if_neg hp]
    exact ⟨rfl, rfl⟩
  · rw [htouch.pid, KState.taken, KState.setProc_self]

/-- The running process stays what it was when a slot is taken. -/
theorem Listed.touched_live (h : Listed k (q :: l)) (htouch : (k.taken q).Touches q k')
    (hp : k.Live p) : k'.Live p := by
  have hpq : p ≠ q := fun hpq => (h.free (hpq ▸ List.mem_cons_self)).2 hp
  rw [KState.Live, htouch.status p hpq, KState.taken, KState.setProc_procs, if_neg hpq]
  exact hp

/-- With a live process in the slot that was taken, no slot is lost. -/
theorem Partition.touched (h : Partition k (q :: l)) (htouch : (k.taken q).Touches q k')
    (hlive : k'.Live q) : Partition k' l := by
  refine ⟨h.toListed.touched htouch, fun {p} hp hdead => ?_⟩
  have hpq : p ≠ q := fun hpq => hdead (hpq ▸ hlive)
  have hdead' : ¬ k.Live p := fun hk => hdead (h.touched_live htouch hk)
  exact (List.mem_cons.mp (h.all hp hdead')).resolve_left hpq

theorem Partition.stopped (h : Partition k l) (hp : k.Live p) :
    Partition (k.stopped p) (p :: l) := by
  refine ⟨h.toListed.stopped hp, fun {q} hq hdead => ?_⟩
  by_cases hqp : q = p
  · rw [hqp]
    exact List.mem_cons_self
  · exact List.mem_cons_of_mem p (h.all hq fun hk => hdead ((KState.stopped_live hqp).mpr hk))

/-! ## The events, one by one -/

/-- The list, and the running process is live. -/
structure SlotInv (k : KState) (l : List Nat) : Prop extends Listed k l where
  current : ∀ {p}, k.current = some p → k.Live p

/-- RUN: a live process gets the processor. -/
theorem SlotInv.run (h : Listed k l) (hp : k.Live p) : SlotInv (k.running p) l := by
  have hprocs := KState.running_procs k p
  refine ⟨h.congr (KState.running_procHead k p) (fun q => by rw [hprocs]) (fun q => by rw [hprocs])
    fun q => by rw [hprocs], fun {q} hq => ?_⟩
  rw [KState.running_current] at hq
  cases hq
  rw [KState.Live, hprocs]
  exact hp

theorem Partition.run (h : Partition k l) (p : Nat) : Partition (k.running p) l := by
  have hprocs := KState.running_procs k p
  refine ⟨h.congr (KState.running_procHead k p) (fun q => by rw [hprocs]) (fun q => by rw [hprocs])
    fun q => by rw [hprocs], fun {q} hq hdead => h.all hq ?_⟩
  rw [KState.Live, hprocs] at hdead
  exact hdead

/-- CREATE: the new process runs. -/
theorem SlotInv.create (h : SlotInv k l) {binary : Nat} (hrun : createProc binary k = .ok q k') :
    ∃ l', l = q :: l' ∧ SlotInv k' l' ∧ (Partition k l → Partition k' l') := by
  obtain ⟨hhead, k₁, hnew, rfl⟩ := createProc_eq_ok hrun
  obtain ⟨l', rfl⟩ := h.head hhead
  exact ⟨l', rfl, .run (h.touched hnew.touches) hnew.live,
    fun hpart => (hpart.touched hnew.touches hnew.live).run q⟩

/-- `alloc_vm` fails if there is none. -/
theorem allocVm_eq_ok {dir d : Nat} {m : Mm} (h : allocVm dir k.mm = .ok d m) :
    d ≠ 0 ↔ k.HasFrame := by
  unfold allocVm at h
  obtain ⟨o, s₁, halloc, h⟩ := Act.bind_eq_ok.mp h
  unfold allocPage at halloc
  rw [Act.gets_bind_apply] at halloc
  cases hn : k.mm.phead with
  | none =>
    rw [hn] at halloc
    cases halloc
    cases h
    refine ⟨fun hd => absurd rfl hd, fun ⟨n, hn', _⟩ => ?_⟩
    rw [hn] at hn'
    cases hn'
  | some n =>
    rw [hn] at halloc
    obtain ⟨u, s₂, -, halloc⟩ := Act.bind_eq_ok.mp halloc
    obtain ⟨u', s₃, -, halloc⟩ := Act.bind_eq_ok.mp halloc
    obtain ⟨u'', s₄, -, halloc⟩ := Act.bind_eq_ok.mp halloc
    cases halloc
    dsimp only at h
    rw [Act.gets_bind_apply] at h
    obtain ⟨u₃, s₅, -, h⟩ := Act.bind_eq_ok.mp h
    simp only [Act.pure_apply, Res.ok.injEq] at h
    rw [← h.1]
    refine ⟨fun hva => ⟨n, hn, hva⟩, fun ⟨n', hn', hva⟩ => ?_⟩
    cases hn.symm.trans hn'
    exact hva

/-- FORK: with a frame for the directory the new process is live, and without
one the slot is lost. -/
theorem SlotInv.fork (h : SlotInv k l) {r : Int} (hrun : sysFork k = .ok r k') :
    ∃ q l', l = q :: l' ∧ SlotInv k' l' ∧ (Partition k l → (Partition k' l' ↔ k.HasFrame)) := by
  obtain ⟨p, q, hcur, hhead, hfork⟩ := sysFork_eq_ok hrun
  obtain ⟨l', rfl⟩ := h.head hhead
  have hcurrent : ∀ {k'}, (k.taken q).Touches q k' → SlotInv k' l' := fun htouch =>
    ⟨h.touched htouch, fun hc => h.touched_live htouch (h.current (htouch.current.symm.trans hc))⟩
  cases hfork with
  | @noFrame m none =>
    have htouch := KState.Touches.forking k p q 0 m
    refine ⟨q, l', rfl, hcurrent htouch, fun hpart => ⟨fun hpart' => ?_, fun hframe => ?_⟩⟩
    · have hdead : ¬ (k.forking p q 0 m).Live q := by
        unfold KState.Live
        rw [KState.forking, KState.setProc_self]
        exact ProcStatus.noConfusion
      exact absurd (hpart'.all (h.free List.mem_cons_self).1 hdead)
        (List.nodup_cons.mp h.nodup).1
    · exact absurd rfl ((allocVm_eq_ok none).mpr hframe)
  | @forked d m₁ m k₁ dir ne files =>
    obtain ⟨k₂, hfiles, honly⟩ := copyFiles_run p q maxOpenFile 0 (k.forking p q d m)
    cases hfiles.symm.trans files
    have htouch : (k.taken q).Touches q (k₁.setProc q { k₁.procs q with status := .runnable }) :=
      ((KState.Touches.forking k p q d m).trans (.of_filesOnly honly)).trans (.setProc k₁ rfl rfl)
    exact ⟨q, l', rfl, hcurrent htouch, fun hpart => ⟨fun _ => (allocVm_eq_ok dir).mp ne,
      fun _ => hpart.touched htouch (by rw [KState.Live, KState.setProc_self])⟩⟩

/-- EXIT: the slot of the process is given back. -/
theorem SlotInv.exit (h : SlotInv k l) (hcur : k.current = some p) {c : Ctl Int}
    (hrun : sysExit k = .ok c k') :
    SlotInv k' (p :: l) ∧ (Partition k l → Partition k' (p :: l)) := by
  have hlive := h.current hcur
  have hends : ∀ {m k₁}, releaseFiles p maxOpenFile 0 (k.ended p m) = .ok () k₁ →
      Listed (k₁.stopped p) (p :: l) ∧ (Partition k l → Partition (k₁.stopped p) (p :: l)) := by
    intro m k₁ hfiles
    obtain ⟨k₂, hfiles', honly⟩ := releaseFiles_run p maxOpenFile 0 (k.ended p m)
    cases hfiles'.symm.trans hfiles
    have hproc : ∀ q, (k₁.procs q).link = (k.procs q).link ∧
        (k₁.procs q).status = (k.procs q).status ∧ (k₁.procs q).pid = (k.procs q).pid := fun q => by
      rw [honly.link, honly.status, honly.pid, KState.ended, KState.setProc_procs]
      split
      · next hq => exact ⟨by rw [hq], by rw [hq], by rw [hq]⟩
      · exact ⟨rfl, rfl, rfl⟩
    have hlisted : Listed k₁ l := h.congr honly.procHead (fun q => (hproc q).1)
      (fun q => (hproc q).2.1) fun q => (hproc q).2.2
    have hlive₁ : ∀ q, k₁.Live q ↔ k.Live q := fun q => by
      rw [KState.Live, (hproc q).2.1, KState.Live]
    exact ⟨hlisted.stopped ((hlive₁ p).mpr hlive), fun hpart => Partition.stopped
      ⟨hlisted, fun hq hdead => hpart.all hq fun hk => hdead ((hlive₁ _).mpr hk)⟩
      ((hlive₁ p).mpr hlive)⟩
  cases sysExit_eq_ok hcur hrun with
  | @run m k₁ q files runnable =>
    exact ⟨.run (hends files).1 runnable, fun hpart => ((hends files).2 hpart).run q⟩
  | halt files => exact ⟨⟨(hends files).1, fun hc => by cases hc⟩, (hends files).2⟩

/-- Nothing to end: `sys_exit` without a running process. -/
theorem sysExit_idle (hcur : k.current = none) : sysExit k = .ok (.ret 0) k := by
  unfold sysExit
  rw [Act.gets_bind_apply, hcur]
  rfl

/-- STEP: an event keeps the list, and the partition exactly if it is served. -/
theorem SlotInv.step (h : SlotInv k l) {e : SlotEvent} (hstep : slotStep k e k') :
    ∃ l', SlotInv k' l' ∧ (Partition k l → (Partition k' l' ↔ e.Served k)) := by
  cases e with
  | create binary =>
    obtain ⟨q, hrun⟩ := hstep
    have hserved : SlotEvent.Served k (.create binary) := by
      show k.procHead ≠ none
      rw [(createProc_eq_ok hrun).1]
      exact Option.some_ne_none q
    obtain ⟨l', -, hinv, hpart⟩ := h.create hrun
    exact ⟨l', hinv, fun hk => ⟨fun _ => hserved, fun _ => hpart hk⟩⟩
  | fork =>
    obtain ⟨r, hrun⟩ := hstep
    obtain ⟨p, q, -, hhead, -⟩ := sysFork_eq_ok hrun
    obtain ⟨q', l', -, hinv, hpart⟩ := h.fork hrun
    refine ⟨l', hinv, fun hk => ⟨fun hk' => ⟨?_, (hpart hk).mp hk'⟩, fun hs => (hpart hk).mpr hs.2⟩⟩
    rw [hhead]
    exact Option.some_ne_none q
  | exit =>
    obtain ⟨c, hrun⟩ := hstep
    cases hcur : k.current with
    | none =>
      cases (sysExit_idle hcur).symm.trans hrun
      exact ⟨l, h, fun hk => ⟨fun _ => trivial, fun _ => hk⟩⟩
    | some p =>
      obtain ⟨hinv, hpart⟩ := h.exit hcur hrun
      exact ⟨p :: l, hinv, fun hk => ⟨fun _ => trivial, fun _ => hpart hk⟩⟩
  | run p =>
    obtain ⟨hlive, hrun⟩ := hstep
    rw [runProc_ok] at hrun
    cases hrun
    exact ⟨l, .run h.toListed hlive, fun hk => ⟨fun _ => trivial, fun _ => hk.run p⟩⟩

end Steps

/-! ## From the boot on -/

/-- The first `n` slots, linked in order, and the last of them to `h`. -/
def linkedProcs (procs : Nat → Proc) (n : Nat) (h : Option Nat) (p : Nat) : Proc :=
  if p < n then { procs p with link := if p + 1 = n then h else some (p + 1) } else procs p

/-- The loop of `init_proc`. -/
theorem initProcs_run (n : Nat) (h : Option Nat) (k : KState) : initProcs n h k =
    .ok (if n = 0 then h else some 0) { k with procs := linkedProcs k.procs n h } := by
  induction n generalizing h k with
  | zero => rfl
  | succ n ih =>
    unfold initProcs
    rw [Act.bind_ok (setProc_apply _ _ _), ih]
    have hhead : (if n = 0 then some n else some 0) = if n + 1 = 0 then h else some 0 := by
      rw [if_neg (Nat.succ_ne_zero n)]
      split
      · next hn => rw [hn]
      · rfl
    rw [hhead]
    congr 2
    funext p
    unfold linkedProcs
    rw [KState.setProc_procs]
    rcases Nat.lt_trichotomy p n with hp | rfl | hp
    · rw [if_pos hp, if_neg (Nat.ne_of_lt hp), if_pos (Nat.lt_succ_of_lt hp),
        if_neg (by omega : ¬ p + 1 = n + 1)]
      by_cases hlast : p + 1 = n
      · rw [if_pos hlast, hlast]
      · rw [if_neg hlast]
    · rw [if_neg (Nat.lt_irrefl p), if_pos rfl, if_pos (Nat.lt_succ_self p), if_pos rfl]
    · rw [if_neg (by omega), if_neg (by omega), if_neg (by omega)]

/-- After `init_proc` every slot is free. -/
theorem Booted.inv {k : KState} (h : Booted k) :
    (∃ l, SlotInv k l ∧ Partition k l) ∧ ∀ p, ¬ k.Live p := by
  obtain ⟨k₀, hzero, hcur, hrun⟩ := h
  unfold initProc at hrun
  rw [Act.bind_ok (initProcs_run maxProc none k₀)] at hrun
  cases hrun
  have hdead : ∀ p, (linkedProcs k₀.procs maxProc none p).status ≠ .runnable := fun p => by
    unfold linkedProcs
    rw [hzero]
    split <;> exact ProcStatus.noConfusion
  have hmem : ∀ p, p ∈ [0, 1, 2, 3, 4, 5, 6, 7, 8, 9] ↔ p < maxProc := fun p => by
    unfold maxProc
    simp only [List.mem_cons, List.not_mem_nil, or_false]
    omega
  have hpart : Partition { k₀ with
      procs := linkedProcs k₀.procs maxProc none, procHead := some 0 }
      [0, 1, 2, 3, 4, 5, 6, 7, 8, 9] :=
    ⟨⟨.cons (.cons (.cons (.cons (.cons (.cons (.cons (.cons (.cons (.cons .nil))))))))),
      by decide, fun {p} hp => ⟨(hmem p).mp hp, hdead p⟩, fun hp => absurd hp (hdead _),
      fun hp => absurd hp (hdead _)⟩, fun {p} hp _ => (hmem p).mpr hp⟩
  exact ⟨⟨_, ⟨hpart.toListed, fun {p} hp => absurd (hcur.symm.trans hp)
    (Option.some_ne_none p).symm⟩, hpart⟩, hdead⟩

/-- A list is the only one. -/
theorem Partition.unique {k : KState} {l l' : List Nat} (h : k.Slots l) (h' : Partition k l') :
    Partition k l := by
  rw [h.unique h'.slots]
  exact h'

/-- THE SLOTS: in a run from the boot whose events are served, the free slots
and the live processes are a partition; and the next event keeps it so exactly
if it is served too. -/
theorem slot_partition {k₀ k : KState} {es : List SlotEvent} (hboot : Booted k₀)
    (hrun : Steps (fun k e k' => e.Served k ∧ slotStep k e k') k₀ es k) :
    (∃ l, Partition k l) ∧
      ∀ e k', slotStep k e k' → ((∃ l, Partition k' l) ↔ e.Served k) := by
  obtain ⟨l, hinv, hpart⟩ : ∃ l, SlotInv k l ∧ Partition k l := by
    refine Steps.invariant (fun k => ∃ l, SlotInv k l ∧ Partition k l) ?_ hrun hboot.inv.1
    rintro s e t ⟨l, hinv, hpart⟩ ⟨hserved, hstep⟩
    obtain ⟨l', hinv', hpart'⟩ := hinv.step hstep
    exact ⟨l', hinv', (hpart' hpart).mpr hserved⟩
  refine ⟨⟨l, hpart⟩, fun e k' hstep => ?_⟩
  obtain ⟨l', hinv', hpart'⟩ := hinv.step hstep
  rw [← hpart' hpart]
  exact ⟨fun ⟨l₁, hl₁⟩ => .unique hinv'.slots hl₁, fun hk' => ⟨l', hk'⟩⟩

/-! ## One frame -/

/-- Frame 1 is the kernel's directory, and frame 2 the only one free. -/
def oneFrame : KState :=
  KState.setMm { KState.zero.mm with
    pages := fun i => if i = 2 then {} else { count := 1 }
    phead := some 2
    npages := 3 } { KState.zero with kpgdir := frameVa 1 }

/-- What `init_proc` makes of it. -/
def oneFrameBooted : KState :=
  { oneFrame with procs := linkedProcs oneFrame.procs maxProc none, procHead := some 0 }

theorem oneFrame_booted : Booted oneFrameBooted := by
  refine ⟨oneFrame, fun _ => rfl, rfl, ?_⟩
  unfold initProc
  rw [Act.bind_ok (initProcs_run maxProc none oneFrame)]
  rfl

/-- What does not start as an ELF file is not loaded. -/
theorem loadImg_none {s : Mm} {pgdir f : Nat} (hf : f < 2 ^ 19) (hne : s.mem (pageSize * f) ≠ 0x7f) :
    loadImg pgdir (frameVa f) s = .ok none s := by
  have hload : ∀ i, i < pageSize → load 1 (frameVa f + i) s =
      .ok (Mem.rd 1 s.mem (pageSize * f + i)) s := fun i hi => load_ok (Mm.kpa_frameVa hf hi)
  have hload₀ := hload 0 (by decide)
  rw [Nat.add_zero, Nat.add_zero] at hload₀
  have hmag : Mem.rd 1 s.mem (pageSize * f) ≠ elfMag0 := by
    rw [rd_one]
    exact fun h => hne (UInt8.toNat_inj.mp h)
  have hfalse : isElf (frameVa f) s = .ok false s := by
    unfold isElf
    rw [Act.bind_ok hload₀, Act.bind_ok (hload 1 (by decide)), Act.bind_ok (hload 2 (by decide)),
      Act.bind_ok (hload 3 (by decide)), Act.pure_apply, decide_eq_false fun h => hmag h.1]
  unfold loadImg
  rw [Act.bind_ok hfalse]
  rfl

/-- The first process takes the frame. -/
theorem oneFrame_create : ∃ k, createProc (frameVa 0) oneFrameBooted = .ok 0 k ∧
    k.mm.phead = none ∧ k.procHead = some 1 := by
  obtain ⟨s, hs⟩ : ∃ s, s = oneFrameBooted.mm := ⟨_, rfl⟩
  have hphead : s.phead = some 2 := by rw [hs]; rfl
  have halloc : allocPage 1 s = .ok (some 2) (s.taken 1 2) := allocPage_some hphead (by decide)
  obtain ⟨m, hcopy, hother, -⟩ := memcpy_frame (s := s.taken 1 2) (n := 2) (k := 1) (by decide)
    (by decide) (by decide)
  have hvm : allocVm (frameVa 1) s = .ok (frameVa 2) ((s.taken 1 2).setMem m) := by
    unfold allocVm
    rw [Act.bind_ok halloc]
    dsimp only
    rw [Act.gets_bind_apply, Mm.page2va_some (by decide), Act.bind_ok hcopy]
    rfl
  have hbyte : m (pageSize * 0) ≠ 0x7f := by
    have hzero := hother 0 0 (by decide) (by decide)
    rw [Nat.add_zero] at hzero
    rw [hzero, hs]
    decide
  -- the slot, and the registers a process starts with
  obtain ⟨k₁, hregs, hdir₁, hmm₁, hhead₁⟩ : ∃ k₁, setProc 0 (fun r => { r with pregs := { r.pregs with
      cs := 0x1b, ss := 0x23, eflags := r.pregs.eflags ||| 0x200 } }) (oneFrameBooted.taken 0) =
        .ok () k₁ ∧ k₁.kpgdir = frameVa 1 ∧ k₁.mm = s ∧ k₁.procHead = some 1 :=
    ⟨_, rfl, rfl, hs.symm, rfl⟩
  have hvm₁ : onMm (allocVm (frameVa 1)) k₁ = .ok (frameVa 2)
      (KState.setMm ((s.taken 1 2).setMem m) k₁) := onMm_ok (by rw [hmm₁]; exact hvm)
  obtain ⟨k₂, hset, hmm₂, hhead₂⟩ : ∃ k₂, setProc 0 (fun r => { r with
      pgdir := frameVa 2, fdtable := fun _ => none }) (KState.setMm ((s.taken 1 2).setMem m) k₁) =
        .ok () k₂ ∧ k₂.mm = (s.taken 1 2).setMem m ∧ k₂.procHead = some 1 :=
    ⟨_, rfl, rfl, hhead₁⟩
  -- the tables change, and the image is looked at
  have hcr3 : ∀ c, ∃ k₃, onMm (Act.modify fun s => { s with cr3 := c }) k₂ = .ok () k₃ ∧
      k₃.mm.mem = m ∧ k₃.mm.phead = none ∧ k₃.procHead = some 1 := fun c =>
    ⟨_, rfl, congrArg Mm.mem hmm₂, by
      show k₂.mm.phead = none
      rw [hmm₂, hs]
      rfl, hhead₂⟩
  obtain ⟨k₃, hrun₃, hmem₃, hphead₃, hhead₃⟩ := hcr3 (kva2pa (frameVa 2))
  have hload : onMm (loadImg (frameVa 2) (frameVa 0)) k₃ = .ok none k₃ :=
    onMm_ok (loadImg_none (by decide) (by rw [hmem₃]; exact hbyte))
  obtain ⟨k₄, hlive, hmm₄, hhead₄⟩ : ∃ k₄, setProc 0 (fun r => { r with status := .runnable }) k₃ =
      .ok () k₄ ∧ k₄.mm = k₃.mm ∧ k₄.procHead = some 1 := ⟨_, rfl, rfl, hhead₃⟩
  refine ⟨k₄.running 0, ?_, ?_, (KState.running_procHead k₄ 0).trans hhead₄⟩
  · unfold createProc
    rw [Act.bind_ok (allocProc_some (k := oneFrameBooted) rfl), Act.bind_ok hregs,
      Act.gets_bind_apply, hdir₁, Act.bind_ok hvm₁, Act.bind_ok hset, Act.bind_ok hrun₃,
      Act.bind_ok hload]
    dsimp only
    rw [Act.bind_ok hlive, Act.bind_ok (runProc_ok k₄ 0)]
    rfl
  · rw [KState.running_phead, hmm₄, hphead₃]

/-- The fork of the first process finds no frame, and loses a slot. -/
theorem slot_partition_starved : ¬ ∀ k₀ es k, Booted k₀ → Steps slotStep k₀ es k →
    ∃ l, Partition k l := by
  intro hall
  obtain ⟨k₁, hcreate, hnone, hhead⟩ := oneFrame_create
  obtain ⟨l, hinv, hpart⟩ := oneFrame_booted.inv.1
  obtain ⟨l₁, -, hinv₁, hpart₁⟩ := hinv.create hcreate
  obtain ⟨-, k₂, -, hrunning⟩ := createProc_eq_ok hcreate
  have hcur : k₁.current = some 0 := by
    rw [hrunning]
    exact KState.running_current k₂ 0
  have hfork := sysFork_starved hcur hhead hnone
  have hstep₁ : slotStep oneFrameBooted (.create (frameVa 0)) k₁ := ⟨0, hcreate⟩
  have hstep₂ : slotStep k₁ .fork _ := ⟨-1, hfork⟩
  obtain ⟨l₂, hpart₂⟩ := hall _ _ _ oneFrame_booted (.cons hstep₁ (.cons hstep₂ (.nil _)))
  obtain ⟨q, l', -, hinv', hlost⟩ := hinv₁.fork hfork
  obtain ⟨n, hn, -⟩ := (hlost (hpart₁ hpart)).mp (.unique hinv'.slots hpart₂)
  rw [hnone] at hn
  cases hn

/-- The boot, and the first process. -/
theorem slot_partition_first : ∃ k,
    Steps (fun k e k' => e.Served k ∧ slotStep k e k') oneFrameBooted [.create (frameVa 0)] k ∧
      (∃ l, Partition k l) ∧ ∀ e k', slotStep k e k' → ((∃ l, Partition k' l) ↔ e.Served k) := by
  obtain ⟨k, hcreate, -, -⟩ := oneFrame_create
  have hrun : Steps (fun k e k' => e.Served k ∧ slotStep k e k') oneFrameBooted
      [.create (frameVa 0)] k := .cons ⟨Option.some_ne_none 0, 0, hcreate⟩ (.nil k)
  exact ⟨k, hrun, slot_partition oneFrame_booted hrun⟩

end Myos.Kernel
