import Myos.Lib.Rotation
import Myos.Kernel.Slots

/-!
# The scheduler

`schedule` against the round robin over `procs[0]` to `procs[MAXPROC - 1]`. The
index it starts from is one more than the caller's and is reduced modulo
`MAXPROC` only after it was increased again: from the last slot the first
record looked at is `procs[MAXPROC]`, the next one `procs[1]`, and slot 0 is
passed over.
-/

namespace Myos.Kernel

open Myos.Lib

/-! ## One call -/

/-- Whether a slot has a process that may run. -/
def KState.ready (k : KState) (p : Nat) : Bool := decide ((k.procs p).status = .runnable)

theorem KState.ready_iff {k : KState} {p : Nat} : k.ready p = true ↔ k.Live p := decide_eq_true_iff

/-- The running process is in a slot, and a process has the number of its slot. -/
structure KState.Numbered (k : KState) : Prop where
  current : ∀ {p}, k.current = some p → p < maxProc ∧ (k.procs p).pid = p
  live : ∀ {p}, p < maxProc → k.Live p → (k.procs p).pid = p

/-- What a call of `schedule` should come to: the round robin's turn. -/
def KState.rotated (k : KState) : Res KState (Ctl Unit) :=
  match turn maxProc k.ready k.curind with
  | some p => .ok (.run p) (k.running p)
  | none => .ok .halt { k with current := none }

/-- `schedule` takes the round robin's turn, whatever stands beyond the last slot. -/
def Rotates (k : KState) : Prop :=
  ∀ procs, (∀ p < maxProc, procs p = k.procs p) →
    schedule { k with procs := procs } = KState.rotated { k with procs := procs }

section Call

variable {k : KState} {c i n p : Nat}

theorem KState.Numbered.curind_lt (h : k.Numbered) : k.curind < maxProc := by
  unfold KState.curind
  cases hc : k.current with
  | none => exact Nat.succ_pos 9
  | some p =>
    show (k.procs p).pid < maxProc
    rw [(h.current hc).2]
    exact (h.current hc).1

/-- From the boot on the processes are numbered. -/
theorem SlotInv.numbered {l : List Nat} (h : SlotInv k l) : k.Numbered :=
  ⟨fun hp => ⟨h.live (h.current hp), h.pid (h.current hp)⟩, fun _ hp => h.pid hp⟩

/-- A place further. -/
theorem placeAt_next (hc : c < maxProc) (hi : i + 1 < maxProc) :
    (placeAt maxProc c i + 1) % maxProc = placeAt maxProc c (i + 1) := by
  unfold placeAt maxProc at *
  split <;> split <;> omega

/-- The loop looks at the places from the `i`-th on, up to the caller's. -/
theorem scheduleLoop_turn (hc : c < maxProc) {m : Nat} (him : i + m + 1 = maxProc) (hn : m < n) :
    scheduleLoop c n (placeAt maxProc c i) k =
      .ok (((List.range' i m).map (placeAt maxProc c)).find? k.ready) k := by
  induction m generalizing i n with
  | zero =>
    obtain ⟨n, rfl⟩ : ∃ n', n = n' + 1 := ⟨n - 1, by omega⟩
    have hlast : c = placeAt maxProc c i := by
      unfold placeAt
      split <;> omega
    unfold scheduleLoop
    rw [if_pos hlast]
    rfl
  | succ m ih =>
    obtain ⟨n, rfl⟩ : ∃ n', n = n' + 1 := ⟨n - 1, by omega⟩
    have hmore : c ≠ placeAt maxProc c i := by
      unfold placeAt
      split <;> omega
    unfold scheduleLoop
    rw [if_neg hmore, Act.gets_bind_apply, List.range'_succ, List.map_cons, List.find?_cons]
    by_cases hready : (k.procs (placeAt maxProc c i)).status = .runnable
    · rw [if_pos hready, KState.ready_iff.mpr hready]
      rfl
    · rw [if_neg hready, Bool.eq_false_iff.mpr (mt KState.ready_iff.mp hready),
        placeAt_next hc (by omega), ih (by omega) (by omega)]

/-- The turn is decided by the places up to the caller's, and then by the caller's. -/
theorem turn_split (hc : c < maxProc) : turn maxProc k.ready c =
    (((List.range' 0 9).map (placeAt maxProc c)).find? k.ready).or
      (if k.ready c then some c else none) := by
  have hlast : placeAt maxProc c 9 = c := by
    unfold placeAt maxProc at *
    split <;> omega
  unfold turn Lib.rotation
  rw [show maxProc = 9 + 1 from rfl, List.range_succ, List.map_append, List.find?_append,
    List.range_eq_range']
  show _ = Option.or _ _
  congr 1
  show List.find? k.ready [placeAt maxProc c 9] = _
  rw [hlast, List.find?_singleton]

/-- What `schedule` does with the slot the loop found. -/
theorem schedule_loop {o : Option Nat}
    (hloop : scheduleLoop k.curind (maxProc + 2) (k.curind + 1) k = .ok o k) :
    schedule k = match o.or (if k.ready k.curind then some k.curind else none) with
      | some p => .ok (.run p) (k.running p)
      | none => .ok .halt { k with current := none } := by
  unfold schedule
  rw [Act.gets_bind_apply, Act.bind_ok hloop]
  cases o with
  | some p => rfl
  | none =>
    simp only [Act.gets_bind_apply, Option.none_or]
    by_cases hlive : (k.procs k.curind).status = .runnable
    · rw [if_pos hlive, if_pos (KState.ready_iff.mpr hlive)]
      rfl
    · rw [if_neg hlive, if_neg (mt KState.ready_iff.mp hlive)]
      rfl

/-- ROTATE: from any slot but the last, `schedule` takes the round robin's turn. -/
theorem schedule_rotated (hnum : k.Numbered) (hlast : k.curind + 1 ≠ maxProc) :
    schedule k = k.rotated := by
  have hc := hnum.curind_lt
  have hfirst : placeAt maxProc k.curind 0 = k.curind + 1 := by
    unfold placeAt maxProc at *
    split <;> omega
  have hloop := scheduleLoop_turn (k := k) (i := 0) (m := 9) hc rfl (by decide : 9 < maxProc + 2)
  rw [hfirst] at hloop
  rw [schedule_loop hloop, KState.rotated, turn_split hc]

/-- LAST SLOT: the record beyond the last is looked at first, and slot 0 never. -/
theorem schedule_last (hlast : k.curind + 1 = maxProc) : schedule k =
    match ((maxProc :: (List.range' 1 8).map (placeAt maxProc 9)).find? k.ready).or
        (if k.ready 9 then some 9 else none) with
      | some p => .ok (.run p) (k.running p)
      | none => .ok .halt { k with current := none } := by
  have hc : k.curind = 9 := Nat.succ.inj hlast
  have hloop : scheduleLoop k.curind (maxProc + 2) (k.curind + 1) k =
      .ok ((maxProc :: (List.range' 1 8).map (placeAt maxProc 9)).find? k.ready) k := by
    rw [hlast, hc]
    unfold scheduleLoop
    rw [if_neg (by decide), Act.gets_bind_apply, List.find?_cons]
    by_cases hready : (k.procs maxProc).status = .runnable
    · rw [if_pos hready, KState.ready_iff.mpr hready]
      rfl
    · rw [if_neg hready, Bool.eq_false_iff.mpr (mt KState.ready_iff.mp hready)]
      exact scheduleLoop_turn (c := 9) (i := 1) (m := 8) (by decide) rfl (by decide)
  rw [schedule_loop hloop, hc]

/-- The call takes the turn whatever stands beyond the last slot exactly if
it is not made from there. -/
theorem rotates_iff (hnum : k.Numbered) : Rotates k ↔ k.curind + 1 ≠ maxProc := by
  have hother : ∀ {procs}, (∀ p < maxProc, procs p = k.procs p) →
      KState.curind { k with procs := procs } = k.curind ∧
        KState.Numbered { k with procs := procs } := by
    intro procs hprocs
    refine ⟨?_, fun {p} hp => ⟨(hnum.current hp).1, ?_⟩, fun {p} hp hlive => ?_⟩
    · unfold KState.curind
      dsimp only
      cases hc : k.current with
      | none => rfl
      | some p => exact congrArg Proc.pid (hprocs p (hnum.current hc).1)
    · show (procs p).pid = p
      rw [hprocs p (hnum.current hp).1]
      exact (hnum.current hp).2
    · show (procs p).pid = p
      rw [hprocs p hp]
      refine hnum.live hp ?_
      rw [KState.Live, ← hprocs p hp]
      exact hlive
  constructor
  · intro h hlast
    -- a live record right after the last slot
    obtain ⟨procs, hprocs, hbeyond⟩ : ∃ procs : Nat → Proc, (∀ p < maxProc, procs p = k.procs p) ∧
        (procs maxProc).status = .runnable :=
      ⟨Function.update k.procs maxProc { status := .runnable },
        fun p hp => Function.update_of_ne (Nat.ne_of_lt hp) _ _, by rw [Function.update_self]⟩
    obtain ⟨hind, hnum'⟩ := hother hprocs
    have hrun := h procs hprocs
    have hready : KState.ready { k with procs := procs } maxProc = true :=
      KState.ready_iff.mpr hbeyond
    rw [schedule_last (hind.symm ▸ hlast), List.find?_cons, hready] at hrun
    unfold KState.rotated at hrun
    cases hturn : turn maxProc (KState.ready { k with procs := procs })
        (KState.curind { k with procs := procs }) with
    | none =>
      rw [hturn] at hrun
      cases hrun
    | some p =>
      rw [hturn] at hrun
      have hp := ((turn_eq_some hnum'.curind_lt).mp hturn).1
      injection hrun with hctl
      injection hctl with hp'
      omega
  · intro hlast procs hprocs
    obtain ⟨hind, hnum'⟩ := hother hprocs
    exact schedule_rotated hnum' (hind.symm ▸ hlast)

end Call

/-! ## Call after call -/

/-- A call of `schedule`, and what comes between two calls. -/
inductive TurnEvent where
  | call (c : Ctl Unit)
  | change

/-- Between two calls processes are made, end and stop; the running one stays,
or ends. -/
def turnStep (k : KState) : TurnEvent → KState → Prop
  | .call c, k' => schedule k = .ok c k'
  | .change, k' => (k'.current = k.current ∨ k'.current = none) ∧ k'.Numbered

/-- A call is made while a process runs, and not that of the last slot. -/
def TurnEvent.Turns (k : KState) : TurnEvent → Prop
  | .call _ => k.current ≠ none ∧ k.curind + 1 ≠ maxProc
  | .change => True

/-- An event of a run in which `p` may run all the time. -/
def waitingStep (p : Nat) (k : KState) (e : TurnEvent) (k' : KState) : Prop :=
  k.Live p ∧ e.Turns k ∧ turnStep k e k'

/-- Since `q` ran, the turn has not moved away from `p`. -/
structure Nearing (p q : Nat) (k : KState) : Prop extends KState.Numbered k where
  near : ∀ {c}, k.current = some c → ahead maxProc c p ≤ ahead maxProc q p

section Runs

variable {k k' : KState} {p q r : Nat}

theorem KState.curind_of_current (hnum : k.Numbered) {c : Nat} (hc : k.current = some c) :
    k.curind = c := by
  unfold KState.curind
  rw [hc]
  exact (hnum.current hc).2

/-- CALL: a slot with a process gets the turn, the first one from the caller's on. -/
theorem schedule_turn (hnum : k.Numbered) {c : Nat} (hc : k.current = some c)
    (hlast : k.curind + 1 ≠ maxProc) (hrun : schedule k = .ok (.run r) k') :
    turn maxProc k.ready c = some r ∧ k'.Numbered ∧ k'.current = some r := by
  rw [schedule_rotated hnum hlast, KState.rotated, KState.curind_of_current hnum hc] at hrun
  cases hturn : turn maxProc k.ready c with
  | none =>
    rw [hturn] at hrun
    cases hrun
  | some r' =>
    rw [hturn] at hrun
    cases hrun
    obtain ⟨hr, hready, -⟩ := (turn_eq_some (hnum.current hc).1).mp hturn
    have hprocs := KState.running_procs k r
    have hcurrent := KState.running_current k r
    refine ⟨rfl, ⟨fun {p} hp => ?_, fun {p} hp hlive => ?_⟩, hcurrent⟩
    · cases hcurrent.symm.trans hp
      rw [hprocs]
      exact ⟨hr, hnum.live hr (KState.ready_iff.mp hready)⟩
    · rw [hprocs]
      rw [KState.Live, hprocs] at hlive
      exact hnum.live hp hlive

/-- STEP: another process gets the turn, and it comes nearer to `p`. -/
theorem Nearing.step (h : Nearing p q k) (hp : p < maxProc) {e : TurnEvent}
    (hstep : waitingStep p k e k') (hne : e ≠ .call (.run p)) : Nearing p q k' := by
  obtain ⟨hlive, hturns, hstep⟩ := hstep
  cases e with
  | change =>
    obtain ⟨hcur, hnum⟩ := hstep
    refine ⟨hnum, fun {c} hc => ?_⟩
    rcases hcur with hcur | hcur
    · exact h.near (hcur.symm.trans hc)
    · cases hcur.symm.trans hc
  | call ctl =>
    obtain ⟨hsome, hlast⟩ := hturns
    obtain ⟨c, hc⟩ := Option.ne_none_iff_exists'.mp hsome
    cases ctl with
    | ret u =>
      rw [turnStep, schedule_rotated h.toNumbered hlast, KState.rotated] at hstep
      split at hstep <;> cases hstep
    | halt =>
      -- a process that may run keeps the processor from halting
      rw [turnStep, schedule_rotated h.toNumbered hlast, KState.rotated] at hstep
      split at hstep
      · cases hstep
      · next hnone =>
        have hdead := (turn_eq_none h.curind_lt).mp hnone p hp
        rw [KState.ready_iff.mpr hlive] at hdead
        cases hdead
    | run r =>
      obtain ⟨hturn, hnum, hcur⟩ := schedule_turn h.toNumbered hc hlast hstep
      refine ⟨hnum, fun {c'} hc' => ?_⟩
      cases hcur.symm.trans hc'
      have hrp : r ≠ p := fun hrp => hne (by rw [hrp])
      have hnear := turn_nearer (h.current hc).1 hp (KState.ready_iff.mpr hlive) hturn hrp
      exact hnear.le.trans (h.near hc)

/-- RUN: as long as `p` does not get its turn. -/
theorem Nearing.run (h : Nearing p q k) (hp : p < maxProc) {es : List TurnEvent}
    (hrun : Steps (waitingStep p) k es k') (hne : TurnEvent.call (.run p) ∉ es) :
    Nearing p q k' := by
  induction hrun with
  | nil s => exact h
  | @cons s t u e es hstep hrest ih =>
    have hfirst : e ≠ .call (.run p) := fun he => hne (he ▸ List.mem_cons_self)
    exact ih (h.step hp hstep hfirst) fun hin => hne (List.mem_cons_of_mem e hin)

/-- SCHEDULE: a call takes the round robin's turn exactly if it is not made
from the last slot. In a run of calls that are not, and are made while a
process runs, none that may run waits while another one runs twice. -/
theorem schedule_rotation {es : List TurnEvent} (hnum : k.Numbered) :
    (Rotates k ↔ k.curind + 1 ≠ maxProc) ∧
      (p < maxProc → p ≠ q → Steps (waitingStep p) k
        (.call (.run q) :: es ++ [.call (.run q)]) k' → TurnEvent.call (.run p) ∈ es) := by
  refine ⟨rotates_iff hnum, fun hp hpq hrun => ?_⟩
  obtain ⟨t, hbefore, hafter⟩ := hrun.of_append
  obtain ⟨k₁, ⟨-, ⟨hsome, hlast⟩, hcall⟩, hwait⟩ := Steps.of_cons hbefore
  obtain ⟨k₂, ⟨hlive', ⟨hsome', hlast'⟩, hcall'⟩, -⟩ := Steps.of_cons hafter
  obtain ⟨c, hc⟩ := Option.ne_none_iff_exists'.mp hsome
  obtain ⟨c', hc'⟩ := Option.ne_none_iff_exists'.mp hsome'
  obtain ⟨-, hnum₁, hcur₁⟩ := schedule_turn hnum hc hlast hcall
  by_contra hne
  have hstart : Nearing p q k₁ := ⟨hnum₁, fun {c} hc => by
    cases hcur₁.symm.trans hc
    exact Nat.le_refl _⟩
  have hend := hstart.run hp hwait hne
  obtain ⟨hturn, -, -⟩ := schedule_turn hend.toNumbered hc' hlast' hcall'
  have hnear := turn_nearer (hend.current hc').1 hp (KState.ready_iff.mpr hlive') hturn hpq.symm
  exact absurd (hend.near hc') (Nat.not_le.mpr hnear)

end Runs

/-! ## Two processes -/

/-- Processes in the slots `a` and `b`, of which `a` runs. -/
def twoProcs (a b : Nat) : KState :=
  { KState.zero with
    procs := fun p => if p = a ∨ p = b then { pid := p, status := .runnable } else {}
    current := some a }

theorem twoProcs_numbered {a b : Nat} (ha : a < maxProc) : (twoProcs a b).Numbered := by
  refine ⟨fun {p} hp => ?_, fun {p} _ hlive => ?_⟩
  · cases hp
    refine ⟨ha, ?_⟩
    unfold twoProcs
    dsimp only
    rw [if_pos (.inl rfl)]
  · unfold KState.Live twoProcs at *
    dsimp only at *
    by_cases hp : p = a ∨ p = b
    · rw [if_pos hp]
    · rw [if_neg hp] at hlive
      cases hlive

/-- One runs after the other. -/
theorem schedule_rotation_two : ∃ k', (Rotates (twoProcs 0 1) ↔ (twoProcs 0 1).curind + 1 ≠ maxProc) ∧
    Steps (waitingStep 0) (twoProcs 0 1)
      (.call (.run 1) :: [.call (.run 0)] ++ [.call (.run 1)]) k' ∧
      TurnEvent.call (.run 0) ∈ [TurnEvent.call (.run 0)] := by
  have hnum : (twoProcs 0 1).Numbered := twoProcs_numbered (by decide)
  have hcall : ∀ {k : KState} {c : Nat}, k.procs = (twoProcs 0 1).procs → k.current = some c →
      (c = 0 ∨ c = 1) → waitingStep 0 k (.call (.run (1 - c))) (k.running (1 - c)) := by
    intro k c hprocs hc hcase
    have hcur : k.curind = c := by
      unfold KState.curind
      rw [hc, hprocs]
      rcases hcase with rfl | rfl <;> rfl
    have hready : k.ready = (twoProcs 0 1).ready := by
      unfold KState.ready
      rw [hprocs]
    have hnum : k.Numbered := by
      refine ⟨fun {p} hp => ?_, fun {p} hp hlive => ?_⟩
      · cases hc.symm.trans hp
        rw [hprocs]
        rcases hcase with rfl | rfl <;> exact ⟨by decide, rfl⟩
      · rw [KState.Live, hprocs] at hlive
        rw [hprocs]
        exact hnum.live hp hlive
    have hlast : k.curind + 1 ≠ maxProc := by
      rw [hcur]
      rcases hcase with rfl | rfl <;> decide
    have hturn : turn maxProc (twoProcs 0 1).ready c = some (1 - c) := by
      rcases hcase with rfl | rfl <;> decide
    refine ⟨?_, ⟨by rw [hc]; exact Option.some_ne_none c, hlast⟩, ?_⟩
    · rw [KState.Live, hprocs]
      rfl
    · rw [turnStep, schedule_rotated hnum hlast, KState.rotated, hready, hcur, hturn]
  have hprocs := KState.running_procs
  have h₁ := hcall (k := twoProcs 0 1) rfl rfl (.inl rfl)
  have h₂ := hcall (hprocs _ 1) (KState.running_current _ 1) (.inr rfl)
  have h₃ := hcall ((hprocs _ 0).trans (hprocs _ 1)) (KState.running_current _ 0) (.inl rfl)
  have hrun : Steps (waitingStep 0) (twoProcs 0 1)
      (.call (.run 1) :: [.call (.run 0)] ++ [.call (.run 1)]) _ :=
    .cons h₁ (.cons h₂ (.cons h₃ (.nil _)))
  obtain ⟨hrot, hfair⟩ := @schedule_rotation _ _ 0 1 [.call (.run 0)] hnum
  exact ⟨_, hrot, hrun, hfair (by decide) (by decide) hrun⟩

/-- The process of the last slot passes the one of the first over. -/
theorem schedule_passes_over : ¬ ∀ k : KState, k.Numbered → schedule k = k.rotated := by
  intro hall
  have hrun := hall (twoProcs 9 0) (twoProcs_numbered (by decide))
  have hturn : turn maxProc (twoProcs 9 0).ready (twoProcs 9 0).curind = some 0 := by decide
  have hloop : ((maxProc :: (List.range' 1 8).map (placeAt maxProc 9)).find? (twoProcs 9 0).ready).or
      (if (twoProcs 9 0).ready 9 then some 9 else none) = some 9 := by decide
  rw [schedule_last rfl, hloop, KState.rotated, hturn] at hrun
  injection hrun with hctl
  cases hctl

end Myos.Kernel
