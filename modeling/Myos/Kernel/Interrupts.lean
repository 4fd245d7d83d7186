import Myos.Kernel.Pic
import Myos.Kernel.Entry

/-!
# Interrupts

The controllers over whole runs. The kernel sets them up once and never tells them that an
interrupt was dealt with. Whatever they were at before, after `init_pic` they are a router
of fifteen lines with a mask that `set_imr` and `clear_imr` change line by line, in every
order of calls, requests and interrupts (`pic_refines`); and in the runs that the kernel
has, only the timer and the keyboard come, through gates that are there, and none of their
requests waits for anything but the processor (`kernel_interrupts`).
-/

namespace Myos.Kernel.Pic

open Myos.Lib Pair

/-! ## Accesses of the code

Requests come and go while the code is at work, and it makes no difference whether one does
before an access or after it: the pair at the end of a call is what the call makes of the
pair that all that was to come has come to. Only the first initialisation word forgets what
came before.
-/

section Accesses

variable {b : Bus} {p q p' q' : Pair} {port : Nat} {v : BitVec 8}

theorem settle_arrive (b : Bus) : b.arrive.settle = b.settle := by
  obtain ⟨p, later⟩ := b
  cases later with
  | nil => rfl
  | cons s later => rfl

/-- What requests leave alone. -/
theorem foldl_signal_keeps {α : Type*} {f : Pair → α} (hf : ∀ p s, f (p.signal s) = f p)
    (come : List Signals) (p : Pair) : f (come.foldl Pair.signal p) = f p := by
  induction come generalizing p with
  | nil => rfl
  | cons s come ih => rw [List.foldl_cons, ih, hf]

theorem settle_keeps {α : Type*} {f : Pair → α} (hf : ∀ p s, f (p.signal s) = f p) (b : Bus) :
    f b.settle = f b.pair :=
  foldl_signal_keeps hf b.later b.pair

theorem Chip.command_signal (c : Chip) (hv : v.getLsbD 4 = false) (r w : BitVec 8) :
    (c.signal r w).command v = (c.command v).map fun c => c.signal r w := by
  unfold command
  rw [hv, if_neg Bool.false_ne_true, if_neg Bool.false_ne_true]
  split_ifs <;> rfl

theorem Chip.data_signal (c : Chip) (r w : BitVec 8) :
    (c.signal r w).data v = (c.data v).signal r w := by
  obtain ⟨expects, _⟩ := c
  cases expects with
  | nil => rfl
  | cons e rest => cases e <;> rfl

/-- Not the first initialisation word. -/
def Ordinary (port : Nat) (v : BitVec 8) : Prop :=
  port = masterPicCmd ∨ port = slavePicCmd → v.getLsbD 4 = false

theorem ordinary_masterData (v : BitVec 8) : Ordinary masterPicData v := by
  rintro (h | h) <;> exact absurd h (by decide)

theorem ordinary_slaveData (v : BitVec 8) : Ordinary slavePicData v := by
  rintro (h | h) <;> exact absurd h (by decide)

theorem ordinary_eoi : Ordinary port 0x20 := fun _ => rfl

theorem Pair.write_signal (hv : Ordinary port v) (p : Pair) (s : Signals) :
    (p.signal s).write port v = (p.write port v).map fun p => p.signal s := by
  unfold write
  split_ifs with hmc hmd hsc hsd
  · show ((p.master.signal _ _).command v).map _ = _
    rw [Chip.command_signal _ (hv (.inl hmc)), Option.map_map, Option.map_map]
    rfl
  · show some (Pair.mk ((p.master.signal _ _).data v) _) = _
    rw [Chip.data_signal]
    rfl
  · show ((p.slave.signal _ _).command v).map _ = _
    rw [Chip.command_signal _ (hv (.inr hsc)), Option.map_map, Option.map_map]
    rfl
  · show some (Pair.mk _ ((p.slave.signal _ _).data v)) = _
    rw [Chip.data_signal]
    rfl
  · rfl

theorem write_settle (hv : Ordinary port v) (come : List Signals) (p : Pair) :
    (come.foldl Pair.signal p).write port v =
      (p.write port v).map fun p => come.foldl Pair.signal p := by
  induction come generalizing p with
  | nil => simp
  | cons s come ih =>
    rw [List.foldl_cons, ih, Pair.write_signal hv, Option.map_map]
    rfl

/-- `outb`, but for the first initialisation word. -/
theorem outb_settles (hv : Ordinary port v) (h : b.settle.write port v = some p') :
    ∃ b', outb port v b = .ok () b' ∧ b'.settle = p' := by
  rw [← settle_arrive, Bus.settle, write_settle hv] at h
  obtain ⟨q, hq, hcome⟩ := Option.map_eq_some_iff.mp h
  refine ⟨{ b.arrive with pair := q }, ?_, hcome⟩
  unfold outb
  rw [hq]

theorem inb_master (b : Bus) : inb masterPicData b = .ok b.settle.master.imr b.arrive := by
  have himr := settle_keeps (f := fun p => p.master.imr) (fun _ _ => rfl) b.arrive
  rw [settle_arrive] at himr
  unfold inb
  rw [if_pos rfl, himr]

theorem inb_slave (b : Bus) : inb slavePicData b = .ok b.settle.slave.imr b.arrive := by
  have himr := settle_keeps (f := fun p => p.slave.imr) (fun _ _ => rfl) b.arrive
  rw [settle_arrive] at himr
  unfold inb
  rw [if_neg (by decide), if_pos rfl, himr]

/-! ## The calls -/

theorem Called.eq {x : Act Bus Unit} {come : List Signals} (hcall : Called x come p p')
    (hrun : x ⟨p, come⟩ = .ok () b) : p' = b.settle := by
  obtain ⟨b', hb, rfl⟩ := hcall
  rw [hrun] at hb
  injection hb with _ hb
  exact congrArg Bus.settle hb.symm

/-- The pair with other masks. -/
def Pair.masked (p : Pair) (high low : BitVec 8) : Pair :=
  ⟨{ p.master with imr := low }, { p.slave with imr := high }⟩

theorem Pair.Ready.masked (h : p.Ready) (high low : BitVec 8) : (p.masked high low).Ready where
  master := ⟨h.master.expects, h.master.base, h.master.cascade, h.master.auto, h.master.special⟩
  slave := ⟨h.slave.expects, h.slave.base, h.slave.cascade, h.slave.auto, h.slave.special⟩
  idle := h.idle

theorem Chip.IsUp.data {c : Chip} {base cascade : BitVec 8} {auto : Bool}
    (h : c.IsUp base cascade auto) : c.data v = { c with imr := v } := by
  unfold Chip.data
  rw [h.expects]

section Change

variable {change : BitVec 8 → BitVec 32 → BitVec 8} {f : Bool → Bool → Bool} {irq : Nat}

/-- What `clear_imr` and `set_imr` do: the mask of one line becomes what `f` makes of it. -/
theorem changeImr_settles (change : BitVec 8 → BitVec 32 → BitVec 8)
    (hchange : ∀ imr n i, n < 32 → i < 8 →
      (change imr (1#32 <<< n)).getLsbD i = f (imr.getLsbD i) (decide (i = n)))
    (hop : ∀ x, f x false = x) (h : b.settle.Ready) (hirq : irq < 40) :
    ∃ b' high low, changeImr change irq b = .ok () b' ∧ b'.settle = b.settle.masked high low ∧
      ∀ i < 16, (high ++ low).getLsbD i =
        f ((b.settle.both Chip.imr).getLsbD i) (decide (i = irq)) := by
  have hsettle : b.arrive.arrive.settle = b.settle := by rw [settle_arrive, settle_arrive]
  unfold changeImr
  rw [Act.bind_ok (inb_master b), Act.bind_ok (inb_slave b.arrive), settle_arrive]
  by_cases h8 : irq < 8
  · rw [if_pos h8, shl, if_pos (by omega), Act.bind_ok (Act.pure_apply _ _)]
    obtain ⟨b', hrun, hb'⟩ := outb_settles (ordinary_masterData (change b.settle.master.imr
      (1#32 <<< irq))) (rfl : b.arrive.arrive.settle.write masterPicData _ = some _)
    refine ⟨b', b.settle.slave.imr, change b.settle.master.imr (1#32 <<< irq), hrun, ?_,
      fun i hi => ?_⟩
    · rw [hb', hsettle, h.master.data]
      rfl
    · rw [Pair.both, BitVec.getLsbD_append, BitVec.getLsbD_append]
      by_cases hi8 : i < 8
      · rw [if_pos hi8, if_pos hi8, hchange _ _ _ (by omega) hi8]
      · rw [if_neg hi8, if_neg hi8, decide_eq_false (by omega), hop]
  · rw [if_neg h8, shl, if_pos (by omega), Act.bind_ok (Act.pure_apply _ _)]
    obtain ⟨b', hrun, hb'⟩ := outb_settles (ordinary_slaveData (change b.settle.slave.imr
      (1#32 <<< (irq - 8)))) (rfl : b.arrive.arrive.settle.write slavePicData _ = some _)
    refine ⟨b', change b.settle.slave.imr (1#32 <<< (irq - 8)), b.settle.master.imr, hrun, ?_,
      fun i hi => ?_⟩
    · rw [hb', hsettle, h.slave.data]
      rfl
    · rw [Pair.both, BitVec.getLsbD_append, BitVec.getLsbD_append]
      by_cases hi8 : i < 8
      · rw [if_pos hi8, if_pos hi8, decide_eq_false (by omega), hop]
      · rw [if_neg hi8, if_neg hi8, hchange _ _ _ (by omega) (by omega)]
        exact congrArg _ (decide_eq_decide.mpr (by omega))

/-- There is no shift by as much. -/
theorem lt_of_called {come : List Signals} (hcall : Called (changeImr change irq) come p p') :
    irq < 40 := by
  by_contra hirq
  obtain ⟨b, hb, -⟩ := hcall
  unfold changeImr at hb
  rw [Act.bind_ok (inb_master _), Act.bind_ok (inb_slave _), if_neg (by omega), shl,
    if_neg (by omega), Act.bind_fault (Act.stop_apply _)] at hb
  injection hb

end Change

theorem clear_getLsbD (imr : BitVec 8) (n i : Nat) (hn : n < 32) (hi : i < 8) :
    (imr &&& (~~~(1#32 <<< n)).setWidth 8).getLsbD i = (imr.getLsbD i && !decide (i = n)) := by
  rw [BitVec.getLsbD_and, BitVec.getLsbD_setWidth, BitVec.getLsbD_not, Pair.getLsbD_bit hn,
    decide_eq_true hi, decide_eq_true (by omega : i < 32), Bool.true_and, Bool.true_and]

theorem set_getLsbD (imr : BitVec 8) (n i : Nat) (hn : n < 32) (hi : i < 8) :
    (imr ||| (1#32 <<< n).setWidth 8).getLsbD i = (imr.getLsbD i || decide (i = n)) := by
  rw [BitVec.getLsbD_or, BitVec.getLsbD_setWidth, Pair.getLsbD_bit hn, decide_eq_true hi,
    Bool.true_and]

theorem foldl_signal_ready (h : p.Ready) (come : List Signals) :
    (come.foldl Pair.signal p).Ready := by
  induction come generalizing p with
  | nil => exact h
  | cons s come ih => exact ih (h.signal s)

theorem foldl_signal_router (p : Pair) (come : List Signals) :
    (come.foldl Pair.signal p).router = come.foldl Router.signal p.router := by
  induction come generalizing p with
  | nil => rfl
  | cons s come ih => rw [List.foldl_cons, List.foldl_cons, ih, Pair.signal_router]

/-- What a pair with other masks has enabled. -/
theorem masked_enabled {high low : BitVec 8} {f : Bool → Bool → Bool} {irq : Nat}
    (hbits : ∀ i < 16, (high ++ low).getLsbD i =
      f ((p.both Chip.imr).getLsbD i) (decide (i = irq))) (i : Nat) :
    i ∈ (p.masked high low).router.enabled ↔
      i < 16 ∧ f ((p.both Chip.imr).getLsbD i) (decide (i = irq)) = false := by
  show i < 16 ∧ (high ++ low).getLsbD i = false ↔ _
  exact and_congr_right fun hi => by rw [hbits i hi]

theorem clearImr_settles {irq : Nat} (h : b.settle.Ready) (hirq : irq < 40) :
    ∃ b', clearImr irq b = .ok () b' ∧ b'.settle.Ready ∧
      b'.settle.router = b.settle.router.enable irq := by
  obtain ⟨b', high, low, hrun, hb', hbits⟩ :=
    changeImr_settles (f := fun x hit => x && !hit)
      (fun imr mask => imr &&& (~~~mask).setWidth 8) clear_getLsbD Bool.and_true h hirq
  refine ⟨b', hrun, hb' ▸ h.masked high low, ?_⟩
  rw [hb']
  ext i
  · refine (masked_enabled (f := fun x hit => x && !hit) hbits i).trans ?_
    show _ ↔ (i < 16 ∧ _) ∨ (i = irq ∧ i < 16)
    simp only [Bool.and_eq_false_iff, Bool.not_eq_false', decide_eq_true_eq]
    tauto
  · rfl
  · rfl

theorem setImr_settles {irq : Nat} (h : b.settle.Ready) (hirq : irq < 40) :
    ∃ b', setImr irq b = .ok () b' ∧ b'.settle.Ready ∧
      b'.settle.router = b.settle.router.disable irq := by
  obtain ⟨b', high, low, hrun, hb', hbits⟩ :=
    changeImr_settles (f := fun x hit => x || hit)
      (fun imr mask => imr ||| mask.setWidth 8) set_getLsbD Bool.or_false h hirq
  refine ⟨b', hrun, hb' ▸ h.masked high low, ?_⟩
  rw [hb']
  ext i
  · refine (masked_enabled (f := fun x hit => x || hit) hbits i).trans ?_
    show _ ↔ (i < 16 ∧ _) ∧ i ≠ irq
    simp only [Bool.or_eq_false_iff, decide_eq_false_iff_not]
    tauto
  · rfl
  · rfl

/-- A chip that was told of the end of an interrupt. -/
def Chip.ended (c : Chip) : Chip :=
  { c with isr := (first c.holding).elim c.isr fun i => c.isr &&& ~~~(1#8 <<< i) }

/-- The master has none to end. -/
theorem Pair.Ready.master_ended (h : p.Ready) : p.master.ended = p.master := by
  have hnone : first p.master.holding = none := by
    unfold Chip.holding
    rw [if_pos h.master.special, h.idle]
    exact congrArg first BitVec.zero_and
  unfold Chip.ended
  rw [hnone]
  rfl

/-- The line whose interrupt the slave ends. -/
theorem Pair.Ready.least_serving (h : p.Ready) (i : Nat) :
    IsLeast (p.router.serving ∩ p.router.enabled) (i + 8) ↔ first p.slave.holding = some i := by
  rw [first_eq_some]
  constructor
  · rintro ⟨hi, hleast⟩
    refine ⟨(h.holding_iff i).mpr hi, fun j hj => ?_⟩
    exact Nat.le_of_add_le_add_right (hleast ((h.holding_iff j).mp hj))
  · rintro ⟨hi, hleast⟩
    refine ⟨(h.holding_iff i).mp hi, fun j hj => ?_⟩
    obtain ⟨n, rfl⟩ := h.exists_serving hj.1
    exact Nat.add_le_add_right (hleast ((h.holding_iff n).mpr hj)) 8

theorem Pair.Ready.slave_ended (h : p.Ready) :
    Pair.Ready ⟨p.master, p.slave.ended⟩ ∧
      (Pair.mk p.master p.slave.ended).router = { p.router with
        serving := p.router.serving \ {i | IsLeast (p.router.serving ∩ p.router.enabled) i} } := by
  refine ⟨⟨h.master, ⟨h.slave.expects, h.slave.base, h.slave.cascade, h.slave.auto,
    h.slave.special⟩, h.idle⟩, ?_⟩
  ext i
  · rfl
  · rfl
  · show _ ↔ i ∈ p.router.serving ∧ ¬ IsLeast (p.router.serving ∩ p.router.enabled) i
    by_cases hi : i < 8
    · have hno : ∀ q : Pair, q.Ready → i ∉ q.router.serving := by
        intro q hq hmem
        obtain ⟨n, rfl⟩ := hq.exists_serving hmem
        omega
      rw [Pair.mem_serving, if_pos hi]
      refine ⟨fun hbit => ?_, fun hmem => absurd hmem.1 (hno p h)⟩
      rw [show p.master.isr = 0 from h.idle] at hbit
      simp at hbit
    · obtain ⟨n, rfl⟩ := Nat.exists_eq_add_of_le' (Nat.not_lt.mp hi)
      rw [h.least_serving n, Pair.mem_serving, Pair.mem_serving, if_neg hi, if_neg hi,
        Nat.add_sub_cancel]
      show p.slave.ended.isr.getLsbD n = true ↔ _
      unfold Chip.ended
      cases hfirst : first p.slave.holding with
      | none => simp
      | some k =>
        have hk : k < 8 := BitVec.lt_of_getLsbD (first_eq_some.mp hfirst).1
        refine (Pair.getLsbD_clear hk n).trans (and_congr_right fun _ => ?_)
        rw [Option.some.injEq, ne_comm]

theorem write_master_eoi (p : Pair) :
    p.write masterPicCmd 0x20 = some ⟨p.master.ended, p.slave⟩ := rfl

theorem write_slave_eoi (p : Pair) :
    p.write slavePicCmd 0x20 = some ⟨p.master, p.slave.ended⟩ := rfl

theorem sendEoi_settles (irq : Nat) (h : b.settle.Ready) :
    ∃ b', sendEoi irq b = .ok () b' ∧ b'.settle.Ready ∧
      b'.settle.router = b.settle.router.finish irq := by
  unfold sendEoi Router.finish
  by_cases h8 : 8 ≤ irq
  · rw [if_pos h8, if_pos h8]
    obtain ⟨hready, hrouter⟩ := h.slave_ended
    obtain ⟨b₁, hslave, hb₁⟩ := outb_settles (b := b) ordinary_eoi (write_slave_eoi _)
    obtain ⟨b₂, hmaster, hb₂⟩ := outb_settles (b := b₁) ordinary_eoi (write_master_eoi _)
    have hend : b₂.settle = ⟨b.settle.master, b.settle.slave.ended⟩ := by
      rw [hb₂, hb₁]
      exact congrArg (fun c => Pair.mk c _) hready.master_ended
    rw [Act.bind_ok hslave]
    exact ⟨b₂, hmaster, hend ▸ hready, hend ▸ hrouter⟩
  · rw [if_neg h8, if_neg h8]
    obtain ⟨b₁, hmaster, hb₁⟩ := outb_settles (b := b) ordinary_eoi (write_master_eoi _)
    rw [h.master_ended] at hb₁
    exact ⟨b₁, hmaster, hb₁ ▸ h, by rw [hb₁]⟩

end Accesses

/-! ## The runs -/

/-- A call of which this much is known. -/
theorem Called.router {x : Act Bus Unit} {come : List Signals} {p p' : Pair} {g : Router → Router}
    (hx : ∃ b, x ⟨p, come⟩ = .ok () b ∧ b.settle.Ready ∧
      b.settle.router = g (Bus.settle ⟨p, come⟩).router)
    (hcall : Called x come p p') :
    p'.Ready ∧ p'.router = g (come.foldl Router.signal p.router) := by
  obtain ⟨b, hrun, hready, hrouter⟩ := hx
  rw [hcall.eq hrun, ← foldl_signal_router]
  exact ⟨hready, hrouter⟩

/-- A step of the pair is the step of the router. -/
theorem Pair.Ready.step {p p' : Pair} {e : Event} (h : p.Ready) (hstep : p.Step e p') :
    p'.Ready ∧ p.router.Step e p'.router := by
  cases hstep with
  | signals s =>
    rw [signal_router]
    exact ⟨h.signal s, .signals _ s⟩
  | @setImr _ irq come hcall =>
    obtain ⟨hready, hrouter⟩ := hcall.router (g := fun r => r.disable irq)
      (setImr_settles (b := ⟨p, come⟩) (foldl_signal_ready h come) (lt_of_called hcall))
    rw [hrouter]
    exact ⟨hready, .setImr _ _ _⟩
  | @clearImr _ irq come hcall =>
    obtain ⟨hready, hrouter⟩ := hcall.router (g := fun r => r.enable irq)
      (clearImr_settles (b := ⟨p, come⟩) (foldl_signal_ready h come) (lt_of_called hcall))
    rw [hrouter]
    exact ⟨hready, .clearImr _ _ _⟩
  | @sendEoi _ irq come hcall =>
    obtain ⟨hready, hrouter⟩ := hcall.router (g := fun r => r.finish irq)
      (sendEoi_settles (b := ⟨p, come⟩) irq (foldl_signal_ready h come))
    rw [hrouter]
    exact ⟨hready, .sendEoi _ _ _⟩
  | deliver hack =>
    obtain ⟨i, hnext, rfl, rfl⟩ := h.acknowledge_eq_some.mp hack
    rw [h.taken_router (open_lt hnext.1).1]
    exact ⟨h.taken i, .deliver hnext⟩

/-- A line that `clear_imr` and `set_imr` can shift to. -/
def Event.Fits : Event → Prop
  | .setImr irq _ => irq < 40
  | .clearImr irq _ => irq < 40
  | _ => True

/-- SIMULATION: a pair that is set up and its router have the same steps. -/
theorem Pair.Ready.step_iff {p : Pair} {e : Event} {r : Router} (h : p.Ready) (he : e.Fits) :
    p.router.Step e r ↔ ∃ p', p.Step e p' ∧ p'.router = r := by
  constructor
  · intro hstep
    cases hstep with
    | signals s => exact ⟨p.signal s, .signals p s, signal_router p s⟩
    | setImr irq come =>
      obtain ⟨b, hrun, -, hrouter⟩ :=
        setImr_settles (b := ⟨p, come⟩) (foldl_signal_ready h come) he
      exact ⟨b.settle, .setImr ⟨b, hrun, rfl⟩, by rw [hrouter, ← foldl_signal_router]; rfl⟩
    | clearImr irq come =>
      obtain ⟨b, hrun, -, hrouter⟩ :=
        clearImr_settles (b := ⟨p, come⟩) (foldl_signal_ready h come) he
      exact ⟨b.settle, .clearImr ⟨b, hrun, rfl⟩, by rw [hrouter, ← foldl_signal_router]; rfl⟩
    | sendEoi irq come =>
      obtain ⟨b, hrun, -, hrouter⟩ :=
        sendEoi_settles (b := ⟨p, come⟩) irq (foldl_signal_ready h come)
      exact ⟨b.settle, .sendEoi ⟨b, hrun, rfl⟩, by rw [hrouter, ← foldl_signal_router]; rfl⟩
    | @deliver i hnext =>
      exact ⟨p.taken i, .deliver (h.acknowledge_eq_some.mpr ⟨i, hnext, rfl, rfl⟩),
        h.taken_router (open_lt hnext.1).1⟩
  · rintro ⟨p', hstep, rfl⟩
    exact (h.step hstep).2

/-- A run of the pair is a run of the router. -/
theorem Pair.Ready.run {p p' : Pair} {es : List Event} (h : p.Ready)
    (hrun : Steps Pair.Step p es p') : p'.Ready ∧ Steps Router.Step p.router es p'.router := by
  have sim : ∀ {p : Pair} {e : Event} {p' : Pair} {r : Router}, p.Ready ∧ p.router = r →
      p.Step e p' →
      ∃ r', Router.Step r e r' ∧ p'.Ready ∧ p'.router = r' := by
    rintro p e p' _ ⟨hready, rfl⟩ hstep
    obtain ⟨hready', hstep'⟩ := hready.step hstep
    exact ⟨_, hstep', hready', rfl⟩
  obtain ⟨r, hsteps, hready, rfl⟩ := @Steps.simulate _ _ _ Pair.Step _ _ _ Router.Step
    (fun p r => p.Ready ∧ p.router = r) sim _ hrun ⟨h, rfl⟩
  exact ⟨hready, hsteps⟩

/-! ## `init_pic` -/

/-- All but the requests. -/
def Chip.still (c : Chip) : Chip := { c with irr := 0 }

def Pair.still (p : Pair) : Pair := ⟨p.master.still, p.slave.still⟩

theorem Chip.command_still (c : Chip) (v : BitVec 8) :
    (c.command v).map still = (c.still.command v).map still := by
  unfold command
  split_ifs <;> rfl

theorem Chip.data_still (c : Chip) (v : BitVec 8) : (c.data v).still = (c.still.data v).still := by
  obtain ⟨expects, _⟩ := c
  cases expects with
  | nil => rfl
  | cons e rest => cases e <;> rfl

theorem Pair.write_still (p : Pair) (port : Nat) (v : BitVec 8) :
    (p.write port v).map still = (p.still.write port v).map still := by
  unfold write
  split_ifs
  · have hmap := congrArg (Option.map fun c => Pair.mk c p.slave.still) (p.master.command_still v)
    rw [Option.map_map, Option.map_map] at hmap ⊢
    exact hmap
  · exact congrArg (fun c => some (Pair.mk c p.slave.still)) (p.master.data_still v)
  · have hmap := congrArg (Option.map fun c => Pair.mk p.master.still c) (p.slave.command_still v)
    rw [Option.map_map, Option.map_map] at hmap ⊢
    exact hmap
  · exact congrArg (fun c => some (Pair.mk p.master.still c)) (p.slave.data_still v)
  · rfl

/-- `outb`, the first initialisation word too, but for the requests. -/
theorem outb_still {b : Bus} {p p' : Pair} {port : Nat} {v : BitVec 8}
    (hb : b.settle.still = p.still) (h : p.write port v = some p') :
    ∃ b', outb port v b = .ok () b' ∧ b'.settle.still = p'.still := by
  have hstill : b.arrive.pair.still = p.still := by
    rw [← hb, ← settle_arrive]
    exact (settle_keeps (f := Pair.still) (fun _ _ => rfl) b.arrive).symm
  have hwrite := b.arrive.pair.write_still port v
  rw [hstill, ← p.write_still, h] at hwrite
  obtain ⟨q, hq, hstill'⟩ := Option.map_eq_some_iff.mp hwrite
  refine ⟨{ b.arrive with pair := q }, ?_, ?_⟩
  · unfold outb
    rw [hq]
  · rw [← hstill']
    exact settle_keeps (f := Pair.still) (fun _ _ => rfl) _

/-- The words that `init_pic` writes. -/
def initWords : List (Nat × BitVec 8) := [
  (masterPicData, 0xFF), (slavePicData, 0xFF), (masterPicCmd, 0x11), (slavePicCmd, 0x11),
  (masterPicData, 0x20), (slavePicData, 0x28), (masterPicData, 0x4), (slavePicData, 0x2),
  (masterPicData, 0x3), (slavePicData, 0x1), (masterPicCmd, 0x68), (masterPicCmd, 0x0a),
  (slavePicCmd, 0x68), (slavePicCmd, 0x0a), (masterPicData, 0xFF), (slavePicData, 0xFF)]

theorem initPic_eq : initPic = initWords.foldr (fun w rest => outb w.1 w.2 >>= fun _ => rest)
    (do clearImr 2; clearImr 1; clearImr 0) := rfl

/-- Words, one after the other. -/
theorem outbs_still {ws : List (Nat × BitVec 8)} {b : Bus} {p p' : Pair} (rest : Act Bus Unit)
    (hb : b.settle.still = p.still) (h : ws.foldlM (fun p w => Pair.write p w.1 w.2) p = some p') :
    ∃ b', ws.foldr (fun w rest => outb w.1 w.2 >>= fun _ => rest) rest b = rest b' ∧
      b'.settle.still = p'.still := by
  induction ws generalizing b p with
  | nil =>
    injection h with h
    exact ⟨b, rfl, h ▸ hb⟩
  | cons w ws ih =>
    rw [List.foldlM_cons] at h
    obtain ⟨q, hq, hrest⟩ := Option.bind_eq_some_iff.mp h
    obtain ⟨b₁, hrun, hb₁⟩ := outb_still hb hq
    obtain ⟨b', hrun', hb'⟩ := ih hb₁ hrest
    refine ⟨b', ?_, hb'⟩
    rw [List.foldr_cons, Act.bind_ok hrun]
    exact hrun'

/-- The pair that `init_pic` has before it enables lines. -/
def initialised : Pair where
  master := ⟨[], 0x20, 0x4, 0x3, true, false, 0, 0, 0xFF⟩
  slave := ⟨[], 0x28, 0x2, 0x1, true, false, 0, 0, 0xFF⟩

/-- Whatever a chip waited for before. -/
theorem initWords_writes (p : Pair) :
    initWords.foldlM (fun p w => Pair.write p w.1 w.2) p = some initialised := rfl

theorem initialised_ready : initialised.Ready where
  master := ⟨rfl, rfl, rfl, rfl, rfl⟩
  slave := ⟨rfl, rfl, rfl, rfl, rfl⟩
  idle := rfl

theorem Chip.IsUp.of_still {c c' : Chip} {base cascade : BitVec 8} {auto : Bool}
    (h : c.IsUp base cascade auto) (hstill : c'.still = c.still) : c'.IsUp base cascade auto where
  expects := (congrArg Chip.expects hstill :).trans h.expects
  base := (congrArg Chip.base hstill :).trans h.base
  cascade := (congrArg Chip.cascade hstill :).trans h.cascade
  auto := (congrArg Chip.auto hstill :).trans h.auto
  special := (congrArg Chip.special hstill :).trans h.special

theorem Pair.Ready.of_still {p q : Pair} (h : q.Ready) (hstill : p.still = q.still) : p.Ready := by
  have hmaster : p.master.still = q.master.still := congrArg Pair.master hstill
  have hslave : p.slave.still = q.slave.still := congrArg Pair.slave hstill
  exact ⟨Chip.IsUp.of_still h.master hmaster, Chip.IsUp.of_still h.slave hslave,
    (congrArg Chip.isr hmaster :).trans h.idle⟩

/-- It has no line enabled, and none in service. -/
theorem initialised_router {p : Pair} (hstill : p.still = initialised.still) :
    p.router.enabled = ∅ ∧ p.router.serving = ∅ := by
  have hmaster : p.master.still = initialised.master.still := congrArg Pair.master hstill
  have hslave : p.slave.still = initialised.slave.still := congrArg Pair.slave hstill
  have hboth : ∀ f : Chip → BitVec 8, (∀ c, f c.still = f c) →
      p.both f = f initialised.slave ++ f initialised.master := by
    intro f hf
    rw [Pair.both, ← hf p.slave, ← hf p.master, hmaster, hslave, hf, hf]
  have himr : p.both Chip.imr = 0xFFFF := hboth Chip.imr fun _ => rfl
  have hisr : p.both Chip.isr = 0 := hboth Chip.isr fun _ => rfl
  constructor
  · ext i
    refine ⟨fun hi => ?_, fun hi => hi.elim⟩
    have hall : ∀ i < 16, (0xFFFF : BitVec 16).getLsbD i = true := by decide
    have hbit : (p.both Chip.imr).getLsbD i = false := hi.2
    rw [himr, hall i hi.1] at hbit
    exact absurd hbit Bool.true_eq_false.mp
  · ext i
    refine ⟨fun hi => ?_, fun hi => hi.elim⟩
    have hbit : (p.both Chip.isr).getLsbD i = true := hi
    rw [hisr] at hbit
    simp at hbit

/-- `init_pic` sets the pair up, whatever it was at, and enables lines 0, 1 and 2. -/
theorem initPic_settles (p : Pair) (come : List Signals) : ∃ b, initPic ⟨p, come⟩ = .ok () b ∧
    b.settle.Ready ∧ b.settle.router.enabled = {0, 1, 2} ∧ b.settle.router.serving = ∅ := by
  have hstart : (Bus.settle ⟨p, come⟩).still = p.still :=
    settle_keeps (f := Pair.still) (fun _ _ => rfl) ⟨p, come⟩
  obtain ⟨b₀, hwords, hstill⟩ := outbs_still
    (do clearImr 2; clearImr 1; clearImr 0) hstart (initWords_writes p)
  obtain ⟨henabled, hserving⟩ := initialised_router hstill
  obtain ⟨b₁, hrun₁, hready₁, hrouter₁⟩ :=
    clearImr_settles (initialised_ready.of_still hstill) (by decide : 2 < 40)
  obtain ⟨b₂, hrun₂, hready₂, hrouter₂⟩ := clearImr_settles hready₁ (by decide : 1 < 40)
  obtain ⟨b₃, hrun₃, hready₃, hrouter₃⟩ := clearImr_settles hready₂ (by decide : 0 < 40)
  have hrouter : b₃.settle.router = ((b₀.settle.router.enable 2).enable 1).enable 0 := by
    rw [hrouter₃, hrouter₂, hrouter₁]
  refine ⟨b₃, ?_, hready₃, ?_, ?_⟩
  · rw [initPic_eq, hwords, Act.bind_ok hrun₁, Act.bind_ok hrun₂]
    exact hrun₃
  · rw [hrouter]
    ext i
    show ((i ∈ b₀.settle.router.enabled ∨ _) ∨ _) ∨ _ ↔ i = 0 ∨ i = 1 ∨ i = 2
    rw [henabled]
    show ((False ∨ (i = 2 ∧ i < 16)) ∨ (i = 1 ∧ i < 16)) ∨ (i = 0 ∧ i < 16) ↔
      i = 0 ∨ i = 1 ∨ i = 2
    rw [false_or]
    omega
  · rw [hrouter]
    exact hserving

/-- REFINE: whatever the controllers were at and whenever requests come, `init_pic` makes
them a router with lines 0, 1 and 2 enabled and nothing in service. In every run from there,
of requests, calls of `set_imr`, `clear_imr` and `send_eoi` in which requests come and go,
and vectors that the processor is given, they take the steps of the router and no others,
and ask for an interrupt exactly when a line of it is open. -/
theorem pic_refines (p₀ : Pair) (come : List Signals) : ∃ b, initPic ⟨p₀, come⟩ = .ok () b ∧
    b.settle.router.enabled = {0, 1, 2} ∧ b.settle.router.serving = ∅ ∧
    ∀ es p, Steps Pair.Step b.settle es p →
      Steps Router.Step b.settle.router es p.router ∧
      (p.interrupt = true ↔ ∃ i, p.router.Open i) ∧
      ∀ e r, e.Fits → (p.router.Step e r ↔ ∃ p', p.Step e p' ∧ p'.router = r) := by
  obtain ⟨b, hrun, hready, henabled, hserving⟩ := initPic_settles p₀ come
  refine ⟨b, hrun, henabled, hserving, fun es p hsteps => ?_⟩
  obtain ⟨hready', hrouter⟩ := hready.run hsteps
  exact ⟨hrouter, hready'.interrupt_iff, fun e r he => hready'.step_iff he⟩

/-! ## The kernel's interrupts -/

/-- What comes from outside of the code. -/
def Event.Outer : Event → Prop
  | .signals _ => True
  | .deliver _ => True
  | _ => False

/-- Whether the timer and the keyboard wait. -/
structure Waits where
  timer : Bool
  keyboard : Bool
deriving DecidableEq, Repr

/-- A request of one of the two waits until its vector is given, the timer's first. -/
inductive Waits.Step : Waits → Event → Waits → Prop
  | signals (w : Waits) (s : Signals) : Step w (.signals s)
      ⟨(w.timer && !s.withdrawn.getLsbD 0) || s.raised.getLsbD 0,
        (w.keyboard && !s.withdrawn.getLsbD 1) || s.raised.getLsbD 1⟩
  | timer {w : Waits} : w.timer = true → Step w (.deliver 0x20) { w with timer := false }
  | keyboard {w : Waits} : w.timer = false → w.keyboard = true →
      Step w (.deliver 0x21) { w with keyboard := false }

/-- What waits in the master. -/
def Pair.waits (p : Pair) : Waits := ⟨p.master.irr.getLsbD 0, p.master.irr.getLsbD 1⟩

/-- The pair as the kernel has it. -/
structure Pair.Kept (p : Pair) : Prop where
  ready : p.Ready
  enabled : p.router.enabled = {0, 1, 2}
  serving : p.router.serving = ∅

namespace Pair.Kept

variable {p p' : Pair} {i : Nat}

theorem open_iff (h : p.Kept) : p.router.Open i ↔
    (i = 0 ∧ p.waits.timer = true) ∨ (i = 1 ∧ p.waits.keyboard = true) := by
  unfold Router.Open
  rw [h.enabled, mem_pending]
  constructor
  · rintro ⟨⟨htwo, hreq⟩, henabled, -⟩
    rcases henabled with rfl | rfl | rfl
    · exact .inl ⟨rfl, hreq⟩
    · exact .inr ⟨rfl, hreq⟩
    · exact absurd rfl htwo
  · rintro (⟨rfl, hreq⟩ | ⟨rfl, hreq⟩)
    · exact ⟨⟨by decide, hreq⟩, .inl rfl, fun hge => absurd hge (by decide)⟩
    · exact ⟨⟨by decide, hreq⟩, .inr (.inl rfl), fun hge => absurd hge (by decide)⟩

/-- The timer comes first. -/
theorem next_iff (h : p.Kept) : p.router.Next i ↔ (i = 0 ∧ p.waits.timer = true) ∨
    (i = 1 ∧ p.waits.timer = false ∧ p.waits.keyboard = true) := by
  unfold Router.Next
  constructor
  · rintro ⟨hopen, hleast⟩
    rcases h.open_iff.mp hopen with ⟨rfl, htimer⟩ | ⟨rfl, hkeyboard⟩
    · exact .inl ⟨rfl, htimer⟩
    · refine .inr ⟨rfl, Bool.eq_false_iff.mpr fun htimer => ?_, hkeyboard⟩
      exact absurd (hleast 0 (h.open_iff.mpr (.inl ⟨rfl, htimer⟩))) (by decide)
  · rintro (⟨rfl, htimer⟩ | ⟨rfl, htimer, hkeyboard⟩)
    · exact ⟨h.open_iff.mpr (.inl ⟨rfl, htimer⟩), fun j _ => Nat.zero_le _⟩
    · refine ⟨h.open_iff.mpr (.inr ⟨rfl, hkeyboard⟩), fun j hj => ?_⟩
      rcases h.open_iff.mp hj with ⟨-, htimer'⟩ | ⟨rfl, -⟩
      · exact absurd (htimer.symm.trans htimer') Bool.false_ne_true
      · exact Nat.le_refl _

theorem signal (h : p.Kept) (s : Signals) : (p.signal s).Kept where
  ready := h.ready.signal s
  enabled := by rw [signal_router]; exact h.enabled
  serving := by rw [signal_router]; exact h.serving

theorem taken (h : p.Kept) (hi : i < 8) : (p.taken i).Kept where
  ready := h.ready.taken i
  enabled := by
    rw [h.ready.taken_router (hi.trans (by decide))]
    exact h.enabled
  serving := by
    rw [h.ready.taken_router (hi.trans (by decide))]
    show p.router.serving ∪ {j | j = i ∧ 8 ≤ i} = ∅
    rw [h.serving, Set.empty_union]
    exact Set.eq_empty_of_forall_notMem fun j hj => absurd hj.2 (Nat.not_le.mpr hi)

theorem signal_waits (p : Pair) (s : Signals) : (p.signal s).waits =
    ⟨(p.waits.timer && !s.withdrawn.getLsbD 0) || s.raised.getLsbD 0,
      (p.waits.keyboard && !s.withdrawn.getLsbD 1) || s.raised.getLsbD 1⟩ := by
  have hbit : ∀ i < 8, (p.signal s).master.irr.getLsbD i =
      ((p.master.irr.getLsbD i && !s.withdrawn.getLsbD i) || s.raised.getLsbD i) := by
    intro i hi
    show (p.master.irr &&& ~~~s.withdrawn.setWidth 8 ||| s.raised.setWidth 8).getLsbD i = _
    rw [BitVec.getLsbD_or, BitVec.getLsbD_and, BitVec.getLsbD_not, BitVec.getLsbD_setWidth,
      BitVec.getLsbD_setWidth, decide_eq_true hi, Bool.true_and, Bool.true_and, Bool.true_and]
  unfold waits
  rw [hbit 0 (by decide), hbit 1 (by decide)]

theorem taken_waits (p : Pair) : (p.taken 0).waits = { p.waits with timer := false } ∧
    (p.taken 1).waits = { p.waits with keyboard := false } := by
  have hbit : ∀ i < 8, ∀ j, (p.taken i).master.irr.getLsbD j =
      (p.master.irr.getLsbD j && !decide (j = i)) := by
    intro i hi j
    unfold Pair.taken
    rw [if_pos hi, Bool.eq_iff_iff, Bool.and_eq_true, Bool.not_eq_true', decide_eq_false_iff_not]
    exact getLsbD_clear hi j
  unfold waits
  rw [hbit 0 (by decide), hbit 0 (by decide), hbit 1 (by decide), hbit 1 (by decide)]
  simp

/-- SIMULATION: the pair and what waits have the same steps from outside. -/
theorem step_iff (h : p.Kept) {e : Event} (he : e.Outer) (w : Waits) :
    p.waits.Step e w ↔ ∃ p', p.Step e p' ∧ p'.waits = w := by
  constructor
  · intro hstep
    cases hstep with
    | signals s => exact ⟨p.signal s, .signals p s, signal_waits p s⟩
    | timer htimer =>
      have hnext := h.next_iff.mpr (.inl ⟨rfl, htimer⟩)
      exact ⟨p.taken 0, .deliver (h.ready.acknowledge_eq_some.mpr ⟨0, hnext, rfl, rfl⟩),
        (taken_waits p).1⟩
    | keyboard htimer hkeyboard =>
      have hnext := h.next_iff.mpr (.inr ⟨rfl, htimer, hkeyboard⟩)
      exact ⟨p.taken 1, .deliver (h.ready.acknowledge_eq_some.mpr ⟨1, hnext, rfl, rfl⟩),
        (taken_waits p).2⟩
  · rintro ⟨p', hstep, rfl⟩
    cases hstep with
    | signals s =>
      rw [signal_waits]
      exact .signals _ s
    | deliver hack =>
      obtain ⟨i, hnext, rfl, rfl⟩ := h.ready.acknowledge_eq_some.mp hack
      rcases h.next_iff.mp hnext with ⟨rfl, htimer⟩ | ⟨rfl, htimer, hkeyboard⟩
      · rw [(taken_waits p).1]
        exact .timer htimer
      · rw [(taken_waits p).2]
        exact .keyboard htimer hkeyboard
    | setImr hcall => exact he.elim
    | clearImr hcall => exact he.elim
    | sendEoi hcall => exact he.elim

theorem step (h : p.Kept) {e : Event} (he : e.Outer) (hstep : p.Step e p') : p'.Kept := by
  cases hstep with
  | signals s => exact h.signal s
  | deliver hack =>
    obtain ⟨i, hnext, rfl, rfl⟩ := h.ready.acknowledge_eq_some.mp hack
    rcases h.next_iff.mp hnext with ⟨rfl, -⟩ | ⟨rfl, -⟩
    · exact h.taken (by decide)
    · exact h.taken (by decide)
  | setImr hcall => exact he.elim
  | clearImr hcall => exact he.elim
  | sendEoi hcall => exact he.elim

theorem run (h : p.Kept) {es : List Event} (hes : ∀ e ∈ es, e.Outer)
    (hrun : Steps Pair.Step p es p') : p'.Kept := by
  induction hrun with
  | nil => exact h
  | cons hstep _ ih =>
    exact ih (h.step (hes _ List.mem_cons_self) hstep)
      fun e he => hes e (List.mem_cons_of_mem _ he)

/-- The same runs, too. -/
theorem run_iff (h : p.Kept) {es : List Event} (hes : ∀ e ∈ es, e.Outer) (w : Waits) :
    Steps Waits.Step p.waits es w ↔ ∃ p', Steps Pair.Step p es p' ∧ p'.waits = w := by
  induction es generalizing p with
  | nil =>
    constructor
    · intro hrun
      cases hrun
      exact ⟨p, .nil p, rfl⟩
    · rintro ⟨p', hrun, rfl⟩
      cases hrun
      exact .nil _
  | cons e es ih =>
    have he : e.Outer := hes e List.mem_cons_self
    have hrest : ∀ e ∈ es, e.Outer := fun e' he' => hes e' (List.mem_cons_of_mem _ he')
    constructor
    · intro hrun
      obtain ⟨w₁, hstep, hsteps⟩ := hrun.of_cons
      obtain ⟨p₁, hstep₁, rfl⟩ := (h.step_iff he w₁).mp hstep
      obtain ⟨p', hsteps', hp'⟩ := (ih (h.step he hstep₁) hrest).mp hsteps
      exact ⟨p', .cons hstep₁ hsteps', hp'⟩
    · rintro ⟨p', hrun, hp'⟩
      obtain ⟨p₁, hstep, hsteps⟩ := hrun.of_cons
      exact .cons ((h.step_iff he _).mpr ⟨p₁, hstep, rfl⟩)
        ((ih (h.step he hstep) hrest).mpr ⟨p', hsteps, hp'⟩)

end Pair.Kept

/-- The vectors of a run of what waits. -/
theorem Waits.vectors {w w' : Waits} {es : List Event} (hrun : Steps Waits.Step w es w')
    {v : BitVec 8} (hv : Event.deliver v ∈ es) : v = 0x20 ∨ v = 0x21 := by
  induction hrun with
  | nil => exact absurd hv List.not_mem_nil
  | cons hstep _ ih =>
    rcases List.mem_cons.mp hv with heq | hrest
    · cases hstep with
      | signals => exact Event.noConfusion heq
      | timer => exact .inl (Event.deliver.inj heq)
      | keyboard => exact .inr (Event.deliver.inj heq)
    · exact ih hrest

/-- NO END OF INTERRUPT: the kernel calls none of `set_imr`, `clear_imr` and `send_eoi` after
`init_pic`. In its runs the controllers do what two waiting requests do, no more and no less:
the timer's and the keyboard's, each until its vector is given, the timer's first. While one
waits the processor is asked for an interrupt, whatever was given before; and each vector has
its gate. -/
theorem kernel_interrupts (p₀ : Pair) (come : List Signals) :
    ∃ b, initPic ⟨p₀, come⟩ = .ok () b ∧ ∀ es, (∀ e ∈ es, Event.Outer e) →
      (∀ w, Steps Waits.Step b.settle.waits es w ↔
        ∃ p, Steps Pair.Step b.settle es p ∧ p.waits = w) ∧
      ∀ p, Steps Pair.Step b.settle es p →
        (p.interrupt = true ↔ p.waits.timer = true ∨ p.waits.keyboard = true) ∧
        ∀ v, Event.deliver v ∈ es → ∀ code, ComesThrough v.toNat (.hardware code) := by
  obtain ⟨b, hrun, hready, henabled, hserving⟩ := initPic_settles p₀ come
  have hkept : b.settle.Kept := ⟨hready, henabled, hserving⟩
  refine ⟨b, hrun, fun es hes => ⟨hkept.run_iff hes, fun p hsteps => ⟨?_, fun v hv code => ?_⟩⟩⟩
  · have hopen := fun i => (hkept.run hes hsteps).open_iff (i := i)
    rw [(hkept.run hes hsteps).ready.interrupt_iff]
    constructor
    · rintro ⟨i, hi⟩
      exact ((hopen i).mp hi).imp And.right And.right
    · rintro (htimer | hkeyboard)
      · exact ⟨0, (hopen 0).mpr (.inl ⟨rfl, htimer⟩)⟩
      · exact ⟨1, (hopen 1).mpr (.inr ⟨rfl, hkeyboard⟩)⟩
  · have hwaits := (hkept.run_iff hes p.waits).mpr ⟨p, hsteps, rfl⟩
    refine ⟨?_, fun hint => Cause.noConfusion hint⟩
    rcases Waits.vectors hwaits hv with rfl | rfl
    · exact (by decide : 32 ∈ trapVectors)
    · exact (by decide : 33 ∈ trapVectors)

end Myos.Kernel.Pic
