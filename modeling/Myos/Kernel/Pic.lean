import Mathlib.Order.Nat
import Mathlib.Tactic.Tauto
import Myos.Lib.Act

/-!
# The interrupt controllers

`kernel/pic.c`, down to the ports of the two controllers: a master with eight lines, of
which line 2 is a slave with eight more. What the two are together is a router of fifteen
lines: a pair that was set up asks for an interrupt exactly when a line of its router is
open (`Pair.Ready.interrupt_iff`), and the vector it gives is that of the next line
(`Pair.Ready.acknowledge_eq_some`).
-/

namespace Myos.Kernel.Pic

open Myos.Lib

/-! ## A chip -/

/-- An initialisation word that a chip waits for on its data port. -/
inductive Icw where
  | icw2 | icw3 | icw4
deriving DecidableEq, Repr

/-- A controller: the initialisation words it waits for, those it has, whether it is in the
special mask mode and which register the command port shows, the requests, what is in
service, and the mask. -/
structure Chip where
  expects : List Icw
  base : BitVec 8
  cascade : BitVec 8
  mode : BitVec 8
  special : Bool
  readIsr : Bool
  irr : BitVec 8
  isr : BitVec 8
  imr : BitVec 8
deriving DecidableEq, Repr

/-- The line of the highest priority among some. -/
def first (v : BitVec 8) : Option Nat := (List.range 8).find? fun i => v.getLsbD i

namespace Chip

/-- Whether an interrupt is over as soon as it is acknowledged. -/
def auto (c : Chip) : Bool := c.mode.getLsbD 1

/-- The lines in service that hold others back. -/
def holding (c : Chip) : BitVec 8 := if c.special then c.isr &&& ~~~c.imr else c.isr

/-- The line, if any, for which the chip asks for an interrupt, when `irr` are the
requests: the first one that is not masked, if nothing as high is in service. -/
def asks (c : Chip) (irr : BitVec 8) : Option Nat :=
  if c.expects = [] then
    (first (irr &&& ~~~c.imr)).filter fun i => (first c.holding).all fun j => decide (i < j)
  else none

/-- The interrupt of a line is acknowledged. -/
def accept (c : Chip) (i : Nat) : Chip :=
  { c with
    irr := c.irr &&& ~~~(1#8 <<< i)
    isr := if c.auto then c.isr else c.isr ||| 1#8 <<< i }

/-- A byte for the command port: the first initialisation word, a mode, or the end of the
interrupt of the highest priority. Rotation, polling and the end of an interrupt by its name
are not for this code. -/
def command (c : Chip) (v : BitVec 8) : Option Chip :=
  if v.getLsbD 4 then
    some { c with
      expects := [.icw2] ++ (if v.getLsbD 1 then [] else [.icw3]) ++
        if v.getLsbD 0 then [.icw4] else []
      mode := if v.getLsbD 0 then c.mode else 0
      special := false
      readIsr := false
      irr := 0
      isr := 0
      imr := 0 }
  else if v.getLsbD 3 then
    if v.getLsbD 2 then none
    else some { c with
      special := if v.getLsbD 6 then v.getLsbD 5 else c.special
      readIsr := if v.getLsbD 1 then v.getLsbD 0 else c.readIsr }
  else if v = 0x20 then
    some { c with isr := (first c.holding).elim c.isr fun i => c.isr &&& ~~~(1#8 <<< i) }
  else none

/-- A byte for the data port: the word that is waited for, or else the mask. -/
def data (c : Chip) (v : BitVec 8) : Chip :=
  match c.expects with
  | [] => { c with imr := v }
  | .icw2 :: rest => { c with expects := rest, base := v &&& 0xF8 }
  | .icw3 :: rest => { c with expects := rest, cascade := v }
  | .icw4 :: rest => { c with expects := rest, mode := v }

/-- Requests come and go. -/
def signal (c : Chip) (raised withdrawn : BitVec 8) : Chip :=
  { c with irr := (c.irr &&& ~~~withdrawn) ||| raised }

end Chip

/-! ## The pair -/

def masterPicCmd : Nat := 0x20
def masterPicData : Nat := 0x21
def slavePicCmd : Nat := 0xA0
def slavePicData : Nat := 0xA1

/-- The devices' sixteen lines at a moment: where a request comes, and where one is taken
back. -/
structure Signals where
  raised : BitVec 16
  withdrawn : BitVec 16
deriving DecidableEq, Repr

structure Pair where
  master : Chip
  slave : Chip
deriving DecidableEq, Repr

namespace Pair

/-- Requests come and go: the first eight lines are the master's. -/
def signal (p : Pair) (s : Signals) : Pair :=
  ⟨p.master.signal (s.raised.setWidth 8) (s.withdrawn.setWidth 8),
    p.slave.signal (s.raised.extractLsb' 8 8) (s.withdrawn.extractLsb' 8 8)⟩

/-- The master's requests: line 2 is not a device's but the slave's. -/
def requests (p : Pair) : BitVec 8 :=
  if (p.slave.asks p.slave.irr).isSome then p.master.irr ||| 4 else p.master.irr &&& ~~~4

/-- Whether the processor is asked for an interrupt. -/
def interrupt (p : Pair) : Bool := (p.master.asks p.requests).isSome

/-- The processor acknowledges the interrupt: the vector it is given, by the slave if the
master was told that the line is one and the slave that it is the one, and the pair then. -/
def acknowledge (p : Pair) : Option (BitVec 8 × Pair) := do
  let i ← p.master.asks p.requests
  if p.master.cascade.getLsbD i then
    if p.slave.cascade = BitVec.ofNat 8 i then
      match p.slave.asks p.slave.irr with
      | some j => return (p.slave.base ||| BitVec.ofNat 8 j, ⟨p.master.accept i, p.slave.accept j⟩)
      | none => return (p.slave.base ||| 7, ⟨p.master.accept i, p.slave⟩)
    else none
  else return (p.master.base ||| BitVec.ofNat 8 i, ⟨p.master.accept i, p.slave⟩)

/-- A byte for a port. -/
def write (p : Pair) (port : Nat) (v : BitVec 8) : Option Pair :=
  if port = masterPicCmd then (p.master.command v).map fun c => { p with master := c }
  else if port = masterPicData then some { p with master := p.master.data v }
  else if port = slavePicCmd then (p.slave.command v).map fun c => { p with slave := c }
  else if port = slavePicData then some { p with slave := p.slave.data v }
  else none

end Pair

/-- The pair while the code is at work, and what the lines do before each of the next
accesses. -/
structure Bus where
  pair : Pair
  later : List Signals

/-- What comes before an access is there. -/
def Bus.arrive (b : Bus) : Bus :=
  match b.later with
  | [] => b
  | s :: later => ⟨b.pair.signal s, later⟩

/-- `outb`. -/
def outb (port : Nat) (v : BitVec 8) : Act Bus Unit := fun b =>
  match b.arrive.pair.write port v with
  | some p => .ok () { b.arrive with pair := p }
  | none => .fault b.arrive

/-- `inb` of the data ports, which show the mask. -/
def inb (port : Nat) : Act Bus (BitVec 8) := fun b =>
  if port = masterPicData then .ok b.arrive.pair.master.imr b.arrive
  else if port = slavePicData then .ok b.arrive.pair.slave.imr b.arrive
  else .fault b.arrive

/-! ## `pic.c` -/

/-- `send_eoi`. -/
def sendEoi (irq : Nat) : Act Bus Unit := do
  if 8 ≤ irq then
    outb slavePicCmd 0x20
    outb masterPicCmd 0x20
  else outb masterPicCmd 0x20

/-- `1 << n`, an `int`, of which `n` may not be too large. -/
def shl (n : Nat) : Act Bus (BitVec 32) := if n < 32 then return 1#32 <<< n else Act.stop

/-- What `clear_imr` and `set_imr` have in common: both masks are read, and the one that has
the line is written. -/
def changeImr (change : BitVec 8 → BitVec 32 → BitVec 8) (irq : Nat) : Act Bus Unit := do
  let masterImr ← inb masterPicData
  let slaveImr ← inb slavePicData
  if irq < 8 then
    let mask ← shl irq
    outb masterPicData (change masterImr mask)
  else
    let mask ← shl (irq - 8)
    outb slavePicData (change slaveImr mask)

/-- `clear_imr`. -/
def clearImr (irq : Nat) : Act Bus Unit :=
  changeImr (fun imr mask => imr &&& (~~~mask).setWidth 8) irq

/-- `set_imr`. -/
def setImr (irq : Nat) : Act Bus Unit := changeImr (fun imr mask => imr ||| mask.setWidth 8) irq

/-- `init_pic`. -/
def initPic : Act Bus Unit := do
  outb masterPicData 0xFF
  outb slavePicData 0xFF
  -- ICW1
  outb masterPicCmd 0x11
  outb slavePicCmd 0x11
  -- ICW2
  outb masterPicData 0x20
  outb slavePicData 0x28
  -- ICW3
  outb masterPicData 0x4
  outb slavePicData 0x2
  -- ICW4
  outb masterPicData 0x3
  outb slavePicData 0x1
  outb masterPicCmd 0x68
  outb masterPicCmd 0x0a
  outb slavePicCmd 0x68
  outb slavePicCmd 0x0a
  outb masterPicData 0xFF
  outb slavePicData 0xFF
  clearImr 2
  clearImr 1
  clearImr 0

/-! ## Runs -/

/-- What happens: requests come and go, a function of `pic.c` is called while others come
and go, or the processor is given a vector. -/
inductive Event where
  | signals (s : Signals)
  | setImr (irq : Nat) (come : List Signals)
  | clearImr (irq : Nat) (come : List Signals)
  | sendEoi (irq : Nat) (come : List Signals)
  | deliver (vector : BitVec 8)
deriving DecidableEq, Repr

/-- The pair when all that was to come has come. -/
def Bus.settle (b : Bus) : Pair := b.later.foldl Pair.signal b.pair

/-- `x` is called on the pair `p`, while `come` comes, and leaves `p'`. The kernel is at work
then, with interrupts off. -/
def Called (x : Act Bus Unit) (come : List Signals) (p p' : Pair) : Prop :=
  ∃ b, x ⟨p, come⟩ = .ok () b ∧ b.settle = p'

/-- A step of the pair. -/
inductive Pair.Step : Pair → Event → Pair → Prop
  | signals (p : Pair) (s : Signals) : Step p (.signals s) (p.signal s)
  | setImr {p p' : Pair} {irq : Nat} {come : List Signals} :
      Called (Pic.setImr irq) come p p' → Step p (.setImr irq come) p'
  | clearImr {p p' : Pair} {irq : Nat} {come : List Signals} :
      Called (Pic.clearImr irq) come p p' → Step p (.clearImr irq come) p'
  | sendEoi {p p' : Pair} {irq : Nat} {come : List Signals} :
      Called (Pic.sendEoi irq) come p p' → Step p (.sendEoi irq come) p'
  | deliver {p p' : Pair} {v : BitVec 8} :
      p.acknowledge = some (v, p') → Step p (.deliver v) p'

/-! ## The router -/

/-- Fifteen lines: the enabled ones, the ones with a request, and those of which the
interrupt is not over. Line 2, when it is enabled, is the way in for the last eight. -/
@[ext]
structure Router where
  enabled : Set Nat
  pending : Set Nat
  serving : Set Nat

/-- The order of the lines: the last eight come where line 2 would. -/
def rank (i : Nat) : Nat := if i < 3 then i else if i < 8 then i + 8 else i - 6

namespace Router

/-- A line with a request that nothing stands in the way of. The first eight wait for
nobody; of the others one waits until what is as high is over. -/
def Open (r : Router) (i : Nat) : Prop :=
  i ∈ r.pending ∧ i ∈ r.enabled ∧
    (8 ≤ i → 2 ∈ r.enabled ∧ ∀ j ∈ r.serving, j ∈ r.enabled → i < j)

/-- The line that is next. -/
def Next (r : Router) (i : Nat) : Prop := r.Open i ∧ ∀ j, r.Open j → rank i ≤ rank j

def signal (r : Router) (s : Signals) : Router :=
  { r with pending := r.pending \ {i | s.withdrawn.getLsbD i} ∪ {i | i ≠ 2 ∧ s.raised.getLsbD i} }

def enable (r : Router) (irq : Nat) : Router :=
  { r with enabled := r.enabled ∪ {i | i = irq ∧ i < 16} }

def disable (r : Router) (irq : Nat) : Router := { r with enabled := r.enabled \ {irq} }

/-- The interrupt of the first of the last eight lines is over; the others' are already. -/
def finish (r : Router) (irq : Nat) : Router :=
  if 8 ≤ irq then { r with serving := r.serving \ {i | IsLeast (r.serving ∩ r.enabled) i} } else r

/-- The interrupt of a line comes. -/
def take (r : Router) (i : Nat) : Router :=
  { r with pending := r.pending \ {i}, serving := r.serving ∪ {j | j = i ∧ 8 ≤ i} }

/-- A step of the router. -/
inductive Step : Router → Event → Router → Prop
  | signals (r : Router) (s : Signals) : Step r (.signals s) (r.signal s)
  | setImr (r : Router) (irq : Nat) (come : List Signals) :
      Step r (.setImr irq come) ((come.foldl signal r).disable irq)
  | clearImr (r : Router) (irq : Nat) (come : List Signals) :
      Step r (.clearImr irq come) ((come.foldl signal r).enable irq)
  | sendEoi (r : Router) (irq : Nat) (come : List Signals) :
      Step r (.sendEoi irq come) ((come.foldl signal r).finish irq)
  | deliver {r : Router} {i : Nat} :
      r.Next i → Step r (.deliver (BitVec.ofNat 8 (0x20 + i))) (r.take i)

end Router

/-- A register of both, of sixteen bits. -/
def Pair.both (p : Pair) (f : Chip → BitVec 8) : BitVec 16 := f p.slave ++ f p.master

/-- The router that a pair is. -/
def Pair.router (p : Pair) : Router where
  enabled := {i | i < 16 ∧ (p.both Chip.imr).getLsbD i = false}
  pending := {i | i ≠ 2 ∧ (p.both Chip.irr).getLsbD i}
  serving := {i | (p.both Chip.isr).getLsbD i}

/-! ## What a chip asks for -/

theorem first_eq_some {v : BitVec 8} {i : Nat} :
    first v = some i ↔ IsLeast {j | v.getLsbD j = true} i := by
  unfold first
  rw [List.find?_range_eq_some]
  constructor
  · rintro ⟨hi, -, hbefore⟩
    refine ⟨hi, fun j hj => ?_⟩
    by_contra hlt
    have hno := hbefore j (Nat.lt_of_not_le hlt)
    rw [show v.getLsbD j = true from hj] at hno
    simp at hno
  · rintro ⟨hi, hleast⟩
    have hlt : i < 8 := BitVec.lt_of_getLsbD hi
    refine ⟨hi, List.mem_range.mpr hlt, fun j hj => ?_⟩
    cases hbit : v.getLsbD j with
    | false => rfl
    | true => exact absurd (hleast hbit) (Nat.not_le.mpr hj)

theorem first_all {v : BitVec 8} {i : Nat} :
    ((first v).all fun j => decide (i < j)) = true ↔ ∀ j, v.getLsbD j = true → i < j := by
  cases hfirst : first v with
  | some k =>
    obtain ⟨hk, hleast⟩ := first_eq_some.mp hfirst
    rw [Option.all_some, decide_eq_true_eq]
    exact ⟨fun hlt j hj => Nat.lt_of_lt_of_le hlt (hleast hj), fun hall => hall k hk⟩
  | none =>
    refine ⟨fun _ j hj => ?_, fun _ => rfl⟩
    have hno := List.find?_eq_none.mp hfirst j (List.mem_range.mpr (BitVec.lt_of_getLsbD hj))
    exact absurd hj hno

/-- A request of the chip that nothing in it stands in the way of. -/
def Chip.Opens (c : Chip) (irr : BitVec 8) (i : Nat) : Prop :=
  irr.getLsbD i = true ∧ c.imr.getLsbD i = false ∧ ∀ k, c.holding.getLsbD k = true → i < k

/-- The chip asks for the first open request: one that is held back has everything after it
held back too. -/
theorem Chip.asks_eq_some {c : Chip} {irr : BitVec 8} {i : Nat} (hexpects : c.expects = []) :
    c.asks irr = some i ↔ IsLeast {j | c.Opens irr j} i := by
  have hbits : ∀ j, (irr &&& ~~~c.imr).getLsbD j = true ↔
      irr.getLsbD j = true ∧ c.imr.getLsbD j = false := by
    intro j
    rw [BitVec.getLsbD_and, BitVec.getLsbD_not, Bool.and_eq_true, Bool.and_eq_true]
    constructor
    · rintro ⟨hreq, -, hmask⟩
      exact ⟨hreq, by simpa using hmask⟩
    · rintro ⟨hreq, hmask⟩
      exact ⟨hreq, decide_eq_true (BitVec.lt_of_getLsbD hreq), by simp [hmask]⟩
  unfold asks
  rw [if_pos hexpects, Option.filter_eq_some_iff, first_eq_some, first_all]
  constructor
  · rintro ⟨⟨hi, hleast⟩, hfree⟩
    obtain ⟨hreq, hmask⟩ := (hbits i).mp hi
    refine ⟨⟨hreq, hmask, hfree⟩, fun j hj => ?_⟩
    obtain ⟨hreq', hmask', -⟩ := hj
    exact hleast ((hbits j).mpr ⟨hreq', hmask'⟩)
  · rintro ⟨⟨hreq, hmask, hfree⟩, hleast⟩
    refine ⟨⟨(hbits i).mpr ⟨hreq, hmask⟩, fun j hj => ?_⟩, hfree⟩
    by_contra hlt
    obtain ⟨hreq', hmask'⟩ := (hbits j).mp hj
    have hopen : c.Opens irr j :=
      ⟨hreq', hmask', fun k hk => (Nat.lt_of_not_le hlt).trans (hfree k hk)⟩
    exact hlt (hleast hopen)

/-- The chip asks when there is an open request. -/
theorem Chip.asks_isSome {c : Chip} {irr : BitVec 8} (hexpects : c.expects = []) :
    (c.asks irr).isSome = true ↔ ∃ i, c.Opens irr i := by
  constructor
  · intro h
    obtain ⟨i, hi⟩ := Option.isSome_iff_exists.mp h
    exact ⟨i, ((asks_eq_some hexpects).mp hi).1⟩
  · rintro ⟨i, hi⟩
    classical
    exact Option.isSome_iff_exists.mpr ⟨_, (asks_eq_some hexpects).mpr (Nat.isLeast_find ⟨i, hi⟩)⟩

/-! ## An interrupt of the pair -/

/-- A chip that was set up. -/
structure Chip.IsUp (c : Chip) (base cascade : BitVec 8) (auto : Bool) : Prop where
  expects : c.expects = []
  base : c.base = base
  cascade : c.cascade = cascade
  auto : c.auto = auto
  special : c.special = true

/-- The pair as `init_pic` sets it up. The master ends its interrupts by itself, so it has
none in service. -/
structure Pair.Ready (p : Pair) : Prop where
  master : p.master.IsUp 0x20 0x4 true
  slave : p.slave.IsUp 0x28 0x2 false
  idle : p.master.isr = 0

namespace Pair

variable {p p' : Pair} {i j : Nat}

theorem mem_enabled : i ∈ p.router.enabled ↔ i < 16 ∧
    (if i < 8 then p.master.imr.getLsbD i else p.slave.imr.getLsbD (i - 8)) = false := by
  show i < 16 ∧ (p.slave.imr ++ p.master.imr).getLsbD i = false ↔ _
  rw [BitVec.getLsbD_append]

theorem mem_pending : i ∈ p.router.pending ↔ i ≠ 2 ∧
    (if i < 8 then p.master.irr.getLsbD i else p.slave.irr.getLsbD (i - 8)) = true := by
  show i ≠ 2 ∧ (p.slave.irr ++ p.master.irr).getLsbD i = true ↔ _
  rw [BitVec.getLsbD_append]

theorem mem_serving : i ∈ p.router.serving ↔
    (if i < 8 then p.master.isr.getLsbD i else p.slave.isr.getLsbD (i - 8)) = true := by
  show (p.slave.isr ++ p.master.isr).getLsbD i = true ↔ _
  rw [BitVec.getLsbD_append]

namespace Ready

/-- Only lines of the slave are in service. -/
theorem exists_serving (h : p.Ready) (hi : i ∈ p.router.serving) : ∃ n, i = n + 8 := by
  by_cases hsmall : i < 8
  · rw [mem_serving, if_pos hsmall, h.idle] at hi
    simp at hi
  · exact Nat.exists_eq_add_of_le' (Nat.not_lt.mp hsmall)

/-- What holds lines of the slave back. -/
theorem holding_iff (h : p.Ready) (n : Nat) : p.slave.holding.getLsbD n = true ↔
    n + 8 ∈ p.router.serving ∧ n + 8 ∈ p.router.enabled := by
  have hlow : ¬ n + 8 < 8 := Nat.not_lt.mpr (Nat.le_add_left 8 n)
  rw [mem_serving, mem_enabled, if_neg hlow, if_neg hlow, Nat.add_sub_cancel]
  unfold Chip.holding
  rw [if_pos h.slave.special]
  constructor
  · intro hn
    have hlt := BitVec.lt_of_getLsbD hn
    simp only [BitVec.getLsbD_and, BitVec.getLsbD_not, Bool.and_eq_true, Bool.not_eq_true'] at hn
    exact ⟨hn.1, Nat.add_lt_add_right hlt 8, hn.2.2⟩
  · rintro ⟨hserving, hlt, hmask⟩
    rw [BitVec.getLsbD_and, BitVec.getLsbD_not, hserving, hmask,
      decide_eq_true (Nat.lt_of_add_lt_add_right hlt : n < 8)]
    rfl

/-- The slave's part of a line of its. -/
theorem slave_opens (h : p.Ready) : p.slave.Opens p.slave.irr j ↔
    j + 8 ∈ p.router.pending ∧ j + 8 ∈ p.router.enabled ∧
      ∀ k ∈ p.router.serving, k ∈ p.router.enabled → j + 8 < k := by
  have hlow : ¬ j + 8 < 8 := Nat.not_lt.mpr (Nat.le_add_left 8 j)
  rw [mem_pending, mem_enabled, if_neg hlow, if_neg hlow, Nat.add_sub_cancel]
  constructor
  · rintro ⟨hreq, hmask, hfree⟩
    refine ⟨⟨by omega, hreq⟩, ⟨Nat.add_lt_add_right (BitVec.lt_of_getLsbD hreq) 8, hmask⟩, ?_⟩
    intro k hk henabled
    obtain ⟨n, rfl⟩ := h.exists_serving hk
    exact Nat.add_lt_add_right (hfree n ((h.holding_iff n).mpr ⟨hk, henabled⟩)) 8
  · rintro ⟨⟨-, hreq⟩, ⟨-, hmask⟩, hfree⟩
    refine ⟨hreq, hmask, fun k hk => ?_⟩
    obtain ⟨hserving, henabled⟩ := (h.holding_iff k).mp hk
    exact Nat.lt_of_add_lt_add_right (hfree _ hserving henabled)

/-- A line of the slave is open when the slave asks for it and the master lets it through. -/
theorem open_slave (h : p.Ready) : p.router.Open (j + 8) ↔
    p.slave.Opens p.slave.irr j ∧ 2 ∈ p.router.enabled := by
  rw [h.slave_opens]
  constructor
  · rintro ⟨hpending, henabled, hfree⟩
    obtain ⟨htwo, hfree⟩ := hfree (Nat.le_add_left 8 j)
    exact ⟨⟨hpending, henabled, hfree⟩, htwo⟩
  · rintro ⟨⟨hpending, henabled, hfree⟩, htwo⟩
    exact ⟨hpending, henabled, fun _ => ⟨htwo, hfree⟩⟩

/-- The master's requests. -/
theorem requests_getLsbD (i : Nat) : p.requests.getLsbD i = true ↔
    if i = 2 then (p.slave.asks p.slave.irr).isSome = true else p.master.irr.getLsbD i = true := by
  have hfour : ∀ i, (4 : BitVec 8).getLsbD i = decide (i = 2) := by
    intro i
    by_cases hlt : i < 8
    · have hall : ∀ i : Fin 8, (4 : BitVec 8).getLsbD i = decide ((i : Nat) = 2) := by decide
      exact hall ⟨i, hlt⟩
    · rw [BitVec.getLsbD_of_ge _ _ (Nat.not_lt.mp hlt), decide_eq_false (by omega)]
  unfold requests
  cases hasks : (p.slave.asks p.slave.irr).isSome with
  | true =>
    rw [if_pos rfl, BitVec.getLsbD_or, hfour]
    split <;> simp_all
  | false =>
    rw [if_neg Bool.false_ne_true, BitVec.getLsbD_and, BitVec.getLsbD_not, hfour]
    split
    · simp_all
    · rename_i hne
      simp only [hne, decide_false, Bool.not_false, Bool.and_true, Bool.and_eq_true,
        decide_eq_true_eq, and_iff_left_iff_imp]
      exact BitVec.lt_of_getLsbD

/-- What is open in the master: its own lines, and line 2 for the slave. -/
theorem master_opens (h : p.Ready) : p.master.Opens p.requests i ↔
    (i < 8 ∧ p.router.Open i) ∨ (i = 2 ∧ ∃ j, p.router.Open (j + 8)) := by
  have hholding : ∀ k, p.master.holding.getLsbD k = false := by
    intro k
    unfold Chip.holding
    rw [if_pos h.master.special, h.idle]
    simp
  have hfree : ∀ k, p.master.holding.getLsbD k = true → i < k := by
    intro k hk
    rw [hholding k] at hk
    exact absurd hk Bool.false_ne_true
  have htwo : 2 ∈ p.router.enabled ↔ p.master.imr.getLsbD 2 = false := by
    rw [mem_enabled]
    exact ⟨fun hm => hm.2, fun hm => ⟨by decide, hm⟩⟩
  unfold Chip.Opens
  rw [requests_getLsbD]
  by_cases hi : i = 2
  · subst hi
    rw [if_pos rfl, Chip.asks_isSome h.slave.expects]
    constructor
    · rintro ⟨⟨j, hj⟩, hmask, -⟩
      exact .inr ⟨rfl, j, h.open_slave.mpr ⟨hj, htwo.mpr hmask⟩⟩
    · rintro (⟨-, hopen⟩ | ⟨-, j, hopen⟩)
      · exact absurd rfl (mem_pending.mp hopen.1).1
      · obtain ⟨hj, hmask⟩ := h.open_slave.mp hopen
        exact ⟨⟨j, hj⟩, htwo.mp hmask, hfree⟩
  · rw [if_neg hi]
    constructor
    · rintro ⟨hreq, hmask, -⟩
      have hlt : i < 8 := BitVec.lt_of_getLsbD hreq
      refine .inl ⟨hlt, mem_pending.mpr ⟨hi, ?_⟩, mem_enabled.mpr ⟨by omega, ?_⟩, ?_⟩
      · rw [if_pos hlt]
        exact hreq
      · rw [if_pos hlt]
        exact hmask
      · exact fun hge => absurd hlt (Nat.not_lt.mpr hge)
    · rintro (⟨hlt, hopen⟩ | ⟨htwo', -⟩)
      · obtain ⟨hpending, henabled, -⟩ := hopen
        have hreq := (mem_pending.mp hpending).2
        have hmask := (mem_enabled.mp henabled).2
        rw [if_pos hlt] at hreq hmask
        exact ⟨hreq, hmask, hfree⟩
      · exact absurd htwo' hi

/-- PROGRESS: the processor is asked for an interrupt exactly when a line is open. -/
theorem interrupt_iff (h : p.Ready) : p.interrupt = true ↔ ∃ i, p.router.Open i := by
  unfold interrupt
  rw [Chip.asks_isSome h.master.expects]
  constructor
  · rintro ⟨i, hi⟩
    rcases h.master_opens.mp hi with ⟨-, hopen⟩ | ⟨-, j, hopen⟩
    · exact ⟨i, hopen⟩
    · exact ⟨j + 8, hopen⟩
  · rintro ⟨i, hopen⟩
    by_cases hlt : i < 8
    · exact ⟨i, h.master_opens.mpr (.inl ⟨hlt, hopen⟩)⟩
    · obtain ⟨j, rfl⟩ := Nat.exists_eq_add_of_le' (Nat.not_lt.mp hlt)
      exact ⟨2, h.master_opens.mpr (.inr ⟨rfl, j, hopen⟩)⟩

/-- Which line comes when the master asks. -/
theorem next_master (h : p.Ready) (hasks : p.master.asks p.requests = some i) (hi : i ≠ 2) :
    p.router.Next i ∧ i < 8 := by
  obtain ⟨hmem, hleast⟩ := (Chip.asks_eq_some h.master.expects).mp hasks
  rcases h.master_opens.mp hmem with ⟨hlt, hopen⟩ | ⟨htwo, -⟩
  · refine ⟨⟨hopen, fun j hj => ?_⟩, hlt⟩
    by_cases hj8 : j < 8
    · have hle : i ≤ j := hleast (h.master_opens.mpr (.inl ⟨hj8, hj⟩))
      unfold rank
      split_ifs <;> omega
    · obtain ⟨n, rfl⟩ := Nat.exists_eq_add_of_le' (Nat.not_lt.mp hj8)
      -- The slave asks too, on line 2, so the line that comes is before that.
      have hle : i ≤ 2 := hleast (h.master_opens.mpr (.inr ⟨rfl, n, hj⟩))
      unfold rank
      split_ifs <;> omega
  · exact absurd htwo hi

/-- Which line comes when the slave asks through the master. -/
theorem next_slave (h : p.Ready) (hasks : p.master.asks p.requests = some 2) :
    ∃ j, p.slave.asks p.slave.irr = some j ∧ p.router.Next (j + 8) := by
  obtain ⟨hmem, hleast⟩ := (Chip.asks_eq_some h.master.expects).mp hasks
  rcases h.master_opens.mp hmem with ⟨-, hopen⟩ | ⟨-, n, hopen⟩
  · exact absurd rfl (mem_pending.mp hopen.1).1
  · obtain ⟨hn, htwo⟩ := h.open_slave.mp hopen
    obtain ⟨j, hj⟩ := Option.isSome_iff_exists.mp ((Chip.asks_isSome h.slave.expects).mpr ⟨n, hn⟩)
    obtain ⟨hopens, hfirst⟩ := (Chip.asks_eq_some h.slave.expects).mp hj
    have hlt : j < 8 := BitVec.lt_of_getLsbD hopens.1
    refine ⟨j, hj, h.open_slave.mpr ⟨hopens, htwo⟩, fun k hk => ?_⟩
    by_cases hk8 : k < 8
    · have hle : 2 ≤ k := hleast (h.master_opens.mpr (.inl ⟨hk8, hk⟩))
      have hne : k ≠ 2 := (mem_pending.mp hk.1).1
      unfold rank
      split_ifs <;> omega
    · obtain ⟨m, rfl⟩ := Nat.exists_eq_add_of_le' (Nat.not_lt.mp hk8)
      have hle : j ≤ m := hfirst (h.open_slave.mp hk).1
      unfold rank
      split_ifs <;> omega

end Ready

/-- The pair after the interrupt of a line. -/
def taken (p : Pair) (i : Nat) : Pair :=
  if i < 8 then ⟨p.master.accept i, p.slave⟩ else ⟨p.master.accept 2, p.slave.accept (i - 8)⟩

/-- The vectors of the master, then those of the slave. -/
theorem vector_eq : (∀ i < 8, (0x20 : BitVec 8) ||| BitVec.ofNat 8 i = BitVec.ofNat 8 (0x20 + i)) ∧
    ∀ j < 8, (0x28 : BitVec 8) ||| BitVec.ofNat 8 j = BitVec.ofNat 8 (0x20 + (j + 8)) := by
  decide

theorem open_lt (h : p.router.Open i) : i < 16 ∧ i ≠ 2 :=
  ⟨(mem_enabled.mp h.2.1).1, (mem_pending.mp h.1).1⟩

/-- There is one next line. -/
theorem next_unique (h : p.router.Next i) (h' : p.router.Next j) : i = j := by
  obtain ⟨hi, hi2⟩ := open_lt h.1
  obtain ⟨hj, hj2⟩ := open_lt h'.1
  have hrank : rank i = rank j := Nat.le_antisymm (h.2 j h'.1) (h'.2 i h.1)
  unfold rank at hrank
  split_ifs at hrank <;> omega

namespace Ready

/-- The processor is given the vector of the next line. -/
theorem acknowledged (h : p.Ready) (hinterrupt : p.interrupt = true) :
    ∃ i, p.router.Next i ∧
      p.acknowledge = some (BitVec.ofNat 8 (0x20 + i), p.taken i) := by
  obtain ⟨i, hasks⟩ := Option.isSome_iff_exists.mp hinterrupt
  unfold acknowledge
  rw [hasks, Option.bind_eq_bind, Option.bind_some, h.master.cascade, h.slave.cascade]
  by_cases hi : i = 2
  · subst hi
    obtain ⟨j, hslave, hnext⟩ := h.next_slave hasks
    have hlt : j + 8 < 16 := (open_lt hnext.1).1
    refine ⟨j + 8, hnext, ?_⟩
    rw [if_pos (by decide), if_pos (by decide), hslave, taken, if_neg (by omega),
      Nat.add_sub_cancel, h.slave.base, ← vector_eq.2 j (by omega)]
    rfl
  · obtain ⟨hnext, hlt⟩ := h.next_master hasks hi
    have hbit : ∀ i < 8, i ≠ 2 → (4 : BitVec 8).getLsbD i = false := by decide
    refine ⟨i, hnext, ?_⟩
    rw [if_neg (by rw [hbit i hlt hi]; exact Bool.false_ne_true), taken, if_pos hlt, h.master.base,
      ← vector_eq.1 i hlt]
    rfl

theorem acknowledge_eq_some {v : BitVec 8} (h : p.Ready) : p.acknowledge = some (v, p') ↔
    ∃ i, p.router.Next i ∧ v = BitVec.ofNat 8 (0x20 + i) ∧ p' = p.taken i := by
  constructor
  · intro hack
    have hinterrupt : p.interrupt = true := by
      unfold acknowledge at hack
      unfold interrupt
      cases hasks : p.master.asks p.requests with
      | none => simp [hasks] at hack
      | some i => rfl
    obtain ⟨i, hnext, heq⟩ := h.acknowledged hinterrupt
    rw [heq] at hack
    simp only [Option.some.injEq, Prod.mk.injEq] at hack
    exact ⟨i, hnext, hack.1.symm, hack.2.symm⟩
  · rintro ⟨i, hnext, rfl, rfl⟩
    obtain ⟨j, hnext', heq⟩ := h.acknowledged (h.interrupt_iff.mpr ⟨i, hnext.1⟩)
    rw [heq, next_unique hnext hnext']

end Ready

/-! ## Steps that are no calls -/

theorem getLsbD_bit {w i : Nat} (hi : i < w) (j : Nat) :
    (1#w <<< i).getLsbD j = decide (j = i) := by
  rw [← BitVec.twoPow_eq, BitVec.getLsbD_twoPow, decide_eq_true hi, Bool.true_and]
  exact decide_eq_decide.mpr eq_comm

/-- A register without a line. -/
theorem getLsbD_clear {v : BitVec 8} (hi : i < 8) (j : Nat) :
    (v &&& ~~~(1#8 <<< i)).getLsbD j = true ↔ v.getLsbD j = true ∧ j ≠ i := by
  rw [BitVec.getLsbD_and, BitVec.getLsbD_not, getLsbD_bit hi]
  constructor
  · intro h
    simp only [Bool.and_eq_true, Bool.not_eq_true', decide_eq_false_iff_not] at h
    exact ⟨h.1, h.2.2⟩
  · rintro ⟨hv, hne⟩
    rw [hv, decide_eq_true (BitVec.lt_of_getLsbD hv), decide_eq_false hne]
    rfl

theorem signal_router (p : Pair) (s : Signals) : (p.signal s).router = p.router.signal s := by
  ext i
  · rfl
  · show i ∈ (p.signal s).router.pending ↔
      (i ∈ p.router.pending ∧ ¬ s.withdrawn.getLsbD i = true) ∨ (i ≠ 2 ∧ s.raised.getLsbD i = true)
    rw [mem_pending, mem_pending]
    show (i ≠ 2 ∧ (if i < 8 then (p.master.irr &&& ~~~s.withdrawn.setWidth 8 |||
        s.raised.setWidth 8).getLsbD i
      else (p.slave.irr &&& ~~~s.withdrawn.extractLsb' 8 8 |||
        s.raised.extractLsb' 8 8).getLsbD (i - 8)) = true) ↔ _
    by_cases hlt : i < 8
    · simp only [if_pos hlt, BitVec.getLsbD_or, BitVec.getLsbD_and, BitVec.getLsbD_not,
        BitVec.getLsbD_setWidth, decide_eq_true hlt]
      simp
      tauto
    · have hsum : 8 + (i - 8) = i := Nat.add_sub_cancel' (Nat.not_lt.mp hlt)
      simp only [if_neg hlt, BitVec.getLsbD_or, BitVec.getLsbD_and, BitVec.getLsbD_not,
        BitVec.getLsbD_extractLsb', hsum]
      by_cases h16 : i - 8 < 8
      · simp only [decide_eq_true h16]
        simp
        tauto
      · rw [BitVec.getLsbD_of_ge p.slave.irr _ (by omega),
          BitVec.getLsbD_of_ge s.raised _ (by omega)]
        simp [h16]
  · rfl

namespace Ready

theorem signal (h : p.Ready) (s : Signals) : (p.signal s).Ready where
  master := ⟨h.master.expects, h.master.base, h.master.cascade, h.master.auto, h.master.special⟩
  slave := ⟨h.slave.expects, h.slave.base, h.slave.cascade, h.slave.auto, h.slave.special⟩
  idle := h.idle

theorem taken (h : p.Ready) (i : Nat) : (p.taken i).Ready := by
  have hidle : ∀ i, (p.master.accept i).isr = 0 := by
    intro i
    show (if p.master.auto then p.master.isr else p.master.isr ||| 1#8 <<< i) = 0
    rw [if_pos h.master.auto, h.idle]
  unfold Pair.taken
  split_ifs
  · exact ⟨⟨h.master.expects, h.master.base, h.master.cascade, h.master.auto, h.master.special⟩,
      h.slave, hidle _⟩
  · exact ⟨⟨h.master.expects, h.master.base, h.master.cascade, h.master.auto, h.master.special⟩,
      ⟨h.slave.expects, h.slave.base, h.slave.cascade, h.slave.auto, h.slave.special⟩, hidle _⟩

theorem taken_router (h : p.Ready) (hi : i < 16) : (p.taken i).router = p.router.take i := by
  have hauto : ∀ i, (p.master.accept i).isr = p.master.isr := fun i => if_pos h.master.auto
  have hslave : ∀ i, (p.slave.accept i).isr = p.slave.isr ||| 1#8 <<< i :=
    fun i => if_neg (by rw [h.slave.auto]; exact Bool.false_ne_true)
  ext j
  · show j ∈ (p.taken i).router.enabled ↔ j ∈ p.router.enabled
    rw [mem_enabled, mem_enabled]
    unfold Pair.taken
    split_ifs <;> rfl
  · show j ∈ (p.taken i).router.pending ↔ j ∈ p.router.pending ∧ j ≠ i
    rw [mem_pending, mem_pending, and_assoc]
    refine and_congr_right fun hj2 => ?_
    unfold Pair.taken
    by_cases hi8 : i < 8
    · rw [if_pos hi8]
      by_cases hj8 : j < 8
      · rw [if_pos hj8, if_pos hj8]
        exact getLsbD_clear hi8 j
      · rw [if_neg hj8, if_neg hj8]
        exact ⟨fun hj => ⟨hj, by omega⟩, fun hj => hj.1⟩
    · rw [if_neg hi8]
      by_cases hj8 : j < 8
      · rw [if_pos hj8, if_pos hj8]
        exact (getLsbD_clear (by decide) j).trans
          ⟨fun hj => ⟨hj.1, by omega⟩, fun hj => ⟨hj.1, hj2⟩⟩
      · rw [if_neg hj8, if_neg hj8]
        refine (getLsbD_clear (by omega) (j - 8)).trans (and_congr_right fun _ => ?_)
        omega
  · show j ∈ (p.taken i).router.serving ↔ j ∈ p.router.serving ∨ (j = i ∧ 8 ≤ i)
    rw [mem_serving, mem_serving]
    unfold Pair.taken
    by_cases hi8 : i < 8
    · rw [if_pos hi8, hauto]
      exact ⟨.inl, fun hj => hj.elim id fun hj => absurd hi8 (Nat.not_lt.mpr hj.2)⟩
    · rw [if_neg hi8, hauto, hslave]
      by_cases hj8 : j < 8
      · rw [if_pos hj8, if_pos hj8]
        exact ⟨.inl, fun hj => hj.elim id fun hj => by omega⟩
      · rw [if_neg hj8, if_neg hj8, BitVec.getLsbD_or, getLsbD_bit (by omega), Bool.or_eq_true,
          decide_eq_true_eq]
        refine or_congr_right ?_
        omega

end Ready

end Pair

end Myos.Kernel.Pic
