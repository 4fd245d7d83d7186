import Myos.Lib.Loop
import Myos.Kernel.Blocks

/-!
# The drive behind its ports

`readblk` and `writeblk` of `kernel/ide.c` as they are: commands to the registers of the
drive, words of sectors through its data port, and a `wait` that polls the status register.

The drive is the one the ports are for. A command or a sector that went through makes it
busy for a while, and while it is busy it says so, takes no command and moves no data.
How long it is busy is up to the drive, and so is what the data port gives when nothing
is on offer (`Timing`); the clock counts the accesses to the ports. The commands are those
with block addresses, which are the ones the code gives.

After the sector the code reads the data port four times. These reads must not find the
next sector there, so between two sectors a drive has to be busy for so long
(`Timing.Patient`). What the drive is written it does not hand out again.

`ide_refines` is the connection to the file system's model of the disk: whatever the block
store of `Myos.Kernel.Fs` carries out, calls and memory accesses in any order, the code
with the ports carries out too, and it comes to the same memory and the same disk.
-/

namespace Myos.Kernel

open Myos.Lib

namespace Ide

/-! ## The drives -/

/-- What a drive does not promise: how many accesses it is busy for from a time on, and
what its data port gives at a time when nothing is on offer. -/
structure Timing where
  lag : Nat → Nat
  noise : Nat → Nat

/-- Between two sectors there is time for four reads. -/
def Timing.Patient (c : Timing) : Prop := ∀ time, 4 ≤ c.lag time

/-- What the data port is for. -/
inductive Phase where
  | idle
  /-- Sector `lba` of a drive is on offer, and `pos` bytes of it were taken. -/
  | reading (slave : Bool) (lba left pos : Nat)
  /-- Of sector `lba` of a drive `pos` bytes have come. -/
  | writing (slave : Bool) (lba left pos : Nat)

/-- The two drives of a channel, their registers, by the ports, and the sector that is
coming in. -/
structure Ata where
  disk : Bool → Mem
  reg : Nat → Nat
  phase : Phase
  buf : Mem
  clock : Nat
  /-- The time from which on it is not busy. -/
  ready : Nat

namespace Ata

/-- The drive goes on to a phase, after being busy. -/
def begin (c : Timing) (d : Ata) (p : Phase) : Ata :=
  { d with phase := p, ready := d.clock + 1 + c.lag d.clock }

/-- The sector the registers name: 28 bits. -/
def lba (d : Ata) : Nat :=
  d.reg 0x1F3 + 2 ^ 8 * d.reg 0x1F4 + 2 ^ 16 * d.reg 0x1F5 + 2 ^ 24 * (d.reg 0x1F6 % 2 ^ 4)

/-- How many sectors the registers name. -/
def count (d : Ata) : Nat := if d.reg 0x1F2 = 0 then 256 else d.reg 0x1F2

/-- A byte for one of the other registers. -/
def setReg (d : Ata) (port value : Nat) : Ata :=
  { d with reg := Function.update d.reg port value }

/-- A command, with block addresses: sectors to read, or to write. -/
def command (c : Timing) (d : Ata) (value : Nat) : Ata :=
  if (d.reg 0x1F6).testBit 6 then
    if value = 0x20 then d.begin c (.reading ((d.reg 0x1F6).testBit 4) d.lba d.count 0)
    else if value = 0x30 then d.begin c (.writing ((d.reg 0x1F6).testBit 4) d.lba d.count 0)
    else d
  else d

/-- A byte for a port. -/
def write (c : Timing) (d : Ata) (port value : Nat) : Ata :=
  if d.clock < d.ready then d
  else if port = 0x1F7 then d.command c value
  else d.setReg port value

/-- The status register: busy, or not, and then with data to move or not. -/
def status (d : Ata) : Nat :=
  if d.clock < d.ready then 0x80
  else match d.phase with
    | .idle => 0x40
    | .reading .. => 0x48
    | .writing .. => 0x48

/-- A word from the data port. -/
def take (c : Timing) (d : Ata) : Nat × Ata :=
  if d.clock < d.ready then (c.noise d.clock % 2 ^ 16, d)
  else match d.phase with
    | .reading slave lba left pos =>
      ((d.disk slave (512 * lba + pos)).toNat + 2 ^ 8 * (d.disk slave (512 * lba + pos + 1)).toNat,
        if pos + 2 < 512 then { d with phase := .reading slave lba left (pos + 2) }
        else if left = 1 then { d with phase := .idle }
        else d.begin c (.reading slave (lba + 1) (left - 1) 0))
    | .idle => (c.noise d.clock % 2 ^ 16, d)
    | .writing .. => (c.noise d.clock % 2 ^ 16, d)

/-- The bytes that have come for the sector, with a word more. -/
def bufWith (d : Ata) (pos w : Nat) : Mem :=
  Function.update (Function.update d.buf pos (UInt8.ofNat (w % 2 ^ 8))) (pos + 1)
    (UInt8.ofNat (w / 2 ^ 8))

/-- A word for the data port. The sector is on the disk when all of it has come. -/
def put (c : Timing) (d : Ata) (w : Nat) : Ata :=
  if d.clock < d.ready then d
  else match d.phase with
    | .writing slave lba left pos =>
      let d := { d with buf := d.bufWith pos w }
      if pos + 2 < 512 then { d with phase := .writing slave lba left (pos + 2) }
      else
        let d := { d with
          disk := Function.update d.disk slave ((d.disk slave).overlay (512 * lba) 512 d.buf) }
        if left = 1 then d.begin c .idle else d.begin c (.writing slave (lba + 1) (left - 1) 0)
    | .idle => d
    | .reading .. => d

/-- An access was made. -/
def tick (d : Ata) : Ata := { d with clock := d.clock + 1 }

end Ata

/-! ## The ports -/

section Ports

variable (c : Timing)

/-- `outb`. -/
def outb (port value : Nat) : Act Ata Unit :=
  Act.modify fun d => (d.write c port (value % 2 ^ 8)).tick

/-- `inb`: the status register, or a byte of the data port. -/
def inb (port : Nat) : Act Ata Nat := fun d =>
  if port = 0x1F7 then .ok d.status d.tick
  else if port = 0x1F0 then .ok ((d.take c).1 % 2 ^ 8) (d.take c).2.tick
  else .ok (c.noise d.clock % 2 ^ 8) d.tick

/-- A word in, through the data port. -/
def inw : Act Ata Nat := fun d => .ok (d.take c).1 (d.take c).2.tick

/-- A word out. -/
def outw (w : Nat) : Act Ata Unit := Act.modify fun d => (d.put c w).tick

/-! ## `ide.c` -/

/-- The memory, and the drives. -/
structure Host where
  mm : Mm
  ata : Ata

/-- Accesses to the ports. -/
def onAta {α : Type} (x : Act Ata α) : Act Host α :=
  Act.zoom Host.ata (fun d h => { h with ata := d }) x

/-- Accesses to the memory. -/
def onMm {α : Type} (x : Act Mm α) : Act Host α :=
  Act.zoom Host.mm (fun m h => { h with mm := m }) x

/-- `wait`, with so many turns. -/
def wait (t : Nat) : Act Ata Unit :=
  Act.whileLoop (do return decide ((← inb c 0x1f7) &&& 0x80 ≠ 0)) (return ()) t

/-- `insw(0x1F0, dest, n)`. -/
def insw (dest : Nat) : Nat → Act Host Unit
  | 0 => return ()
  | n + 1 => do
    let w ← onAta (inw c)
    onMm (store 1 dest (w % 2 ^ 8))
    onMm (store 1 (dest + 1) (w / 2 ^ 8))
    insw (dest + 2) n

/-- `outsw(0x1F0, src, n)`. -/
def outsw (src : Nat) : Nat → Act Host Unit
  | 0 => return ()
  | n + 1 => do
    let low ← onMm (load 1 src)
    let high ← onMm (load 1 (src + 1))
    onAta (outw c (low + 2 ^ 8 * high))
    outsw (src + 2) n

/-- The four reads of the data port after a sector. -/
def settle : Act Ata Unit := do
  let _ ← inb c 0x1f0
  let _ ← inb c 0x1f0
  let _ ← inb c 0x1f0
  let _ ← inb c 0x1f0

/-- The body of the loop of `readblk`. -/
def readSector (t dest : Nat) : Act Host Unit := do
  onAta (wait c t)
  insw c dest 256
  onAta (settle c)
  onAta (wait c t)

/-- The loop of `readblk`. -/
def readLoop (t : Nat) : Nat → Nat → Act Host Unit
  | _, 0 => return ()
  | dest, count + 1 => do
    readSector c t dest
    readLoop t (dest + 512) count

/-- `readblk`. -/
def readblk (t dest lba count : Nat) : Act Host Unit := do
  onAta (outb c 0x1F1 0x00)
  onAta (outb c 0x1F2 count)
  onAta (outb c 0x1F3 lba)
  onAta (outb c 0x1F4 (lba >>> 8))
  onAta (outb c 0x1F5 (lba >>> 16))
  onAta (outb c 0x1F6 (0xF0 ||| ((lba >>> 24) &&& 0x0F)))
  onAta (outb c 0x1F7 0x20)
  readLoop c t dest count

/-- The body of the loop of `writeblk`. -/
def writeSector (t buf : Nat) : Act Host Unit := do
  onAta (wait c t)
  outsw c buf 256
  onAta (settle c)
  onAta (wait c t)

/-- The loop of `writeblk`. -/
def writeLoop (t : Nat) : Nat → Nat → Act Host Unit
  | _, 0 => return ()
  | buf, count + 1 => do
    writeSector c t buf
    writeLoop t (buf + 512) count

/-- `writeblk`. -/
def writeblk (t buf lba count : Nat) : Act Host Unit := do
  onAta (outb c 0x1F6 (0xF0 ||| ((lba >>> 24) &&& 0x0F)))
  onAta (outb c 0x1F1 0x00)
  onAta (outb c 0x1F2 count)
  onAta (outb c 0x1F3 lba)
  onAta (outb c 0x1F4 (lba >>> 8))
  onAta (outb c 0x1F5 (lba >>> 16))
  onAta (outb c 0x1F7 0x30)
  writeLoop c t buf count

end Ports

theorem onMm_ok {α : Type} {x : Act Mm α} {h : Host} {a : α} {m : Mm} (hx : x h.mm = .ok a m) :
    onMm x h = .ok a ⟨m, h.ata⟩ := Act.zoom_ok hx

theorem onAta_ok {α : Type} {x : Act Ata α} {h : Host} {a : α} {d : Ata} (hx : x h.ata = .ok a d) :
    onAta x h = .ok a ⟨h.mm, d⟩ := Act.zoom_ok hx

/-! ## What an access comes to -/

section Accesses

variable {c : Timing} {d : Ata}

/-- The busy bit. -/
theorem Ata.status_busy : d.status &&& 0x80 ≠ 0 ↔ d.clock < d.ready := by
  unfold Ata.status
  split
  · next hbusy => exact ⟨fun _ => hbusy, fun _ => by decide⟩
  · next hbusy =>
    have hclear : (match d.phase with
      | .idle => 0x40
      | .reading .. => 0x48
      | .writing .. => 0x48) &&& 0x80 = 0 := by
      cases d.phase with
      | idle => rfl
      | reading => exact (by decide : 0x48 &&& 0x80 = 0)
      | writing => exact (by decide : 0x48 &&& 0x80 = 0)
    exact ⟨fun hset => absurd hclear hset, fun h => absurd h hbusy⟩

/-- WAIT: it ends when the drive is not busy, however long that takes. -/
theorem wait_settles (d : Ata) :
    Act.Settles (wait c) d () { d with clock := max d.ready d.clock + 1 } := by
  have hpoll : ∀ d : Ata, (do return decide ((← inb c 0x1f7) &&& 0x80 ≠ 0) : Act Ata Bool) d =
      .ok (decide (d.clock < d.ready)) d.tick := fun d => by
    rw [Act.bind_ok (show inb c 0x1f7 d = .ok d.status d.tick from if_pos rfl),
      Act.pure_apply, decide_eq_decide.mpr d.status_busy]
  -- on how long it is busy
  induction hk : d.ready - d.clock generalizing d with
  | zero =>
    have hready : ¬ d.clock < d.ready := by omega
    have hdone := hpoll d
    rw [decide_eq_false hready] at hdone
    rw [Ata.tick, show d.clock + 1 = max d.ready d.clock + 1 by omega] at hdone
    exact Act.Settles.done hdone
  | succ k ih =>
    have hbusy : d.clock < d.ready := by omega
    have hturn := hpoll d
    rw [decide_eq_true hbusy] at hturn
    have hrest := ih d.tick (by
      show d.ready - (d.clock + 1) = k
      omega)
    have hrun := Act.Settles.turn hturn (Act.pure_apply () _) hrest
    rwa [show ({ d.tick with clock := max d.tick.ready d.tick.clock + 1 } : Ata) =
      { d with clock := max d.ready d.clock + 1 } by
        show ({ d with clock := max d.ready (d.clock + 1) + 1 } : Ata) = _
        rw [show max d.ready (d.clock + 1) = max d.ready d.clock by omega]] at hrun

/-- The data port has something to hand out. -/
def Phase.offers : Phase → Bool
  | .reading .. => true
  | .idle => false
  | .writing .. => false

/-- Where nothing is handed out a read of the data port takes nothing. -/
theorem Ata.take_still (h : d.phase.offers → d.clock < d.ready) : (d.take c).2 = d := by
  unfold Ata.take
  split
  · rfl
  · next hbusy =>
    cases hphase : d.phase with
    | idle => rfl
    | writing slave lba left pos => rfl
    | reading slave lba left pos => exact absurd (h (by rw [hphase]; rfl)) hbusy

theorem inb_still (h : d.phase.offers → d.clock < d.ready) :
    inb c 0x1f0 d = .ok ((d.take c).1 % 2 ^ 8) d.tick := by
  show Res.ok _ (d.take c).2.tick = _
  rw [Ata.take_still h]

/-- SETTLE: four reads that take nothing. -/
theorem settle_still (h : d.phase.offers → d.clock + 4 ≤ d.ready) :
    settle c d = .ok () { d with clock := d.clock + 4 } := by
  have hread : ∀ k < 4, ({ d with clock := d.clock + k } : Ata).phase.offers →
      d.clock + k < d.ready := fun k hk hoffers => by
    have := h hoffers
    omega
  unfold settle
  rw [Act.bind_ok (inb_still (d := d) (hread 0 (by decide))),
    Act.bind_ok (inb_still (d := d.tick) (hread 1 (by decide))),
    Act.bind_ok (inb_still (d := d.tick.tick) (hread 2 (by decide))),
    Act.bind_ok (inb_still (d := d.tick.tick.tick) (hread 3 (by decide)))]
  rfl

end Accesses

/-! ## A sector in -/

section Reads

variable {c : Timing} {d : Ata} {s s' : Fs} {slave : Bool} {dest src lba left pos n : Nat}

/-- A load leaves the memory as it was. -/
theorem load_same {m m' : Mm} {n va v : Nat} (h : load n va m = .ok v m') : m' = m := by
  unfold load at h
  split at h
  · cases h
    rfl
  · cases h

/-- A byte of the disk, and the rest. -/
theorem diskIn_succ (h : diskIn dest pos (n + 1) s = .ok () s') :
    ∃ m, store 1 dest (s.disk pos).toNat s.mm = .ok () m ∧
      diskIn (dest + 1) (pos + 1) n (Fs.setMm m s) = .ok () s' := by
  rw [diskIn, Act.gets_bind_apply] at h
  obtain ⟨u, s₁, hstore, hrest⟩ := Act.bind_eq_ok.mp h
  obtain ⟨m, hm, rfl⟩ := Act.zoom_eq_ok.mp hstore
  exact ⟨m, hm, hrest⟩

/-- The disk is only read. -/
theorem diskIn_disk (h : diskIn dest pos n s = .ok () s') : s'.disk = s.disk := by
  induction n generalizing dest pos s with
  | zero =>
    cases h
    rfl
  | succ n ih =>
    obtain ⟨m, -, hrest⟩ := diskIn_succ h
    exact (ih hrest).trans (Fs.setMm_disk m s)

/-- So many bytes, and then the rest. -/
theorem diskIn_add {k : Nat} (h : diskIn dest pos (n + k) s = .ok () s') :
    ∃ s₁, diskIn dest pos n s = .ok () s₁ ∧ diskIn (dest + n) (pos + n) k s₁ = .ok () s' := by
  induction n generalizing dest pos s with
  | zero =>
    rw [Nat.zero_add] at h
    exact ⟨s, rfl, h⟩
  | succ n ih =>
    rw [Nat.succ_add] at h
    obtain ⟨m, hm, hrest⟩ := diskIn_succ h
    obtain ⟨s₁, hfirst, hlast⟩ := ih hrest
    refine ⟨s₁, ?_, ?_⟩
    · rw [diskIn, Act.gets_bind_apply, Act.bind_ok (fsMm_ok hm)]
      exact hfirst
    · rwa [Nat.add_assoc, Nat.add_comm 1 n, Nat.add_assoc, Nat.add_comm 1 n] at hlast

/-- A word of a sector, which is not the last one. -/
theorem inw_next (hready : d.ready ≤ d.clock) (hphase : d.phase = .reading slave lba left pos)
    (hpos : pos + 2 < 512) :
    inw c d = .ok
      ((d.disk slave (512 * lba + pos)).toNat + 2 ^ 8 * (d.disk slave (512 * lba + pos + 1)).toNat)
      { d with phase := .reading slave lba left (pos + 2), clock := d.clock + 1 } := by
  unfold inw Ata.take
  rw [if_neg (Nat.not_lt.mpr hready), hphase]
  dsimp only
  rw [if_pos hpos]
  rfl

/-- What the drive goes on to after a sector that was read. -/
def Ata.afterRead (c : Timing) (d : Ata) (slave : Bool) (lba left : Nat) : Ata :=
  if left = 1 then { d with phase := .idle }
  else d.begin c (.reading slave (lba + 1) (left - 1) 0)

/-- The last word of a sector. -/
theorem inw_last (hready : d.ready ≤ d.clock) (hphase : d.phase = .reading slave lba left 510) :
    inw c d = .ok
      ((d.disk slave (512 * lba + 510)).toNat + 2 ^ 8 * (d.disk slave (512 * lba + 510 + 1)).toNat)
      (d.afterRead c slave lba left).tick := by
  unfold inw Ata.take
  rw [if_neg (Nat.not_lt.mpr hready), hphase]
  dsimp only
  rw [if_neg (by decide)]
  rfl

/-- A word that came, stored. -/
theorem insw_word {d' : Ata} {m m' : Mm} {low high : UInt8}
    (hin : inw c d = .ok (low.toNat + 2 ^ 8 * high.toNat) d')
    (hlow : store 1 dest low.toNat s.mm = .ok () m)
    (hhigh : store 1 (dest + 1) high.toNat m = .ok () m') :
    insw c dest (n + 1) ⟨s.mm, d⟩ = insw c (dest + 2) n ⟨m', d'⟩ := by
  have hl := low.toNat_lt
  have hdigit : (low.toNat + 2 ^ 8 * high.toNat) % 2 ^ 8 = low.toNat ∧
      (low.toNat + 2 ^ 8 * high.toNat) / 2 ^ 8 = high.toNat := by omega
  rw [insw, Act.bind_ok (onAta_ok (h := ⟨s.mm, d⟩) hin), hdigit.1, hdigit.2,
    Act.bind_ok (onMm_ok (h := ⟨s.mm, d'⟩) hlow), Act.bind_ok (onMm_ok (h := ⟨m, d'⟩) hhigh)]

/-- INSW: the words up to the end of a sector are the bytes of the disk. -/
theorem insw_run (hready : d.ready ≤ d.clock) (hphase : d.phase = .reading slave lba left pos)
    (hpos : pos + 2 * (n + 1) = 512) (hdisk : s.disk = d.disk slave)
    (hin : diskIn dest (512 * lba + pos) (2 * (n + 1)) s = .ok () s') :
    insw c dest (n + 1) ⟨s.mm, d⟩ =
      .ok () ⟨s'.mm, ({ d with clock := d.clock + n }.afterRead c slave lba left).tick⟩ := by
  -- on the words that are left, from the one that is next
  induction n generalizing pos dest s d with
  | zero =>
    obtain rfl : pos = 510 := by omega
    obtain ⟨m, hlow, hin⟩ := diskIn_succ hin
    obtain ⟨m', hhigh, hin⟩ := diskIn_succ hin
    cases hin
    rw [hdisk] at hlow
    rw [Fs.setMm_disk, hdisk] at hhigh
    rw [insw_word (inw_last hready hphase) hlow hhigh]
    rfl
  | succ n ih =>
    obtain ⟨m, hlow, hin⟩ := diskIn_succ hin
    obtain ⟨m', hhigh, hin⟩ := diskIn_succ hin
    rw [hdisk] at hlow
    rw [Fs.setMm_disk, hdisk] at hhigh
    rw [insw_word (inw_next hready hphase (by omega)) hlow hhigh]
    have hrest := ih
      (d := { d with phase := .reading slave lba left (pos + 2), clock := d.clock + 1 })
      (s := Fs.setMm m' (Fs.setMm m s))
      (Nat.le_succ_of_le hready) rfl (by omega) hdisk hin
    refine hrest.trans ?_
    have hclock : d.clock + 1 + n = d.clock + (n + 1) := by omega
    unfold Ata.afterRead
    dsimp only
    split
    · rw [hclock]
    · unfold Ata.begin
      dsimp only
      rw [hclock]

theorem wait_host (m : Mm) (d : Ata) : Act.Settles (fun t => onAta (wait c t)) ⟨m, d⟩ ()
    ⟨m, { d with clock := max d.ready d.clock + 1 }⟩ := by
  obtain ⟨lower, hwait⟩ := wait_settles (c := c) d
  exact ⟨lower, fun t ht => onAta_ok (h := ⟨m, d⟩) (hwait t ht)⟩

/-- The end of a sector: four reads that take nothing, and a wait. -/
theorem settle_wait {m : Mm} (h : d.phase.offers → d.clock + 4 ≤ d.ready) :
    Act.Settles (fun t => (do onAta (settle c); onAta (wait c t))) ⟨m, d⟩ ()
      ⟨m, { d with clock := max d.ready (d.clock + 4) + 1 }⟩ :=
  Act.Settles.bind (Act.Settles.of_ok (onAta_ok (h := ⟨m, d⟩) (settle_still h)))
    (wait_host m { d with clock := d.clock + 4 })

/-- What the drive is at with so many sectors to read. -/
def Phase.toRead (slave : Bool) (lba left : Nat) : Phase :=
  if left = 0 then .idle else .reading slave lba left 0

/-- A SECTOR IN: it is the bytes of the disk, and the next one is untouched. -/
theorem readSector_settles (hc : c.Patient) (hphase : d.phase = .toRead slave lba (n + 1))
    (hdisk : s.disk = d.disk slave) (hin : diskIn dest (512 * lba) 512 s = .ok () s') :
    ∃ d', Act.Settles (fun t => readSector c t dest) ⟨s.mm, d⟩ () ⟨s'.mm, d'⟩ ∧
      d'.disk = d.disk ∧ d'.ready ≤ d'.clock ∧ d'.phase = .toRead slave (lba + 1) n := by
  have hreading : d.phase = .reading slave lba (n + 1) 0 := hphase
  have hinsw := insw_run (c := c) (d := { d with clock := max d.ready d.clock + 1 }) (n := 255)
    (Nat.le_succ_of_le (Nat.le_max_left _ _)) hreading (by decide) hdisk hin
  generalize htime : ({ d with clock := max d.ready d.clock + 1 + 255 } : Ata) = d₁ at hinsw
  have hstill : (d₁.afterRead c slave lba (n + 1)).tick.phase.offers →
      (d₁.afterRead c slave lba (n + 1)).tick.clock + 4 ≤
        (d₁.afterRead c slave lba (n + 1)).tick.ready := by
    have hlag := hc d₁.clock
    intro hoffers
    unfold Ata.afterRead at hoffers ⊢
    split at hoffers
    · exact absurd hoffers Bool.false_ne_true
    · next hn =>
      rw [if_neg hn]
      show d₁.clock + 1 + 4 ≤ d₁.clock + 1 + c.lag d₁.clock
      omega
  refine ⟨_, Act.Settles.bind (wait_host s.mm d)
    (Act.Settles.bind (Act.Settles.of_ok hinsw) (settle_wait hstill)), ?_, ?_, ?_⟩
  · subst htime
    unfold Ata.afterRead
    split <;> rfl
  · exact Nat.le_succ_of_le (Nat.le_max_left _ _)
  · show (d₁.afterRead c slave lba (n + 1)).phase = _
    unfold Ata.afterRead Phase.toRead
    by_cases hn : n = 0
    · rw [if_pos (by omega), if_pos hn]
    · rw [if_neg (by omega), if_neg hn]
      rfl

/-- READ: the loop brings the sectors the drive was told to. -/
theorem readLoop_settles {count : Nat} (hc : c.Patient) (hphase : d.phase = .toRead slave lba count)
    (hcount : count = 0 → d.ready ≤ d.clock) (hdisk : s.disk = d.disk slave)
    (hin : diskIn dest (512 * lba) (512 * count) s = .ok () s') :
    ∃ d', Act.Settles (fun t => readLoop c t dest count) ⟨s.mm, d⟩ () ⟨s'.mm, d'⟩ ∧
      d'.disk = d.disk ∧ d'.ready ≤ d'.clock ∧ d'.phase = .idle := by
  induction count generalizing dest lba s d with
  | zero =>
    cases hin
    exact ⟨d, Act.Settles.of_ok rfl, rfl, hcount rfl, hphase⟩
  | succ count ih =>
    rw [Nat.mul_succ, Nat.add_comm] at hin
    obtain ⟨s₁, hfirst, hrest⟩ := diskIn_add hin
    obtain ⟨d₁, hsector, hdisk₁, hready₁, hphase₁⟩ := readSector_settles hc hphase hdisk hfirst
    have hnext : s₁.disk = d₁.disk slave := by rw [diskIn_disk hfirst, hdisk₁, hdisk]
    obtain ⟨d', hloop, hdisk', hready', hidle⟩ := ih hphase₁ (fun _ => hready₁) hnext hrest
    exact ⟨d', Act.Settles.bind hsector hloop, hdisk'.trans hdisk₁, hready', hidle⟩

end Reads

/-! ## A sector out -/

section Writes

variable {c : Timing} {d : Ata} {s s' : Fs} {slave : Bool} {src lba left pos n : Nat}

/-- A byte for the disk, and the rest. -/
theorem diskOut_succ (h : diskOut src pos (n + 1) s = .ok () s') :
    ∃ b, b < 2 ^ 8 ∧ load 1 src s.mm = .ok b s.mm ∧
      diskOut (src + 1) (pos + 1) n
        (s.setDisk (Function.update s.disk pos (UInt8.ofNat b))) = .ok () s' := by
  rw [diskOut] at h
  obtain ⟨b, s₁, hload, hrest⟩ := Act.bind_eq_ok.mp h
  obtain ⟨m, hm, rfl⟩ := Act.zoom_eq_ok.mp hload
  obtain rfl := load_same hm
  rw [Act.modify_bind_apply] at hrest
  refine ⟨b, ?_, hm, hrest⟩
  unfold load at hm
  split at hm
  · cases hm
    exact Mem.rd_lt 1 _ _
  · cases hm

/-- The memory is only read. -/
theorem diskOut_mm (h : diskOut src pos n s = .ok () s') : s'.mm = s.mm := by
  induction n generalizing src pos s with
  | zero =>
    cases h
    rfl
  | succ n ih =>
    obtain ⟨b, -, -, hrest⟩ := diskOut_succ h
    exact (ih hrest).trans (Fs.setDisk_mm s _)

/-- So many bytes, and then the rest. -/
theorem diskOut_add {k : Nat} (h : diskOut src pos (n + k) s = .ok () s') :
    ∃ s₁, diskOut src pos n s = .ok () s₁ ∧ diskOut (src + n) (pos + n) k s₁ = .ok () s' := by
  induction n generalizing src pos s with
  | zero =>
    rw [Nat.zero_add] at h
    exact ⟨s, rfl, h⟩
  | succ n ih =>
    rw [Nat.succ_add] at h
    obtain ⟨b, -, hb, hrest⟩ := diskOut_succ h
    obtain ⟨s₁, hfirst, hlast⟩ := ih hrest
    refine ⟨s₁, ?_, ?_⟩
    · rw [diskOut, Act.bind_ok (fsMm_ok hb), Act.modify_bind_apply]
      exact hfirst
    · rwa [Nat.add_assoc, Nat.add_comm 1 n, Nat.add_assoc, Nat.add_comm 1 n] at hlast

/-- What has come for a sector laid over the disk, and a byte more. -/
theorem overlay_snoc (m f : Mem) (a n : Nat) (b : UInt8) :
    Function.update (m.overlay a n f) (a + n) b = m.overlay a (n + 1) (Function.update f n b) := by
  funext x
  by_cases hx : x = a + n
  · subst hx
    rw [Function.update_self, Mem.overlay_in (by omega), Nat.add_sub_cancel_left,
      Function.update_self]
  · rw [Function.update_of_ne hx]
    by_cases hin : a ≤ x ∧ x < a + n
    · rw [Mem.overlay_in hin, Mem.overlay_in (by omega), Function.update_of_ne (by omega)]
    · rw [Mem.overlay_out (by omega), Mem.overlay_out (by omega)]

/-- And a word more. -/
theorem overlay_word {low high : Nat} (hlow : low < 2 ^ 8) (m : Mem) (a : Nat) :
    Function.update (Function.update (m.overlay a pos d.buf) (a + pos) (UInt8.ofNat low))
      (a + pos + 1) (UInt8.ofNat high) =
      m.overlay a (pos + 2) (d.bufWith pos (low + 2 ^ 8 * high)) := by
  have hdigit : (low + 2 ^ 8 * high) % 2 ^ 8 = low ∧ (low + 2 ^ 8 * high) / 2 ^ 8 = high := by omega
  rw [overlay_snoc, Nat.add_assoc, overlay_snoc, Ata.bufWith, hdigit.1, hdigit.2]

/-- What the drive is at with so many sectors to come. -/
def Phase.toWrite (slave : Bool) (lba left : Nat) : Phase :=
  if left = 0 then .idle else .writing slave lba left 0

/-- A word of a sector, which is not the last one. -/
theorem outw_next {w : Nat} (hready : d.ready ≤ d.clock)
    (hphase : d.phase = .writing slave lba left pos) (hpos : pos + 2 < 512) :
    outw c w d = .ok ()
      { d with
        phase := .writing slave lba left (pos + 2)
        buf := d.bufWith pos w
        clock := d.clock + 1 } := by
  unfold outw Ata.put
  rw [Act.modify_apply, if_neg (Nat.not_lt.mpr hready), hphase]
  dsimp only
  rw [if_pos hpos]
  rfl

/-- The last word: the sector is on the disk. -/
theorem outw_last {w : Nat} (hready : d.ready ≤ d.clock)
    (hphase : d.phase = .writing slave lba (n + 1) 510) :
    ∃ d', outw c w d = .ok () d' ∧
      d'.disk = Function.update d.disk slave
        ((d.disk slave).overlay (512 * lba) 512 (d.bufWith 510 w)) ∧
      d'.phase = .toWrite slave (lba + 1) n := by
  unfold outw Ata.put
  rw [Act.modify_apply, if_neg (Nat.not_lt.mpr hready), hphase]
  dsimp only
  rw [if_neg (by decide)]
  refine ⟨_, rfl, ?_, ?_⟩
  · split <;> rfl
  · unfold Phase.toWrite
    by_cases hn : n = 0
    · rw [if_pos (by omega), if_pos hn]
      rfl
    · rw [if_neg (by omega), if_neg hn]
      rfl

/-- A word that was loaded, sent. -/
theorem outsw_word {d' : Ata} {m : Mm} {low high : Nat} (hlow : load 1 src m = .ok low m)
    (hhigh : load 1 (src + 1) m = .ok high m)
    (hout : outw c (low + 2 ^ 8 * high) d = .ok () d') :
    outsw c src (n + 1) ⟨m, d⟩ = outsw c (src + 2) n ⟨m, d'⟩ := by
  rw [outsw, Act.bind_ok (onMm_ok (h := ⟨m, d⟩) hlow),
    Act.bind_ok (onMm_ok (h := ⟨m, d⟩) hhigh), Act.bind_ok (onAta_ok (h := ⟨m, d⟩) hout)]

/-- OUTSW: with its last words a sector is on the disk as the block store has it. -/
theorem outsw_run {k : Nat} (hready : d.ready ≤ d.clock)
    (hphase : d.phase = .writing slave lba (k + 1) pos) (hpos : pos + 2 * (n + 1) = 512)
    (hdisk : s.disk = (d.disk slave).overlay (512 * lba) pos d.buf)
    (hout : diskOut src (512 * lba + pos) (2 * (n + 1)) s = .ok () s') :
    ∃ d', outsw c src (n + 1) ⟨s.mm, d⟩ = .ok () ⟨s.mm, d'⟩ ∧
      d'.disk = Function.update d.disk slave s'.disk ∧ d'.phase = .toWrite slave (lba + 1) k := by
  -- on the words that are left, from the one that is next
  induction n generalizing pos src s d with
  | zero =>
    obtain rfl : pos = 510 := by omega
    obtain ⟨low, hl, hlow, hout⟩ := diskOut_succ hout
    obtain ⟨high, -, hhigh, hout⟩ := diskOut_succ hout
    cases hout
    obtain ⟨d', hword, hdisk', hphase'⟩ := outw_last (w := low + 2 ^ 8 * high) hready hphase
    refine ⟨d', ?_, ?_, hphase'⟩
    · exact outsw_word hlow hhigh hword
    · rw [hdisk', Fs.setDisk_disk, Fs.setDisk_disk, hdisk, overlay_word hl]
  | succ n ih =>
    obtain ⟨low, hl, hlow, hout⟩ := diskOut_succ hout
    obtain ⟨high, -, hhigh, hout⟩ := diskOut_succ hout
    have hword := outw_next (c := c) (w := low + 2 ^ 8 * high) hready hphase (by omega)
    generalize hd₁ : ({ d with
      phase := .writing slave lba (k + 1) (pos + 2)
      buf := d.bufWith pos (low + 2 ^ 8 * high)
      clock := d.clock + 1 } : Ata) = d₁ at hword
    obtain ⟨d', hrun, hdisk', hphase'⟩ := @ih d₁ ((s.setDisk _).setDisk _) (src + 2) (pos + 2)
      (by subst hd₁; exact Nat.le_succ_of_le hready) (by subst hd₁; rfl) (by omega)
      (by
        subst hd₁
        rw [Fs.setDisk_disk, Fs.setDisk_disk, hdisk, overlay_word hl])
      hout
    refine ⟨d', ?_, ?_, hphase'⟩
    · exact (outsw_word hlow hhigh hword).trans hrun
    · subst hd₁
      exact hdisk'

/-- A SECTOR OUT: it is on the disk, and the drive waits for the next one. -/
theorem writeSector_settles (hphase : d.phase = .toWrite slave lba (n + 1))
    (hdisk : s.disk = d.disk slave) (hout : diskOut src (512 * lba) 512 s = .ok () s') :
    ∃ d', Act.Settles (fun t => writeSector c t src) ⟨s.mm, d⟩ () ⟨s.mm, d'⟩ ∧
      d'.disk = Function.update d.disk slave s'.disk ∧ d'.ready ≤ d'.clock ∧
      d'.phase = .toWrite slave (lba + 1) n := by
  have hlaid : s.disk = (d.disk slave).overlay (512 * lba) 0 d.buf := by
    rw [hdisk]
    funext x
    exact (Mem.overlay_out (by omega)).symm
  have hwriting : d.phase = .writing slave lba (n + 1) 0 := hphase
  obtain ⟨d₁, houtsw, hdisk₁, hphase₁⟩ := outsw_run (c := c)
    (d := { d with clock := max d.ready d.clock + 1 }) (n := 255)
    (Nat.le_succ_of_le (Nat.le_max_left _ _)) hwriting (by decide) hlaid hout
  have hstill : d₁.phase.offers → d₁.clock + 4 ≤ d₁.ready := by
    rw [hphase₁, Phase.toWrite]
    intro hoffers
    split at hoffers <;> exact absurd hoffers Bool.false_ne_true
  refine ⟨_, Act.Settles.bind (wait_host s.mm d)
    (Act.Settles.bind (Act.Settles.of_ok houtsw) (settle_wait hstill)), hdisk₁, ?_, hphase₁⟩
  exact Nat.le_succ_of_le (Nat.le_max_left _ _)

/-- WRITE: the loop puts the sectors where the drive was told to. -/
theorem writeLoop_settles {count : Nat} (hphase : d.phase = .toWrite slave lba count)
    (hcount : count = 0 → d.ready ≤ d.clock) (hdisk : s.disk = d.disk slave)
    (hout : diskOut src (512 * lba) (512 * count) s = .ok () s') :
    ∃ d', Act.Settles (fun t => writeLoop c t src count) ⟨s.mm, d⟩ () ⟨s.mm, d'⟩ ∧
      d'.disk = Function.update d.disk slave s'.disk ∧ d'.ready ≤ d'.clock ∧ d'.phase = .idle := by
  induction count generalizing src lba s d with
  | zero =>
    cases hout
    refine ⟨d, Act.Settles.of_ok rfl, ?_, hcount rfl, hphase⟩
    rw [hdisk, Function.update_eq_self]
  | succ count ih =>
    rw [Nat.mul_succ, Nat.add_comm] at hout
    obtain ⟨s₁, hfirst, hrest⟩ := diskOut_add hout
    obtain ⟨d₁, hsector, hdisk₁, hready₁, hphase₁⟩ :=
      writeSector_settles (c := c) hphase hdisk hfirst
    have hnext : s₁.disk = d₁.disk slave := by rw [hdisk₁, Function.update_self]
    obtain ⟨d', hloop, hdisk', hready', hidle⟩ := ih hphase₁ (fun _ => hready₁) hnext hrest
    rw [diskOut_mm hfirst] at hloop
    refine ⟨d', Act.Settles.bind hsector hloop, ?_, hready', hidle⟩
    rw [hdisk', hdisk₁, Function.update_idem]

end Writes

/-! ## The commands -/

section Commands

variable {c : Timing} {d : Ata} {m : Mm} {dest src lba count : Nat}

/-- A command is given. -/
theorem outb_command {value : Nat} (hready : d.ready ≤ d.clock) (hvalue : value < 2 ^ 8) :
    onAta (outb c 0x1F7 value) ⟨m, d⟩ = .ok () ⟨m, (d.command c value).tick⟩ := by
  refine onAta_ok (h := ⟨m, d⟩) ?_
  rw [outb, Act.modify_apply, Ata.write, if_neg (Nat.not_lt.mpr hready), if_pos rfl,
    Nat.mod_eq_of_lt hvalue]

/-- Registers set one after another. -/
def Ata.setRegs (d : Ata) (regs : List (Nat × Nat)) : Ata :=
  regs.foldl (fun d r => (d.setReg r.1 (r.2 % 2 ^ 8)).tick) d

/-- The drive takes them and then the command. -/
theorem outb_regs {regs : List (Nat × Nat)} {value : Nat} {x : Act Host Unit}
    (hready : d.ready ≤ d.clock) (hport : ∀ r ∈ regs, r.1 ≠ 0x1F7) (hvalue : value < 2 ^ 8) :
    regs.foldr (fun r y => onAta (outb c r.1 r.2) >>= fun _ => y)
        (do onAta (outb c 0x1F7 value); x) ⟨m, d⟩ =
      x ⟨m, ((d.setRegs regs).command c value).tick⟩ := by
  induction regs generalizing d with
  | nil =>
    rw [List.foldr_nil, Act.bind_ok (outb_command hready hvalue)]
    rfl
  | cons r regs ih =>
    have hout : outb c r.1 r.2 d = .ok () (d.setReg r.1 (r.2 % 2 ^ 8)).tick := by
      rw [outb, Act.modify_apply, Ata.write, if_neg (Nat.not_lt.mpr hready),
        if_neg (hport r List.mem_cons_self)]
    rw [List.foldr_cons, Act.bind_ok (onAta_ok (h := ⟨m, d⟩) hout)]
    exact ih (Nat.le_succ_of_le hready) fun r hr => hport r (List.mem_cons_of_mem _ hr)

/-- The disks stay as they are. -/
theorem Ata.setRegs_disk (d : Ata) (regs : List (Nat × Nat)) : (d.setRegs regs).disk = d.disk := by
  induction regs generalizing d with
  | nil => rfl
  | cons r regs ih => exact ih _

/-- The registers as the code sets them before the command. -/
structure Ata.Told (d : Ata) (lba count : Nat) : Prop where
  sectorCount : d.reg 0x1F2 = count % 2 ^ 8
  lbaLow : d.reg 0x1F3 = lba % 2 ^ 8
  lbaMid : d.reg 0x1F4 = (lba >>> 8) % 2 ^ 8
  lbaHigh : d.reg 0x1F5 = (lba >>> 16) % 2 ^ 8
  device : d.reg 0x1F6 = (0xF0 ||| ((lba >>> 24) &&& 0x0F)) % 2 ^ 8

/-- The device register: block addresses, the slave, and four bits of the sector. -/
theorem device_bits (lba : Nat) : ∃ x, x = lba / 2 ^ 24 % 2 ^ 4 ∧
    (0xF0 ||| ((lba >>> 24) &&& 0x0F)) % 2 ^ 8 % 2 ^ 4 = x ∧
    ((0xF0 ||| ((lba >>> 24) &&& 0x0F)) % 2 ^ 8).testBit 6 = true ∧
    ((0xF0 ||| ((lba >>> 24) &&& 0x0F)) % 2 ^ 8).testBit 4 = true := by
  have hor : ∀ x < 16, (0xF0 ||| x) % 2 ^ 8 % 2 ^ 4 = x ∧
      ((0xF0 ||| x) % 2 ^ 8).testBit 6 = true ∧ ((0xF0 ||| x) % 2 ^ 8).testBit 4 = true := by
    decide
  rw [show (0x0F : Nat) = 2 ^ 4 - 1 from rfl, Nat.and_two_pow_sub_one_eq_mod,
    Nat.shiftRight_eq_div_pow]
  exact ⟨_, rfl, hor _ (Nat.mod_lt _ (by decide))⟩

variable (hlba : lba < 2 ^ 28) (hpos : 0 < count) (hcount : count ≤ 256)

include hlba in
theorem Ata.Told.lba_eq (h : d.Told lba count) : d.lba = lba := by
  obtain ⟨x, hx, hlow, -⟩ := device_bits lba
  rw [Ata.lba, h.lbaLow, h.lbaMid, h.lbaHigh, h.device, hlow, hx, Nat.shiftRight_eq_div_pow,
    Nat.shiftRight_eq_div_pow]
  omega

include hpos hcount in
theorem Ata.Told.count_eq (h : d.Told lba count) : d.count = count := by
  rw [Ata.count, h.sectorCount]
  split <;> omega

include hlba hpos hcount in
/-- The read command: the sectors are the ones that were asked for. -/
theorem Ata.Told.read (h : d.Told lba count) :
    (d.command c 0x20).phase = .toRead true lba count ∧ (d.command c 0x20).disk = d.disk := by
  obtain ⟨x, -, -, hblocks, hslave⟩ := device_bits lba
  rw [Ata.command, h.device, if_pos hblocks, if_pos rfl, hslave, h.lba_eq hlba,
    h.count_eq hpos hcount, Phase.toRead, if_neg (Nat.pos_iff_ne_zero.mp hpos)]
  exact ⟨rfl, rfl⟩

include hlba hpos hcount in
/-- The write command. -/
theorem Ata.Told.write (h : d.Told lba count) :
    (d.command c 0x30).phase = .toWrite true lba count ∧ (d.command c 0x30).disk = d.disk := by
  obtain ⟨x, -, -, hblocks, hslave⟩ := device_bits lba
  rw [Ata.command, h.device, if_pos hblocks, if_neg (by decide), if_pos rfl, hslave,
    h.lba_eq hlba, h.count_eq hpos hcount, Phase.toWrite, if_neg (Nat.pos_iff_ne_zero.mp hpos)]
  exact ⟨rfl, rfl⟩

include hlba hpos hcount in
/-- `readblk` up to its loop. -/
theorem readblk_command (hready : d.ready ≤ d.clock) :
    ∃ d', (∀ t, readblk c t dest lba count ⟨m, d⟩ = readLoop c t dest count ⟨m, d'⟩) ∧
      d'.phase = .toRead true lba count ∧ d'.disk = d.disk := by
  generalize hregs : [(0x1F1, 0x00), (0x1F2, count), (0x1F3, lba), (0x1F4, lba >>> 8),
    (0x1F5, lba >>> 16), (0x1F6, 0xF0 ||| ((lba >>> 24) &&& 0x0F))] = regs
  have htold : (d.setRegs regs).Told lba count := by
    rw [← hregs]
    constructor <;> simp [Ata.setRegs, Ata.setReg, Ata.tick]
  have hport : ∀ r ∈ regs, r.1 ≠ 0x1F7 := by simp [← hregs]
  obtain ⟨hphase, hdisk⟩ := htold.read (c := c) hlba hpos hcount
  refine ⟨((d.setRegs regs).command c 0x20).tick, fun t => ?_, hphase,
    hdisk.trans (d.setRegs_disk regs)⟩
  have hsplit : readblk c t dest lba count =
      regs.foldr (fun r y => onAta (outb c r.1 r.2) >>= fun _ => y)
        (do onAta (outb c 0x1F7 0x20); readLoop c t dest count) := by
    rw [← hregs]
    rfl
  rw [hsplit, outb_regs hready hport (by decide)]

include hlba hpos hcount in
/-- `writeblk` up to its loop. -/
theorem writeblk_command (hready : d.ready ≤ d.clock) :
    ∃ d', (∀ t, writeblk c t src lba count ⟨m, d⟩ = writeLoop c t src count ⟨m, d'⟩) ∧
      d'.phase = .toWrite true lba count ∧ d'.disk = d.disk := by
  generalize hregs : [(0x1F6, 0xF0 ||| ((lba >>> 24) &&& 0x0F)), (0x1F1, 0x00), (0x1F2, count),
    (0x1F3, lba), (0x1F4, lba >>> 8), (0x1F5, lba >>> 16)] = regs
  have htold : (d.setRegs regs).Told lba count := by
    rw [← hregs]
    constructor <;> simp [Ata.setRegs, Ata.setReg, Ata.tick]
  have hport : ∀ r ∈ regs, r.1 ≠ 0x1F7 := by simp [← hregs]
  obtain ⟨hphase, hdisk⟩ := htold.write (c := c) hlba hpos hcount
  refine ⟨((d.setRegs regs).command c 0x30).tick, fun t => ?_, hphase,
    hdisk.trans (d.setRegs_disk regs)⟩
  have hsplit : writeblk c t src lba count =
      regs.foldr (fun r y => onAta (outb c r.1 r.2) >>= fun _ => y)
        (do onAta (outb c 0x1F7 0x30); writeLoop c t src count) := by
    rw [← hregs]
    rfl
  rw [hsplit, outb_regs hready hport (by decide)]

end Commands

/-! ## The driver is a block store -/

/-- What the kernel wants of the disk and of the memory, one thing after another. -/
inductive Request where
  | read (dest lba count : Nat)
  | write (buf lba count : Nat)
  | mem (x : Act Mm Unit)

/-- What the commands have registers for. -/
def Request.Fits : Request → Prop
  | read _ lba count => lba < 2 ^ 28 ∧ 0 < count ∧ count ≤ 256
  | write _ lba count => lba < 2 ^ 28 ∧ 0 < count ∧ count ≤ 256
  | mem _ => True

/-- The request, by the file system's model of the disk. -/
def Request.onBlocks : Request → Act Fs Unit
  | read dest lba count => Myos.Kernel.readblk dest lba count
  | write buf lba count => Myos.Kernel.writeblk buf lba count
  | mem x => fsMm x

/-- The request, by the code with the ports. -/
def Request.onPorts (c : Timing) (t : Nat) : Request → Act Host Unit
  | read dest lba count => readblk c t dest lba count
  | write buf lba count => writeblk c t buf lba count
  | mem x => onMm x

/-- Requests, one after another. -/
def serve {σ : Type} (f : Request → Act σ Unit) : List Request → Act σ Unit
  | [] => return ()
  | r :: rs => do
    f r
    serve f rs

/-- The drives are at rest, and the slave has what the block store has. -/
structure Host.Shows (h : Host) (s : Fs) : Prop where
  mm : h.mm = s.mm
  disk : h.ata.disk true = s.disk
  idle : h.ata.phase = .idle
  ready : h.ata.ready ≤ h.ata.clock

/-- A REQUEST: the ports carry out what the block store does. -/
theorem Host.Shows.step {c : Timing} (hc : c.Patient) {h : Host} {s s' : Fs} (hshows : h.Shows s)
    {r : Request} (hfits : r.Fits) (hrun : r.onBlocks s = .ok () s') :
    ∃ h', Act.Settles (fun t => r.onPorts c t) h () h' ∧ h'.Shows s' ∧
      h'.ata.disk false = h.ata.disk false := by
  obtain ⟨m, d⟩ := h
  obtain ⟨hmm, hdisk, hidle, hready⟩ := hshows
  dsimp only at hmm hdisk hidle hready
  subst hmm
  cases r with
  | read dest lba count =>
    obtain ⟨hlba, hpos, hcount⟩ := hfits
    obtain ⟨d₁, hcommand, hphase₁, hdisk₁⟩ : ∃ d₁,
        (∀ t, readblk c t dest lba count ⟨s.mm, d⟩ = readLoop c t dest count ⟨s.mm, d₁⟩) ∧
        d₁.phase = .toRead true lba count ∧ d₁.disk = d.disk :=
      readblk_command hlba hpos hcount hready
    obtain ⟨d', ⟨lower, hloop⟩, hdisk', hready', hidle'⟩ := readLoop_settles hc hphase₁
      (fun hzero => absurd hzero (Nat.pos_iff_ne_zero.mp hpos)) (by rw [hdisk₁, hdisk]) hrun
    refine ⟨⟨s'.mm, d'⟩, ⟨lower, fun t ht => (hcommand t).trans (hloop t ht)⟩,
      ⟨rfl, ?_, hidle', hready'⟩, ?_⟩
    · show d'.disk true = _
      rw [hdisk', hdisk₁, hdisk, diskIn_disk hrun]
    · show d'.disk false = _
      rw [hdisk', hdisk₁]
  | write buf lba count =>
    obtain ⟨hlba, hpos, hcount⟩ := hfits
    obtain ⟨d₁, hcommand, hphase₁, hdisk₁⟩ : ∃ d₁,
        (∀ t, writeblk c t buf lba count ⟨s.mm, d⟩ = writeLoop c t buf count ⟨s.mm, d₁⟩) ∧
        d₁.phase = .toWrite true lba count ∧ d₁.disk = d.disk :=
      writeblk_command hlba hpos hcount hready
    obtain ⟨d', ⟨lower, hloop⟩, hdisk', hready', hidle'⟩ := writeLoop_settles (c := c) hphase₁
      (fun hzero => absurd hzero (Nat.pos_iff_ne_zero.mp hpos)) (by rw [hdisk₁, hdisk]) hrun
    refine ⟨⟨s.mm, d'⟩, ⟨lower, fun t ht => (hcommand t).trans (hloop t ht)⟩,
      ⟨(diskOut_mm hrun).symm, ?_, hidle', hready'⟩, ?_⟩
    · show d'.disk true = _
      rw [hdisk', Function.update_self]
    · show d'.disk false = _
      rw [hdisk', hdisk₁, Function.update_of_ne Bool.false_ne_true]
  | mem x =>
    obtain ⟨m, hm, rfl⟩ := Act.zoom_eq_ok.mp hrun
    exact ⟨⟨m, d⟩, Act.Settles.of_ok (onMm_ok (h := ⟨s.mm, d⟩) hm), ⟨rfl, hdisk, hidle, hready⟩,
      rfl⟩

/-- THE DRIVER: whatever reads, writes and memory accesses the block store carries out,
the code with the ports carries out with any drive that lets it read the data port four
times between two sectors. It ends, the memory and the slave are then as the block store
has them, and the master is as it was. -/
theorem ide_refines (c : Timing) (hc : c.Patient) (rs : List Request) (hfits : ∀ r ∈ rs, r.Fits)
    {h : Host} {s s' : Fs} (hshows : h.Shows s) (hrun : serve Request.onBlocks rs s = .ok () s') :
    ∃ h', Act.Settles (fun t => serve (Request.onPorts c t) rs) h () h' ∧ h'.Shows s' ∧
      h'.ata.disk false = h.ata.disk false := by
  induction rs generalizing h s with
  | nil =>
    cases hrun
    exact ⟨h, Act.Settles.of_ok rfl, hshows, rfl⟩
  | cons r rs ih =>
    obtain ⟨u, s₁, hfirst, hrest⟩ := Act.bind_eq_ok.mp hrun
    obtain ⟨h₁, hstep, hshows₁, hmaster₁⟩ :=
      hshows.step hc (hfits r List.mem_cons_self) hfirst
    obtain ⟨h', hsteps, hshows', hmaster'⟩ :=
      ih (fun r hr => hfits r (List.mem_cons_of_mem _ hr)) hshows₁ hrest
    exact ⟨h', Act.Settles.bind hstep hsteps, hshows', hmaster'.trans hmaster₁⟩

/-- A drive that is busy just long enough. -/
def brisk : Timing := ⟨fun _ => 4, fun _ => 0⟩

/-- A memory, and a blank disk. -/
def blankStore : Fs :=
  ⟨⟨fun x => UInt8.ofNat x, fun _ => ⟨none, 0⟩, none, 0, 0, 0, 0, false⟩, fun _ => 0, 0, 0, 0, 0⟩

/-- The same memory, and the drives at rest. -/
def blankHost : Host := ⟨blankStore.mm, ⟨fun _ _ => 0, fun _ => 0, .idle, fun _ => 0, 0, 0⟩⟩

/-- A sector is written, and read to another place. -/
def copying : List Request := [.write kbase 7 1, .read (kbase + 512) 7 1]

theorem ide_refines_copying : ∃ s' h', serve Request.onBlocks copying blankStore = .ok () s' ∧
    Act.Settles (fun t => serve (Request.onPorts brisk t) copying) blankHost () h' ∧ h'.Shows s' ∧
      h'.ata.disk false = blankHost.ata.disk false := by
  have hfits : ∀ r ∈ copying, r.Fits := by
    intro r hr
    rcases List.mem_pair.mp hr with rfl | rfl <;> exact ⟨by decide, by decide, by decide⟩
  have hwrite := diskOut_run blankStore 0 (512 * 7) (512 * 1) (by decide)
  generalize blankStore.setDisk _ = s₁ at hwrite
  have hread := diskIn_run s₁ 512 (512 * 7) (512 * 1) (by decide)
  generalize Fs.setMm _ s₁ = s₂ at hread
  have hfirst : serve Request.onBlocks copying blankStore =
      serve Request.onBlocks [.read (kbase + 512) 7 1] s₁ := Act.bind_ok hwrite
  have hrun : serve Request.onBlocks copying blankStore = .ok () s₂ :=
    hfirst.trans (Act.bind_ok hread)
  obtain ⟨h', hports⟩ := ide_refines brisk (fun _ => Nat.le_refl 4) copying hfits
    (h := blankHost) (s := blankStore) ⟨rfl, rfl, rfl, Nat.le_refl 0⟩ hrun
  exact ⟨s₂, h', hrun, hports⟩

end Ide

end Myos.Kernel
