import Myos.Lib.Act
import Myos.Lib.Mem

/-!
# The boot loader

`main` and `diskcpy` of `boot/main.c`, with the drive behind its ports, and the
disk as `scripts/writebootsect.c` makes it.

To a read command the drive delivers as many sectors as its count register
says, 256 for 0. What the data port gives when no sector is on offer is not
known: it is `stray`, which the results leave open. The bytes `diskcpy` reads
between two sectors take nothing from the next one.

The loader is in memory itself, where the linker puts it (`Layout`). A run that
reads a sector over it is not followed further, and neither is what its own
variables and its stack hold.
-/

namespace Myos.Boot

open Myos.Lib

/-! ## The disk -/

/-- `read` into a buffer. -/
def readInto (buf : Mem) (bytes : List UInt8) : Mem := fun x => bytes.getD x (buf x)

/-- The loop of `writebootsect` over the kernel, from `pos` on. -/
def copyKernel (img buf : Mem) (pos : Nat) (elf : List UInt8) : Mem :=
  if elf = [] then img
  else
    let buf := readInto buf (elf.take 512)
    copyKernel (img.overlay pos 512 buf) buf (pos + 512) (elf.drop 512)
termination_by elf.length
decreasing_by
  rw [List.length_drop]
  have hne : 0 < elf.length := List.length_pos_iff.mpr ‹_›
  omega

/-- `writebootsect`: `img` is what `kernel.img` held before, `junk` the buffer. -/
def writebootsect (img junk : Mem) (bootloader elf : List UInt8) : Mem :=
  let buf := readInto junk (bootloader.take 512)
  let buf := Function.update (Function.update buf 510 0x55) 511 0xaa
  copyKernel (img.overlay 0 512 buf) buf 512 elf

/-! ## The drive -/

/-- The registers of the drive, and what it has on offer. -/
structure Drive where
  sectorCount : Nat
  lbaLow : Nat
  lbaMid : Nat
  lbaHigh : Nat
  device : Nat
  /-- The sector that comes next, and how many do. -/
  next : Nat
  left : Nat

/-- A byte stored to a port. -/
def Drive.write (d : Drive) (port value : Nat) : Drive :=
  if port = 0x1F2 then { d with sectorCount := value }
  else if port = 0x1F3 then { d with lbaLow := value }
  else if port = 0x1F4 then { d with lbaMid := value }
  else if port = 0x1F5 then { d with lbaHigh := value }
  else if port = 0x1F6 then { d with device := value }
  else if port = 0x1F7 ∧ value = 0x20 then
    { d with
      next := d.lbaLow + 2 ^ 8 * d.lbaMid + 2 ^ 16 * d.lbaHigh + 2 ^ 24 * (d.device % 16)
      left := if d.sectorCount = 0 then 256 else d.sectorCount }
  else d

/-- `output`: where the headers are read to. -/
def output : Nat := 0x80000

/-- `-Ttext` of the bootloader. -/
def textStart : Nat := 0x7C00

/-- `stack` of `boot.S`. -/
def stackSize : Nat := 0x4000

/-- Where the linker puts the loader: the code from `textStart` on, and behind it the
variables and the stack. -/
structure Layout where
  stop : Nat
  stack : textStart + stackSize ≤ stop
  below : stop ≤ output

/-- The loader is there. -/
def Layout.Own (l : Layout) (a : Nat) : Prop := textStart ≤ a ∧ a < l.stop

/-- A sector that is read to `dest` goes over the loader. -/
def Layout.Meets (l : Layout) (dest : Nat) : Prop := dest < l.stop ∧ textStart < dest + 512

instance (l : Layout) (dest : Nat) : Decidable (l.Meets dest) :=
  inferInstanceAs (Decidable (_ ∧ _))

/-- The machine the loader runs on. -/
structure Machine where
  layout : Layout
  mem : Mem
  disk : Mem
  drive : Drive
  /-- What the data port gives when nothing is on offer: the first time, the second, … -/
  stray : Nat → Mem
  strays : Nat

namespace Machine

/-- The next 512 bytes of the data port. -/
def sector (s : Machine) : Mem :=
  if 0 < s.drive.left then fun x => s.disk (512 * s.drive.next + x) else s.stray s.strays

/-- After they were taken. -/
def advance (s : Machine) : Machine :=
  if 0 < s.drive.left then
    { s with drive := { s.drive with next := s.drive.next + 1, left := s.drive.left - 1 } }
  else { s with strays := s.strays + 1 }

end Machine

/-- How far an address of 32 bits is from another, upwards. -/
def dist (dest a : Nat) : Nat := (a + 2 ^ 32 - dest) % 2 ^ 32

/-- 512 bytes stored from `dest` on, in an address space of 32 bits. -/
def place (m : Mem) (dest : Nat) (f : Mem) : Mem := fun a =>
  if a < 2 ^ 32 ∧ dist dest a < 512 then f (dist dest a) else m a

/-! ## The loader -/

/-- `outb`. -/
def outb (port value : Nat) : Act Machine Unit :=
  Act.modify fun s => { s with drive := s.drive.write port (value % 2 ^ 8) }

/-- `insw(0x1F0, dest, 256)`. -/
def insw (dest : Nat) : Act Machine Unit := do
  if (← Act.gets Machine.layout).Meets dest then Act.stop
  else Act.modify fun s => { s.advance with mem := place s.mem dest s.sector }

/-- The loop of `diskcpy`. -/
def diskcpyLoop : Nat → Nat → Act Machine Unit
  | 0, _ => pure ()
  | count + 1, dest => do
    insw dest
    diskcpyLoop count ((dest + 512) % 2 ^ 32)

/-- `diskcpy`. -/
def diskcpy (dest lba count : Nat) : Act Machine Unit := do
  outb 0x1F6 (0xE0 ||| ((lba >>> 24) &&& 0x0F))
  outb 0x1F1 0x00
  outb 0x1F2 count
  outb 0x1F3 lba
  outb 0x1F4 (lba >>> 8)
  outb 0x1F5 (lba >>> 16)
  outb 0x1F7 0x20
  diskcpyLoop count dest

/-- `PT_LOAD`. -/
def ptLoad : Nat := 1

/-- `sizeof(Elf64_Phdr)`. -/
def phdrSize : Nat := 56

/-- The body of the loop of `main`: a header of a segment, and no other, has its
sectors read. -/
def loadPhdr (phdr : Nat) : Act Machine Unit := do
  if (← Act.gets fun s => s.mem.rd 4 phdr) = ptLoad then
    let offset ← Act.gets fun s => s.mem.rd 8 (phdr + 8)
    let paddr ← Act.gets fun s => s.mem.rd 8 (phdr + 24)
    let filesz ← Act.gets fun s => s.mem.rd 8 (phdr + 32)
    let m := offset / 512 % 2 ^ 32
    let k := (filesz + 511) % 2 ^ 64 / 512 % 2 ^ 32
    diskcpy (paddr % 2 ^ 32) ((m + 1) % 2 ^ 32) k
  else return ()

/-- The loop of `main` from `i` on. `e_phnum` is below 2 ^ 16, so 2 ^ 16 turns end it. -/
def phdrLoop (phdrs : Nat) : Nat → Nat → Act Machine Unit
  | 0, _ => Act.stop
  | n + 1, i => do
    if i < (← Act.gets fun s => s.mem.rd 2 (output + 56)) then
      loadPhdr ((phdrs + phdrSize * i) % 2 ^ 32)
      phdrLoop phdrs n (i + 1)
    else return ()

/-- `ELFMAG0` to `ELFMAG3`. -/
def elfMag : List UInt8 := [0x7F, 0x45, 0x4C, 0x46]

/-- `main` up to the call of `e_entry`; `false` where it returns before. -/
def bootMain : Act Machine Bool := do
  diskcpy output 1 1
  let phoff ← Act.gets fun s => s.mem.rd 8 (output + 32)
  let ident ← Act.gets fun s => (List.range 4).map fun i => s.mem (output + i)
  if ident = elfMag then
    phdrLoop ((output + phoff) % 2 ^ 32) (2 ^ 16) 0
    return true
  else return false

/-! ## What a read brings -/

/-- The sectors a read command for so many delivers: eight bits of the count, 256 for 0. -/
def delivered (count : Nat) : Nat := if count % 2 ^ 8 = 0 then 256 else count % 2 ^ 8

/-- The 512-byte sectors from `first` on, `count` of them, were read to `dest`; those
the drive did not deliver are some of the stray ones. -/
structure Brought (s t : Machine) (dest first count : Nat) (left : Nat) : Prop where
  layout : t.layout = s.layout
  disk : t.disk = s.disk
  stray : t.stray = s.stray
  inside : ∀ {a}, a < 2 ^ 32 → dist dest a < 512 * left → dist dest a < 512 * count →
    t.mem a = s.disk (512 * first + dist dest a)
  beyond : ∀ {a}, a < 2 ^ 32 → 512 * left ≤ dist dest a → dist dest a < 512 * count →
    ∃ n x, t.mem a = s.stray n x
  outside : ∀ {a}, 2 ^ 32 ≤ a ∨ 512 * count ≤ dist dest a → t.mem a = s.mem a

section Reads

variable {s t : Machine} {dest lba count a : Nat}

/-- A sector further. -/
theorem dist_next (hd : dest < 2 ^ 32) (ha : a < 2 ^ 32) :
    dist ((dest + 512) % 2 ^ 32) a =
      if dist dest a < 512 then dist dest a + 2 ^ 32 - 512 else dist dest a - 512 := by
  unfold dist
  split <;> omega

theorem place_in {m f : Mem} (ha : a < 2 ^ 32) (h : dist dest a < 512) :
    place m dest f a = f (dist dest a) := if_pos ⟨ha, h⟩

theorem place_out {m f : Mem} (h : 2 ^ 32 ≤ a ∨ 512 ≤ dist dest a) : place m dest f a = m a :=
  if_neg (by omega)

@[simp] theorem Machine.advance_layout (s : Machine) : s.advance.layout = s.layout := by
  unfold Machine.advance
  split <;> rfl

@[simp] theorem Machine.advance_disk (s : Machine) : s.advance.disk = s.disk := by
  unfold Machine.advance
  split <;> rfl

@[simp] theorem Machine.advance_stray (s : Machine) : s.advance.stray = s.stray := by
  unfold Machine.advance
  split <;> rfl

/-- With a sector on offer. -/
theorem Machine.advance_offer (h : 0 < s.drive.left) :
    s.advance.drive.next = s.drive.next + 1 ∧ s.advance.drive.left = s.drive.left - 1 := by
  unfold Machine.advance
  rw [if_pos h]
  exact ⟨rfl, rfl⟩

/-- Without one. -/
theorem Machine.advance_none (h : s.drive.left = 0) : s.advance.drive = s.drive := by
  unfold Machine.advance
  rw [if_neg (by omega)]

/-- The loader is below the addresses that wrap. -/
theorem Layout.Own.lt {l : Layout} (h : l.Own a) : a < 2 ^ 32 := by
  have hbelow := l.below
  unfold output at hbelow
  exact Nat.lt_of_lt_of_le h.2 (by omega)

/-- A sector that goes nowhere over the loader does not meet it. -/
theorem Layout.not_meets {l : Layout} (h : ∀ a, l.Own a → 512 ≤ dist dest a) :
    ¬ l.Meets dest := by
  rintro ⟨hstop, hstart⟩
  have hsize := l.stack
  have hbelow := l.below
  unfold textStart stackSize at hsize
  unfold textStart at hstart
  unfold output at hbelow
  have hfar := h (max dest textStart) ⟨Nat.le_max_right _ _, by unfold textStart; omega⟩
  unfold dist textStart at hfar
  omega

/-- Then it is read. -/
theorem insw_ok (h : ¬ s.layout.Meets dest) :
    insw dest s = .ok () { s.advance with mem := place s.mem dest s.sector } := by
  unfold insw
  rw [Act.gets_bind_apply, if_neg h]
  rfl

/-- READ: away from the loader, the loop stores what the drive has on offer, and after that
strays. -/
theorem diskcpyLoop_run : ∀ {count dest : Nat} {s : Machine}, dest < 2 ^ 32 →
    512 * count ≤ 2 ^ 32 → (∀ a, s.layout.Own a → 512 * count ≤ dist dest a) →
    ∃ t, diskcpyLoop count dest s = .ok () t ∧
      Brought s t dest s.drive.next count s.drive.left := by
  intro count
  induction count with
  | zero =>
    intro dest s _ _ _
    exact ⟨s, rfl, rfl, rfl, rfl, fun _ _ h => absurd h (Nat.not_lt_zero _),
      fun _ _ h => absurd h (Nat.not_lt_zero _), fun _ => rfl⟩
  | succ count ih =>
    intro dest s hd hcount hown
    have hmeets : ¬ s.layout.Meets dest := Layout.not_meets fun a ha => by
      have hfar := hown a ha
      omega
    have hown' : ∀ a, s.advance.layout.Own a → 512 * count ≤ dist ((dest + 512) % 2 ^ 32) a := by
      intro a ha
      rw [s.advance_layout] at ha
      have hfar := hown a ha
      rw [dist_next hd ha.lt, if_neg (by omega)]
      omega
    obtain ⟨t, ht, hbrought⟩ := @ih ((dest + 512) % 2 ^ 32)
      { s.advance with mem := place s.mem dest s.sector } (Nat.mod_lt _ (by decide)) (by omega) hown'
    refine ⟨t, ?_, hbrought.layout.trans s.advance_layout, hbrought.disk.trans s.advance_disk,
      hbrought.stray.trans s.advance_stray, ?_, ?_, ?_⟩
    · unfold diskcpyLoop
      rw [Act.bind_ok (insw_ok hmeets), ht]
    · intro a ha hleft hcnt
      have hoffer : 0 < s.drive.left := by omega
      obtain ⟨hfirst, hrest⟩ := s.advance_offer hoffer
      by_cases hnear : dist dest a < 512
      · have hnext : dist ((dest + 512) % 2 ^ 32) a = dist dest a + 2 ^ 32 - 512 := by
          rw [dist_next hd ha, if_pos hnear]
        rw [hbrought.outside (.inr (by omega))]
        show place s.mem dest s.sector a = _
        rw [place_in ha hnear, Machine.sector, if_pos hoffer]
      · have hnext : dist ((dest + 512) % 2 ^ 32) a = dist dest a - 512 := by
          rw [dist_next hd ha, if_neg hnear]
        rw [hbrought.inside ha (by rw [hnext]; dsimp only; omega) (by omega), hnext]
        show s.advance.disk (512 * s.advance.drive.next + _) = _
        rw [s.advance_disk, hfirst, show 512 * (s.drive.next + 1) + (dist dest a - 512) =
          512 * s.drive.next + dist dest a by omega]
    · intro a ha hleft hcnt
      by_cases hnear : dist dest a < 512
      · have hnext : dist ((dest + 512) % 2 ^ 32) a = dist dest a + 2 ^ 32 - 512 := by
          rw [dist_next hd ha, if_pos hnear]
        rw [hbrought.outside (.inr (by omega))]
        refine ⟨s.strays, dist dest a, ?_⟩
        show place s.mem dest s.sector a = _
        rw [place_in ha hnear, Machine.sector, if_neg (by omega)]
      · have hnext : dist ((dest + 512) % 2 ^ 32) a = dist dest a - 512 := by
          rw [dist_next hd ha, if_neg hnear]
        have hrest : s.advance.drive.left = s.drive.left - 1 := by
          rcases Nat.eq_zero_or_pos s.drive.left with h0 | h0
          · rw [s.advance_none h0, h0]
          · exact (s.advance_offer h0).2
        obtain ⟨n, x, h⟩ := hbrought.beyond ha (by rw [hnext]; dsimp only; omega) (by omega)
        exact ⟨n, x, h.trans (by rw [← s.advance_stray])⟩
    · intro a hout
      have hfar : 2 ^ 32 ≤ a ∨ 512 ≤ dist dest a := by omega
      rw [hbrought.outside]
      · exact place_out hfar
      · by_cases ha : a < 2 ^ 32
        · have hnext : dist ((dest + 512) % 2 ^ 32) a = dist dest a - 512 := by
            rw [dist_next hd ha, if_neg (by omega)]
          omega
        · exact .inl (by omega)

/-- The four bits of the address in the device register. -/
theorem device_mod (lba : Nat) : (0xE0 ||| ((lba >>> 24) &&& 0x0F)) % 2 ^ 8 % 16 = lba / 2 ^ 24 % 16 := by
  have hor : ∀ x < 16, (0xE0 ||| x) % 2 ^ 8 % 16 = x := by decide
  rw [show (0x0F : Nat) = 2 ^ 4 - 1 from rfl, Nat.and_two_pow_sub_one_eq_mod, Nat.shiftRight_eq_div_pow,
    hor _ (Nat.mod_lt _ (by decide))]

/-- The registers as `diskcpy` leaves them. -/
def Drive.command (d : Drive) (lba count : Nat) : Drive :=
  ((((((d.write 0x1F6 ((0xE0 ||| ((lba >>> 24) &&& 0x0F)) % 2 ^ 8)).write 0x1F1 (0x00 % 2 ^ 8)).write
    0x1F2 (count % 2 ^ 8)).write 0x1F3 (lba % 2 ^ 8)).write 0x1F4 ((lba >>> 8) % 2 ^ 8)).write
    0x1F5 ((lba >>> 16) % 2 ^ 8)).write 0x1F7 (0x20 % 2 ^ 8)

theorem Drive.command_next (d : Drive) : (d.command lba count).next = lba % 2 ^ 28 := by
  have h : (d.command lba count).next = lba % 2 ^ 8 + 2 ^ 8 * ((lba >>> 8) % 2 ^ 8) +
      2 ^ 16 * ((lba >>> 16) % 2 ^ 8) +
      2 ^ 24 * ((0xE0 ||| ((lba >>> 24) &&& 0x0F)) % 2 ^ 8 % 16) := rfl
  rw [h, device_mod, Nat.shiftRight_eq_div_pow, Nat.shiftRight_eq_div_pow]
  omega

theorem Drive.command_left (d : Drive) : (d.command lba count).left = delivered count := rfl

/-- DISKCPY: the command names the sector and how many. -/
theorem diskcpy_run (hd : dest < 2 ^ 32) (hcount : 512 * count ≤ 2 ^ 32)
    (hown : ∀ a, s.layout.Own a → 512 * count ≤ dist dest a) :
    ∃ t, diskcpy dest lba count s = .ok () t ∧
      Brought s t dest (lba % 2 ^ 28) count (delivered count) := by
  have hrun : diskcpy dest lba count s =
      diskcpyLoop count dest { s with drive := s.drive.command lba count } := rfl
  obtain ⟨t, ht, hbrought⟩ :=
    diskcpyLoop_run (s := { s with drive := s.drive.command lba count }) hd hcount hown
  dsimp only at hbrought
  rw [Drive.command_next, Drive.command_left] at hbrought
  exact ⟨t, hrun.trans ht, hbrought.layout, hbrought.disk, hbrought.stray, hbrought.inside, hbrought.beyond,
    hbrought.outside⟩

end Reads

end Myos.Boot
