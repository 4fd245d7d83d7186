import Mathlib.Data.List.Pairwise
import Myos.Boot.Loader

/-!
# What the boot loader loads

The segments of a kernel, as its program headers in the first sector give them,
against the memory `main` of `boot/main.c` leaves. A byte is what the last
segment over it brought, where every segment brings whole sectors
(`bootMain_run`). So segments that are not in each other's way are loaded exactly
if each of them is served by its own sectors (`boot_loads_iff`).
-/

namespace Myos.Boot

open Myos.Lib

/-! ## The kernel -/

/-- The bytes of a file. -/
def bytes (elf : List UInt8) : Mem := fun x => elf.getD x 0

/-- What the loader looks at in an `Elf64_Phdr`, and `p_memsz`. -/
structure Segment where
  offset : Nat
  paddr : Nat
  filesz : Nat
  memsz : Nat
deriving DecidableEq, Repr

/-- `e_phoff`. -/
def phoff (elf : List UInt8) : Nat := Mem.rd 8 (bytes elf) 32

/-- `e_phnum`. -/
def phnum (elf : List UInt8) : Nat := Mem.rd 2 (bytes elf) 56

/-- The segment of the `i`-th program header, if it is `PT_LOAD`. -/
def segment (elf : List UInt8) (i : Nat) : Option Segment :=
  let phdr := phoff elf + phdrSize * i
  if Mem.rd 4 (bytes elf) phdr = ptLoad then
    some { offset := Mem.rd 8 (bytes elf) (phdr + 8)
           paddr := Mem.rd 8 (bytes elf) (phdr + 24)
           filesz := Mem.rd 8 (bytes elf) (phdr + 32)
           memsz := Mem.rd 8 (bytes elf) (phdr + 40) }
  else none

/-- The segments of the first `n` headers. -/
def segmentsTo (elf : List UInt8) (n : Nat) : List Segment := (List.range n).filterMap (segment elf)

/-- The segments to load. -/
def segments (elf : List UInt8) : List Segment := segmentsTo elf (phnum elf)

/-- A kernel whose headers lie in its first 512 bytes. -/
structure KernelElf (elf : List UInt8) : Prop where
  magic : ∀ i < 4, elf[i]? = elfMag[i]?
  ehdr : 64 ≤ elf.length
  phdrs : phoff elf + phdrSize * phnum elf ≤ min 512 elf.length
  inside : ∀ {g}, g ∈ segments elf → g.offset + g.filesz ≤ elf.length
  sizes : ∀ {g}, g ∈ segments elf → g.filesz ≤ g.memsz

namespace Segment

/-- How many sectors are read for it. -/
def count (g : Segment) : Nat := (g.filesz + 511) % 2 ^ 64 / 512 % 2 ^ 32

/-- From which sector on. -/
def first (g : Segment) : Nat := (g.offset / 512 % 2 ^ 32 + 1) % 2 ^ 32 % 2 ^ 28

/-- Where its sectors are read to. -/
def Covers (g : Segment) (a : Nat) : Prop := g.paddr ≤ a ∧ a < g.paddr + 512 * g.count

instance (g : Segment) (a : Nat) : Decidable (g.Covers a) := inferInstanceAs (Decidable (_ ∧ _))

/-- Where the segment is to stand. -/
def Holds (g : Segment) (a : Nat) : Prop := g.paddr ≤ a ∧ a < g.paddr + g.memsz

/-- The byte of the disk that is read to an address. -/
def source (g : Segment) (a : Nat) : Nat := 512 * g.first + (a - g.paddr)

/-- The sector that is read to an address is one the drive delivers. -/
def Delivers (g : Segment) (a : Nat) : Prop := a - g.paddr < 512 * delivered g.count

/-- What is to stand at the `i`-th byte of the segment. -/
def byte (g : Segment) (elf : List UInt8) (i : Nat) : UInt8 :=
  if i < g.filesz then bytes elf (g.offset + i) else 0

/-- Neither the segment nor its sectors are where the loader is, or the headers it reads. -/
structure Clear (g : Segment) (l : Layout) : Prop where
  sectors : g.paddr + 512 * g.count ≤ 2 ^ 32
  loader : ∀ {a}, g.Covers a ∨ g.Holds a → ¬ l.Own a
  headers : ∀ {a}, g.Covers a ∨ g.Holds a → a < output ∨ output + 512 ≤ a

end Segment

/-- The last segment whose sectors are read to an address. -/
def lastOver (L : List Segment) (a : Nat) : Option Segment := L.reverse.find? fun g => g.Covers a

/-- The byte `b` is what the last segment over an address brings. -/
def Brings (disk before : Mem) (stray : Nat → Mem) (L : List Segment) (a : Nat) (b : UInt8) : Prop :=
  match lastOver L a with
  | some g => (g.Delivers a ∧ b = disk (g.source a)) ∨ ¬g.Delivers a ∧ ∃ n x, b = stray n x
  | none => b = before a

/-- The header buffer is filled, and the segments are loaded. -/
structure Settled (start : Machine) (L : List Segment) (s : Machine) : Prop where
  layout : s.layout = start.layout
  disk : s.disk = start.disk
  stray : s.stray = start.stray
  header : ∀ {x}, x < 512 → s.mem (output + x) = start.disk (512 + x)
  brings : ∀ {a}, ¬ start.layout.Own a → a < output ∨ output + 512 ≤ a →
    Brings start.disk start.mem start.stray L a (s.mem a)

section Loads

variable {elf : List UInt8} {L M : List Segment} {start s : Machine} {g : Segment} {a i n off : Nat}

/-- The later segments come first. -/
theorem lastOver_append (L M : List Segment) (a : Nat) :
    lastOver (L ++ M) a = (lastOver M a).or (lastOver L a) := by
  unfold lastOver
  rw [List.reverse_append, List.find?_append]

/-- One segment more. -/
theorem lastOver_snoc (L : List Segment) (g : Segment) (a : Nat) :
    lastOver (L ++ [g]) a = if g.Covers a then some g else lastOver L a := by
  have hone : lastOver [g] a = if g.Covers a then some g else none := by
    unfold lastOver
    rw [List.reverse_singleton]
    by_cases h : g.Covers a
    · simp [h]
    · simp [h]
  rw [lastOver_append, hone]
  split <;> rfl

/-- The headers of the file stand in the buffer. -/
theorem Settled.rd (h : Settled start L s)
    (hdisk : ∀ x < elf.length, start.disk (512 + x) = bytes elf x) (hoff : off + n ≤ 512)
    (hlen : off + n ≤ elf.length) : s.mem.rd n (output + off) = Mem.rd n (bytes elf) off := by
  refine Mem.rd_shift fun i hi => ?_
  rw [Nat.add_assoc, h.header (by omega), hdisk _ (by omega)]

/-- SEGMENT: its sectors go over what was there. -/
theorem Settled.load (h : Settled start L s) (hclear : g.Clear start.layout) :
    ∃ t, diskcpy (g.paddr % 2 ^ 32) ((g.offset / 512 % 2 ^ 32 + 1) % 2 ^ 32) g.count s = .ok () t ∧
      Settled start (L ++ [g]) t := by
  have hfits := hclear.sectors
  have hown : ∀ a, s.layout.Own a → 512 * g.count ≤ dist (g.paddr % 2 ^ 32) a := by
    intro a ha
    have hlt := ha.lt
    rw [h.layout] at ha
    have hcov : ¬ g.Covers a := fun hcov => hclear.loader (.inl hcov) ha
    unfold Segment.Covers at hcov
    unfold dist
    omega
  obtain ⟨t, ht, hbrought⟩ := @diskcpy_run s (g.paddr % 2 ^ 32)
    ((g.offset / 512 % 2 ^ 32 + 1) % 2 ^ 32) g.count (Nat.mod_lt _ (by decide)) (by omega) hown
  -- away from its own sectors memory stays
  have hout : ∀ {a}, ¬g.Covers a → t.mem a = s.mem a := by
    intro a ha
    unfold Segment.Covers at ha
    refine hbrought.outside ?_
    unfold dist
    omega
  refine ⟨t, ht, hbrought.layout.trans h.layout, hbrought.disk.trans h.disk,
    hbrought.stray.trans h.stray, fun {x} hx => ?_, fun {a} hloader ha => ?_⟩
  · rw [hout, h.header hx]
    intro hcov
    have hfar := hclear.headers (.inl hcov)
    omega
  · unfold Brings
    rw [lastOver_snoc]
    by_cases hcov : g.Covers a
    · rw [if_pos hcov]
      have hdist : dist (g.paddr % 2 ^ 32) a = a - g.paddr := by
        unfold Segment.Covers at hcov
        unfold dist
        omega
      have hin : a < 2 ^ 32 ∧ a - g.paddr < 512 * g.count := by
        unfold Segment.Covers at hcov
        omega
      rcases Nat.lt_or_ge (a - g.paddr) (512 * delivered g.count) with hdel | hdel
      · refine .inl ⟨hdel, ?_⟩
        rw [hbrought.inside hin.1 (hdist ▸ hdel) (hdist ▸ hin.2), hdist, h.disk]
        rfl
      · obtain ⟨n, x, hx⟩ := hbrought.beyond hin.1 (hdist ▸ hdel) (hdist ▸ hin.2)
        exact .inr ⟨Nat.not_lt.mpr hdel, n, x, hx.trans (by rw [h.stray])⟩
    · rw [if_neg hcov, hout hcov]
      exact h.brings hloader ha

theorem segmentsTo_succ (elf : List UInt8) (i : Nat) :
    segmentsTo elf (i + 1) = segmentsTo elf i ++ (segment elf i).toList := by
  unfold segmentsTo
  rw [List.range_succ, List.filterMap_append]
  cases h : segment elf i <;> simp [h]

theorem segment_mem (hi : i < phnum elf) (hg : segment elf i = some g) : g ∈ segments elf :=
  List.mem_filterMap.mpr ⟨i, List.mem_range.mpr hi, hg⟩

/-- HEADER: the segment of a header is loaded, if it has one. -/
theorem Settled.loadPhdr (h : Settled start (segmentsTo elf i) s)
    (hdisk : ∀ x < elf.length, start.disk (512 + x) = bytes elf x)
    (hphdr : phoff elf + phdrSize * i + phdrSize ≤ min 512 elf.length)
    (hclear : ∀ g, segment elf i = some g → g.Clear start.layout) :
    ∃ t, loadPhdr (output + (phoff elf + phdrSize * i)) s = .ok () t ∧
      Settled start (segmentsTo elf (i + 1)) t := by
  have hword : ∀ {n off : Nat}, off + n ≤ phdrSize →
      s.mem.rd n (output + (phoff elf + phdrSize * i) + off) =
        Mem.rd n (bytes elf) (phoff elf + phdrSize * i + off) := by
    intro n off hoff
    rw [Nat.add_assoc]
    exact h.rd hdisk (by omega) (by omega)
  have htype := @hword 4 0 (by decide)
  rw [Nat.add_zero, Nat.add_zero] at htype
  unfold Boot.loadPhdr
  rw [Act.gets_bind_apply, htype, segmentsTo_succ]
  by_cases hload : Mem.rd 4 (bytes elf) (phoff elf + phdrSize * i) = ptLoad
  · have hseg : segment elf i = some _ := if_pos hload
    obtain ⟨t, ht, hsettled⟩ := h.load (hclear _ hseg)
    refine ⟨t, ?_, by rw [hseg]; exact hsettled⟩
    simp only [if_pos hload, Act.gets_bind_apply]
    rw [hword (by decide), hword (by decide), hword (by decide)]
    exact ht
  · have hseg : segment elf i = none := if_neg hload
    refine ⟨s, ?_, by rw [hseg, Option.toList_none, List.append_nil]; exact h⟩
    simp only [if_neg hload]
    rfl

/-- LOOP: from the `i`-th header on. -/
theorem phdrLoop_run (helf : KernelElf elf) (hdisk : ∀ x < elf.length, start.disk (512 + x) = bytes elf x)
    (hclear : ∀ g ∈ segments elf, g.Clear start.layout) (n : Nat) : ∀ {i : Nat} {s : Machine},
    Settled start (segmentsTo elf i) s → i ≤ phnum elf → phnum elf - i < n →
    ∃ t, phdrLoop (output + phoff elf) n i s = .ok () t ∧
      Settled start (segments elf) t := by
  induction n with
  | zero => exact fun {i s} _ _ h => absurd h (Nat.not_lt_zero _)
  | succ n ih =>
    intro i s h hi hn
    have hphdrs := helf.phdrs
    have hehdr := helf.ehdr
    have hcount : s.mem.rd 2 (output + 56) = phnum elf := h.rd hdisk (by decide) (by omega)
    unfold phdrLoop
    rw [Act.gets_bind_apply, hcount]
    rcases Nat.eq_or_lt_of_le hi with rfl | hlt
    · refine ⟨s, ?_, h⟩
      simp only [if_neg (Nat.lt_irrefl _)]
      rfl
    · have hroom : phoff elf + phdrSize * i + phdrSize ≤ min 512 elf.length := by
        refine Nat.le_trans ?_ hphdrs
        rw [Nat.add_assoc, ← Nat.mul_succ]
        exact Nat.add_le_add_left (Nat.mul_le_mul_left _ hlt) _
      obtain ⟨t, ht, hsettled⟩ := h.loadPhdr hdisk hroom fun g hg => hclear g (segment_mem hlt hg)
      obtain ⟨u, hu, hend⟩ := ih hsettled hlt (by omega)
      refine ⟨u, ?_, hend⟩
      have haddr : (output + phoff elf + phdrSize * i) % 2 ^ 32 =
          output + (phoff elf + phdrSize * i) := by
        unfold output
        omega
      simp only [if_pos hlt]
      rw [haddr, Act.bind_ok ht, hu]

/-- The first sector of the kernel is read to the buffer. -/
theorem diskcpy_header : ∃ t, diskcpy output 1 1 s = .ok () t ∧
    Settled s [] t := by
  have hown : ∀ a, s.layout.Own a → 512 * 1 ≤ dist output a := by
    intro a ha
    have hstop := ha.2
    have hbelow := s.layout.below
    unfold dist
    unfold output at hbelow ⊢
    omega
  obtain ⟨t, ht, hbrought⟩ := @diskcpy_run s output 1 1 (by decide) (by decide) hown
  refine ⟨t, ht, hbrought.layout, hbrought.disk, hbrought.stray, fun {x} hx => ?_,
    fun {a} _ ha => ?_⟩
  · have hdist : dist output (output + x) = x := by
      unfold dist output
      omega
    have hdel : delivered 1 = 1 := rfl
    rw [hbrought.inside (by unfold output; omega) (by omega) (by omega), hdist,
      show 512 * (1 % 2 ^ 28) = 512 from rfl]
  · refine hbrought.outside ?_
    unfold dist
    unfold output at ha ⊢
    omega

/-- MAIN: the headers are read, and then the segments they name. -/
theorem bootMain_run (helf : KernelElf elf)
    (hdisk : ∀ x < elf.length, s.disk (512 + x) = bytes elf x)
    (hclear : ∀ g ∈ segments elf, g.Clear s.layout) :
    ∃ t, bootMain s = .ok true t ∧ Settled s (segments elf) t := by
  have hphdrs := helf.phdrs
  have hehdr := helf.ehdr
  have hnum : phnum elf < 2 ^ 16 := Mem.rd_lt 2 _ _
  obtain ⟨t, ht, hsettled⟩ := diskcpy_header (s := s)
  obtain ⟨u, hu, hend⟩ := phdrLoop_run helf hdisk hclear (2 ^ 16) (i := 0) hsettled (Nat.zero_le _)
    (by omega)
  refine ⟨u, ?_, hend⟩
  have hoff : t.mem.rd 8 (output + 32) = phoff elf := hsettled.rd hdisk (by decide) (by omega)
  have hident : (List.range 4).map (fun i => t.mem (output + i)) = elfMag := by
    refine List.ext_getElem? fun i => ?_
    rw [List.getElem?_map]
    rcases Nat.lt_or_ge i 4 with hi | hi
    · rw [List.getElem?_range hi, Option.map_some, hsettled.header (by omega), hdisk _ (by omega),
        bytes, List.getD_eq_getElem?_getD, ← helf.magic i hi, List.getElem?_eq_getElem (by omega)]
      rfl
    · rw [List.getElem?_eq_none (by simpa using hi), List.getElem?_eq_none hi]
      rfl
  have haddr : (output + phoff elf) % 2 ^ 32 = output + phoff elf := by
    unfold output
    omega
  unfold bootMain
  rw [Act.bind_ok ht, Act.gets_bind_apply, Act.gets_bind_apply, hoff, hident]
  simp only [if_true]
  rw [haddr, Act.bind_ok hu]
  rfl

end Loads

/-! ## The disk -/

section Disk

variable {elf bootloader : List UInt8} {img junk : Mem} {x : Nat}

theorem readInto_lt {buf : Mem} {l : List UInt8} (h : x < l.length) : readInto buf l x = l[x] := by
  unfold readInto
  rw [List.getD_eq_getElem?_getD, List.getElem?_eq_getElem h]
  rfl

theorem readInto_ge {buf : Mem} {l : List UInt8} (h : l.length ≤ x) : readInto buf l x = buf x := by
  unfold readInto
  rw [List.getD_eq_getElem?_getD, List.getElem?_eq_none h]
  rfl

/-- A turn of the loop. -/
theorem copyKernel_turn (img buf : Mem) (pos : Nat) (h : elf ≠ []) :
    copyKernel img buf pos elf = copyKernel (img.overlay pos 512 (readInto buf (elf.take 512)))
      (readInto buf (elf.take 512)) (pos + 512) (elf.drop 512) := by
  conv_lhs => unfold copyKernel
  rw [if_neg h]

/-- What lies before stays. -/
theorem copyKernel_below (n : Nat) : ∀ {img buf : Mem} {pos : Nat} {elf : List UInt8},
    elf.length ≤ n → x < pos → copyKernel img buf pos elf x = img x := by
  induction n with
  | zero =>
    intro img buf pos elf hlen _
    rw [List.eq_nil_of_length_eq_zero (Nat.le_zero.mp hlen), copyKernel, if_pos rfl]
  | succ n ih =>
    intro img buf pos elf hlen hx
    by_cases hne : elf = []
    · rw [hne, copyKernel, if_pos rfl]
    · rw [copyKernel_turn _ _ _ hne, ih (by rw [List.length_drop]; omega) (by omega),
        Mem.overlay_out (.inl hx)]

/-- The kernel's bytes from `pos` on. -/
theorem copyKernel_byte (n : Nat) : ∀ {img buf : Mem} {pos : Nat} {elf : List UInt8} {x : Nat},
    elf.length ≤ n → x < elf.length → copyKernel img buf pos elf (pos + x) = bytes elf x := by
  induction n with
  | zero => exact fun hlen hx => absurd (Nat.lt_of_lt_of_le hx hlen) (Nat.not_lt_zero _)
  | succ n ih =>
    intro img buf pos elf x hlen hx
    have hne : elf ≠ [] := List.length_pos_iff.mp (by omega)
    have hdrop : (elf.drop 512).length ≤ n := by
      rw [List.length_drop]
      omega
    rw [copyKernel_turn _ _ _ hne]
    rcases Nat.lt_or_ge x 512 with h | h
    · have hread : x < (elf.take 512).length := by
        rw [List.length_take]
        omega
      rw [copyKernel_below n hdrop (by omega), Mem.overlay_in (by omega), Nat.add_sub_cancel_left,
        readInto_lt hread, List.getElem_take, bytes, List.getD_eq_getElem?_getD,
        List.getElem?_eq_getElem hx]
      rfl
    · rw [show pos + x = pos + 512 + (x - 512) by omega, ih hdrop (by rw [List.length_drop]; omega),
        bytes, bytes, List.getD_eq_getElem?_getD, List.getD_eq_getElem?_getD, List.getElem?_drop,
        show 512 + (x - 512) = x by omega]

/-- DISK: the kernel lies from the second sector on. -/
theorem writebootsect_kernel (h : x < elf.length) :
    writebootsect img junk bootloader elf (512 + x) = bytes elf x :=
  copyKernel_byte _ (Nat.le_refl _) h

end Disk

/-! ## What is loaded -/

/-- Every segment stands in memory, and nought in what it has beyond its bytes in the file. -/
def Loaded (elf : List UInt8) (mem : Mem) : Prop :=
  ∀ g ∈ segments elf, g.paddr + g.memsz ≤ 2 ^ 32 ∧
    ∀ i < g.memsz, mem (g.paddr + i) = g.byte elf i

/-- The last segment read over an address has the byte there, in a sector the
drive delivers; where none is, memory has it. -/
def Provides (disk before : Mem) (L : List Segment) (a : Nat) (b : UInt8) : Prop :=
  match lastOver L a with
  | some g => g.Delivers a ∧ disk (g.source a) = b
  | none => before a = b

/-- What the disk and memory are to provide for every segment. -/
def Provided (elf : List UInt8) (disk before : Mem) : Prop :=
  ∀ g ∈ segments elf, g.paddr + g.memsz ≤ 2 ^ 32 ∧
    ∀ i < g.memsz, Provides disk before (segments elf) (g.paddr + i) (g.byte elf i)

section Bytes

variable {elf : List UInt8} {disk before : Mem} {stray : Nat → Mem} {L : List Segment}
  {g : Segment} {a i : Nat} {b : UInt8}

/-- The byte provided is the byte brought. -/
theorem Provides.brings {b' : UInt8} (h : Provides disk before L a b)
    (hb : Brings disk before stray L a b') : b' = b := by
  unfold Provides at h
  unfold Brings at hb
  cases hlast : lastOver L a with
  | none =>
    rw [hlast] at h hb
    exact hb.trans h
  | some g =>
    rw [hlast] at h hb
    rcases hb with ⟨-, hb⟩ | ⟨hno, -⟩
    · exact hb.trans h.2
    · exact absurd h.1 hno

/-- A machine whose drive gives `c` for what was not asked for. -/
def Machine.fresh (l : Layout) (disk mem : Mem) (c : UInt8) : Machine where
  layout := l
  mem := mem
  disk := disk
  drive := ⟨0, 0, 0, 0, 0, 0, 0⟩
  stray := fun _ _ => c
  strays := 0

/-- A byte brought whatever the strays are is provided. -/
theorem Provides.of_brings (h : ∀ c : UInt8, Brings disk before (fun _ _ => c) L a b) :
    Provides disk before L a b := by
  have hother := h (b + 1)
  unfold Provides
  unfold Brings at hother
  cases hlast : lastOver L a with
  | none =>
    rw [hlast] at hother
    exact hother.symm
  | some g =>
    rw [hlast] at hother
    rcases hother with ⟨hdel, hbyte⟩ | ⟨-, n, x, hstray⟩
    · exact ⟨hdel, hbyte.symm⟩
    · have hne : b ≠ b + 1 := by
        intro heq
        have hval := congrArg UInt8.toNat heq
        rw [UInt8.toNat_add] at hval
        have hlt := b.toNat_lt
        have hone : (1 : UInt8).toNat = 1 := rfl
        omega
      exact absurd hstray hne

theorem Segment.holds (hi : i < g.memsz) : g.Holds (g.paddr + i) :=
  ⟨Nat.le_add_right _ _, Nat.add_lt_add_left hi _⟩

/-- Whatever the drive gives beyond what was asked for, the kernel is loaded
exactly if the disk and memory provide its bytes. -/
theorem loads_iff_provided {l : Layout} (helf : KernelElf elf)
    (hdisk : ∀ x < elf.length, disk (512 + x) = bytes elf x)
    (hclear : ∀ g ∈ segments elf, g.Clear l) :
    (∀ s : Machine, s.layout = l → s.disk = disk → s.mem = before →
      ∃ t, bootMain s = .ok true t ∧ Loaded elf t.mem) ↔ Provided elf disk before := by
  constructor
  · intro h g hg
    have hrun : ∀ c : UInt8, ∃ t : Machine, Loaded elf t.mem ∧
        Settled (.fresh l disk before c) (segments elf) t := by
      intro c
      obtain ⟨t, ht, hloaded⟩ := h (.fresh l disk before c) rfl rfl rfl
      obtain ⟨t', ht', hsettled⟩ := bootMain_run (s := .fresh l disk before c) helf hdisk hclear
      rw [ht'] at ht
      injection ht with _ heq
      exact ⟨t, hloaded, heq ▸ hsettled⟩
    obtain ⟨t, hloaded, -⟩ := hrun 0
    refine ⟨(hloaded g hg).1, fun i hi => Provides.of_brings fun c => ?_⟩
    obtain ⟨u, hloaded, hsettled⟩ := hrun c
    rw [← (hloaded g hg).2 i hi]
    have hc := hclear g hg
    exact hsettled.brings (hc.loader (.inr (Segment.holds hi))) (hc.headers (.inr (Segment.holds hi)))
  · rintro h s rfl rfl rfl
    obtain ⟨t, ht, hsettled⟩ := bootMain_run (s := s) helf hdisk hclear
    refine ⟨t, ht, fun g hg => ⟨(h g hg).1, fun i hi => ?_⟩⟩
    have hc := hclear g hg
    exact ((h g hg).2 i hi).brings
      (hsettled.brings (hc.loader (.inr (Segment.holds hi))) (hc.headers (.inr (Segment.holds hi))))

end Bytes

/-! ## Segments that are not in each other's way -/

/-- The sectors of a segment stay off the segments before it, and off what those behind it have
beyond their own sectors. -/
def InOrder (L : List Segment) : Prop := L.Pairwise fun g h =>
  (∀ a, g.Holds a → ¬ h.Covers a) ∧ ∀ a, h.Holds a → ¬ h.Covers a → ¬ g.Covers a

/-- What the loader needs of a segment: there are 256 sectors at most, they have its bytes at
their start, where that of `p_offset` is rounded down to, and nought behind them; and so has
memory behind the sectors. -/
structure Segment.Served (g : Segment) (elf : List UInt8) (disk before : Mem) : Prop where
  fits : g.paddr + g.memsz ≤ 2 ^ 32
  few : g.count ≤ 256
  level : ∀ {i}, i < g.filesz → disk (512 * g.first + i) = bytes elf (g.offset + i)
  padded : ∀ {i}, g.filesz ≤ i → i < g.memsz → i < 512 * g.count → disk (512 * g.first + i) = 0
  blank : ∀ {i}, 512 * g.count ≤ i → i < g.memsz → before (g.paddr + i) = 0

section Served

variable {elf : List UInt8} {disk before : Mem} {L : List Segment} {g : Segment} {a c i : Nat}

/-- In a segment only its own sectors count. -/
theorem InOrder.lastOver (h : InOrder L) (hg : g ∈ L) (ha : g.Holds a) :
    lastOver L a = if g.Covers a then some g else none := by
  obtain ⟨L₁, L₂, rfl⟩ := List.append_of_mem hg
  obtain ⟨-, hbehind, hbefore⟩ := List.pairwise_append.mp h
  have hlater : Boot.lastOver L₂ a = none := by
    unfold Boot.lastOver
    apply List.find?_eq_none.mpr
    intro x hx
    have hx' := (List.pairwise_cons.mp hbehind).1 x (List.mem_reverse.mp hx)
    simpa using hx'.1 a ha
  rw [← List.singleton_append, ← List.append_assoc, lastOver_append, hlater, Option.none_or,
    lastOver_snoc]
  by_cases hcov : g.Covers a
  · rw [if_pos hcov, if_pos hcov]
  · rw [if_neg hcov, if_neg hcov]
    unfold Boot.lastOver
    apply List.find?_eq_none.mpr
    intro x hx
    have hx' := hbefore x (List.mem_reverse.mp hx) g List.mem_cons_self
    simpa using hx'.2 a ha hcov

theorem delivered_of_le (h0 : 0 < c) (h : c ≤ 256) : delivered c = c := by
  unfold delivered
  split <;> omega

theorem delivered_le : delivered c ≤ 256 := by
  unfold delivered
  split <;> omega

/-- Whole sectors up to the last byte. -/
theorem Segment.count_eq (hsize : g.filesz ≤ 2 ^ 32) : g.count = (g.filesz + 511) / 512 := by
  unfold Segment.count
  omega

/-- A byte in the segment's sectors. -/
theorem InOrder.provides_sector (h : InOrder L) (hg : g ∈ L) (hi : i < g.memsz)
    (hsector : i < 512 * g.count) {b : UInt8} : Provides disk before L (g.paddr + i) b ↔
      i < 512 * delivered g.count ∧ disk (512 * g.first + i) = b := by
  have hcov : g.Covers (g.paddr + i) := ⟨Nat.le_add_right _ _, Nat.add_lt_add_left hsector _⟩
  unfold Provides
  rw [h.lastOver hg (Segment.holds hi), if_pos hcov]
  show g.paddr + i - g.paddr < _ ∧ disk (512 * g.first + (g.paddr + i - g.paddr)) = b ↔ _
  rw [Nat.add_sub_cancel_left]

/-- A byte behind them. -/
theorem InOrder.provides_behind (h : InOrder L) (hg : g ∈ L) (hi : i < g.memsz)
    (hbehind : 512 * g.count ≤ i) {b : UInt8} :
    Provides disk before L (g.paddr + i) b ↔ before (g.paddr + i) = b := by
  have hcov : ¬ g.Covers (g.paddr + i) := fun hcov =>
    Nat.not_lt.mpr hbehind (Nat.lt_of_add_lt_add_left hcov.2)
  unfold Provides
  rw [h.lastOver hg (Segment.holds hi), if_neg hcov]

/-- SERVED: segments in order are provided for just if each is served. -/
theorem InOrder.provided_iff (h : InOrder (segments elf)) (helf : KernelElf elf) :
    Provided elf disk before ↔ ∀ g ∈ segments elf, g.Served elf disk before := by
  refine forall₂_congr fun g hg => ?_
  have hsizes := helf.sizes hg
  have hbyte : ∀ {i}, g.filesz ≤ i → g.byte elf i = 0 := fun hi => if_neg (Nat.not_lt.mpr hi)
  have hfile : ∀ {i}, i < g.filesz → g.byte elf i = bytes elf (g.offset + i) := fun hi => if_pos hi
  constructor
  · rintro ⟨hfits, hall⟩
    have hcount : g.count = (g.filesz + 511) / 512 := Segment.count_eq (by omega)
    have hsector : ∀ {i}, i < g.memsz → i < 512 * g.count →
        i < 512 * delivered g.count ∧ disk (512 * g.first + i) = g.byte elf i := fun hi hin =>
      (h.provides_sector hg hi hin).mp (hall _ hi)
    refine ⟨hfits, ?_, fun {i} hi => ?_, fun {i} hlow hi hin => ?_, fun {i} hlow hi => ?_⟩
    · -- the last byte in the file is in the last sector
      by_contra hmany
      have hlast := (@hsector (g.filesz - 1) (by omega) (by omega)).1
      have hmost : delivered g.count ≤ 256 := delivered_le
      omega
    · rw [(hsector (by omega) (by omega)).2, hfile hi]
    · rw [(hsector hi hin).2, hbyte hlow]
    · rw [(h.provides_behind hg hi hlow).mp (hall _ hi), hbyte (by omega)]
  · intro hs
    have hfits := hs.fits
    have hcount : g.count = (g.filesz + 511) / 512 := Segment.count_eq (by omega)
    refine ⟨hfits, fun i hi => ?_⟩
    by_cases hin : i < 512 * g.count
    · rw [h.provides_sector hg hi hin, delivered_of_le (by omega) hs.few]
      refine ⟨hin, ?_⟩
      by_cases hlow : i < g.filesz
      · rw [hs.level hlow, hfile hlow]
      · rw [hs.padded (Nat.not_lt.mp hlow) hi hin, hbyte (Nat.not_lt.mp hlow)]
    · rw [h.provides_behind hg hi (Nat.not_lt.mp hin), hs.blank (Nat.not_lt.mp hin) hi,
        hbyte (by omega)]

/-- What starts at a sector's start is level. -/
theorem Segment.level_of_aligned (helf : KernelElf elf) (hg : g ∈ segments elf)
    (hdisk : ∀ x < elf.length, disk (512 + x) = bytes elf x) (haligned : 512 ∣ g.offset)
    (hreach : g.offset / 512 + 1 < 2 ^ 28) (hi : i < g.filesz) :
    disk (512 * g.first + i) = bytes elf (g.offset + i) := by
  have hinside := helf.inside hg
  have hoff : 512 * g.first = 512 + g.offset := by
    have hwhole := Nat.mul_div_cancel' haligned
    unfold Segment.first
    omega
  rw [hoff, Nat.add_assoc, hdisk _ (by omega)]

end Served

/-- BOOT: a kernel whose segments keep clear of the loader, of its headers and of each other is
loaded, whatever the drive gives beyond what was asked for, exactly if each segment is served. -/
theorem boot_loads_iff (elf bootloader : List UInt8) (img junk before : Mem) (l : Layout)
    (helf : KernelElf elf) (hclear : ∀ g ∈ segments elf, g.Clear l)
    (horder : InOrder (segments elf)) :
    (∀ s : Machine, s.layout = l → s.disk = writebootsect img junk bootloader elf →
      s.mem = before → ∃ t, bootMain s = .ok true t ∧ Loaded elf t.mem) ↔
    ∀ g ∈ segments elf, g.Served elf (writebootsect img junk bootloader elf) before :=
  (loads_iff_provided helf (fun _ hx => writebootsect_kernel hx) hclear).trans
    (horder.provided_iff helf)

/-! ## A kernel of one segment -/

/-- A segment of 120 bytes in the file, at 1 MB; `lo` and `hi` are the bytes of its size in
memory. -/
def sampleElf (lo hi : UInt8) : List UInt8 :=
  elfMag ++ List.replicate 28 0 ++ [64, 0, 0, 0, 0, 0, 0, 0] ++ List.replicate 16 0 ++ [1, 0] ++
    List.replicate 6 0 ++ [1, 0, 0, 0, 7, 0, 0, 0] ++ List.replicate 16 0 ++
    [0, 0, 16, 0, 0, 0, 0, 0] ++ [120, 0, 0, 0, 0, 0, 0, 0] ++ [lo, hi, 0, 0, 0, 0, 0, 0] ++
    List.replicate 8 0

/-- The stack right behind the code. -/
def sampleLayout : Layout := ⟨0xBE00, by decide, by decide⟩

/-- A kernel of one segment. -/
theorem KernelElf.single {elf : List UInt8} {g : Segment} (hsegments : segments elf = [g])
    (hmagic : ∀ i < 4, elf[i]? = elfMag[i]?) (hehdr : 64 ≤ elf.length)
    (hphdrs : phoff elf + phdrSize * phnum elf ≤ min 512 elf.length)
    (hinside : g.offset + g.filesz ≤ elf.length) (hsizes : g.filesz ≤ g.memsz) : KernelElf elf where
  magic := hmagic
  ehdr := hehdr
  phdrs := hphdrs
  inside {x} hx := by
    rw [hsegments, List.mem_singleton] at hx
    rwa [hx]
  sizes {x} hx := by
    rw [hsegments, List.mem_singleton] at hx
    rwa [hx]

/-- At 1 MB it is clear of the loader. -/
theorem sampleElf_clear {elf : List UInt8} {memsz : Nat}
    (hsegments : segments elf = [⟨0, 0x100000, 120, memsz⟩]) :
    ∀ g ∈ segments elf, g.Clear sampleLayout := by
  intro g hg
  rw [hsegments, List.mem_singleton] at hg
  subst hg
  have hfar : ∀ {a}, Segment.Covers ⟨0, 0x100000, 120, memsz⟩ a ∨
      Segment.Holds ⟨0, 0x100000, 120, memsz⟩ a → 0x100000 ≤ a := by
    intro a ha
    rcases ha with ha | ha
    · exact ha.1
    · exact ha.1
  refine ⟨?_, fun {a} ha hown => ?_, fun {a} ha => .inr (Nat.le_trans (by decide) (hfar ha))⟩
  · show 0x100000 + 512 * ((120 + 511) % 2 ^ 64 / 512 % 2 ^ 32) ≤ 2 ^ 32
    decide
  · have hlow : a < 0xBE00 := hown.2
    have hhigh := hfar ha
    omega

theorem sampleElf_300 : segments (sampleElf 44 1) = [⟨0, 0x100000, 120, 300⟩] := by decide

theorem sampleElf_1024 : segments (sampleElf 0 4) = [⟨0, 0x100000, 120, 1024⟩] := by decide

theorem sampleElf_300_kernel : KernelElf (sampleElf 44 1) :=
  .single sampleElf_300 (by decide) (by decide) (by decide) (by decide) (by decide)

theorem sampleElf_1024_kernel : KernelElf (sampleElf 0 4) :=
  .single sampleElf_1024 (by decide) (by decide) (by decide) (by decide) (by decide)

/-- The disk `writebootsect` makes of blank ones, behind the kernel. -/
theorem sampleDisk_padding {i : Nat} (hlow : 120 ≤ i) (hi : i < 510) :
    writebootsect (fun _ => 0) (fun _ => 0) [] (sampleElf 44 1) (512 + i) = 0 := by
  have hne : sampleElf 44 1 ≠ [] := by decide
  have hshort : (sampleElf 44 1).drop 512 = [] := by decide
  have hlen : ((sampleElf 44 1).take 512).length = 120 := by decide
  unfold writebootsect
  rw [copyKernel_turn _ _ _ hne, hshort, copyKernel_below 0 (Nat.le_refl _) (by omega),
    Mem.overlay_in (by omega), Nat.add_sub_cancel_left, readInto_ge (by omega),
    Function.update_of_ne (by omega), Function.update_of_ne (by omega), readInto_ge (Nat.zero_le _)]

/-- What it has in memory beyond the file is in its one sector. -/
theorem boot_loads_sample :
    ∃ t, bootMain (.fresh sampleLayout (writebootsect (fun _ => 0) (fun _ => 0) [] (sampleElf 44 1))
      (fun _ => 0xFF) 0xAA) = .ok true t ∧ Loaded (sampleElf 44 1) t.mem := by
  have helf := sampleElf_300_kernel
  refine (boot_loads_iff (sampleElf 44 1) [] (fun _ => 0) (fun _ => 0) (fun _ => 0xFF) sampleLayout
    helf (sampleElf_clear sampleElf_300) ?_).mpr (fun g hg => ?_) _ rfl rfl rfl
  · rw [sampleElf_300]
    exact List.pairwise_singleton _ _
  · have hdisk : ∀ x < (sampleElf 44 1).length,
        writebootsect (fun _ => 0) (fun _ => 0) [] (sampleElf 44 1) (512 + x) =
          bytes (sampleElf 44 1) x := fun _ hx => writebootsect_kernel hx
    have hlevel : ∀ {i}, i < g.filesz → _ := fun {i} hi =>
      Segment.level_of_aligned (i := i) helf hg hdisk
    rw [sampleElf_300, List.mem_singleton] at hg
    subst hg
    exact {
      fits := by decide
      few := by decide
      level := fun hi => hlevel hi (by decide) (by decide) hi
      padded := fun hlow hi _ => sampleDisk_padding hlow (Nat.lt_trans hi (by decide))
      blank := fun hlow hi => absurd (Nat.lt_of_le_of_lt hlow hi) (by decide) }

/-- The loader stores nothing beyond a segment's last sector. -/
theorem boot_bss : ¬ ∀ (elf bootloader : List UInt8) (img junk : Mem) (s : Machine), KernelElf elf →
    s.disk = writebootsect img junk bootloader elf →
      ∃ t, bootMain s = .ok true t ∧ Loaded elf t.mem := by
  intro h
  have helf := sampleElf_1024_kernel
  obtain ⟨t, ht, hloaded⟩ := h (sampleElf 0 4) [] (fun _ => 0) (fun _ => 0)
    (.fresh sampleLayout (writebootsect (fun _ => 0) (fun _ => 0) [] (sampleElf 0 4))
      (fun _ => 0xFF) 0) helf rfl
  obtain ⟨t', ht', hsettled⟩ := bootMain_run
    (s := .fresh sampleLayout (writebootsect (fun _ => 0) (fun _ => 0) [] (sampleElf 0 4))
      (fun _ => 0xFF) 0) helf (fun x hx => writebootsect_kernel hx) (sampleElf_clear sampleElf_1024)
  rw [ht'] at ht
  injection ht with _ heq
  have hbyte := (hloaded _ (by rw [sampleElf_1024]; exact List.mem_singleton_self _)).2 512
    (by decide)
  have hfar : output + 512 ≤ 0x100000 + 512 := Nat.add_le_add_right (by decide) 512
  have hown : ¬ sampleLayout.Own (0x100000 + 512) := fun hown => absurd hown.2 (by decide)
  have hbrings := hsettled.brings hown (.inr hfar)
  have hnone : lastOver (segments (sampleElf 0 4)) (0x100000 + 512) = none := by
    rw [sampleElf_1024]
    decide
  unfold Brings at hbrings
  rw [hnone, heq, hbyte] at hbrings
  cases hbrings

end Myos.Boot
