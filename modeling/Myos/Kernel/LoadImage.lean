import Myos.Kernel.CopyOnWrite
import Myos.Kernel.Headers
import Myos.Kernel.Mapping

/-!
# The program linked into the kernel

`load_img` maps the pages of every segment (`memmap`) and then copies
`p_memsz` bytes of the image to `p_vaddr`. The start is rounded down and the
size up, each for itself, so that a segment that begins late in its first page
may have a page too few, on which the copy faults; and what is copied past
`p_filesz` is what follows in the image, not nought.
-/

namespace Myos.Kernel

open Myos.Lib

/-! ## The image -/

/-- A program header. -/
structure Segment where
  type : Nat
  offset : Nat
  vaddr : Nat
  filesz : Nat
  memsz : Nat
deriving DecidableEq, Repr

/-- Where the `i`-th program header is in an image that starts with `c`. -/
def phdrOff (c : Mem) (i : Nat) : Nat := ElfClass.elf64.phoff c + phdrSize * i

/-- The `i`-th program header. -/
def segment (c : Mem) (i : Nat) : Segment where
  type := Mem.rd 4 c (phdrOff c i + pTypeOff)
  offset := Mem.rd 8 c (phdrOff c i + pOffsetOff)
  vaddr := Mem.rd 8 c (phdrOff c i + pVaddrOff)
  filesz := Mem.rd 8 c (phdrOff c i + pFileszOff)
  memsz := Mem.rd 8 c (phdrOff c i + pMemszOff)

namespace Segment

variable {g : Segment} {q x : Nat}

/-- The segment has bytes in a page. -/
def Touches (g : Segment) (q : Nat) : Prop := ∃ x, g.vaddr ≤ x ∧ x < g.vaddr + g.memsz ∧ x / pageSize = q

/-- The pages that are mapped for the segment: as many as its size takes, from
that of its start on. -/
def Maps (g : Segment) (q : Nat) : Prop :=
  g.vaddr / pageSize ≤ q ∧ q < g.vaddr / pageSize + (g.memsz + pageSize - 1) / pageSize

/-- These pages hold all of the segment. -/
def Covered (g : Segment) : Prop :=
  g.memsz = 0 ∨
    g.vaddr % pageSize + g.memsz ≤ (g.memsz + pageSize - 1) / pageSize * pageSize

instance (g : Segment) : Decidable g.Covered := inferInstanceAs (Decidable (_ ∨ _))

theorem Maps.touches (h : g.Maps q) : g.Touches q := by
  unfold Maps at h
  unfold Touches
  by_cases hfirst : q = g.vaddr / pageSize
  · exact ⟨g.vaddr, by omega, by unfold pageSize at *; omega, hfirst.symm⟩
  · exact ⟨pageSize * q, by unfold pageSize at *; omega, by unfold pageSize at *; omega,
      Nat.mul_div_cancel_left q (by decide)⟩

theorem Covered.maps (h : g.Covered) (hx : g.vaddr ≤ x) (hx' : x < g.vaddr + g.memsz) :
    g.Maps (x / pageSize) := by
  unfold Covered at h
  unfold Maps
  unfold pageSize at *
  omega

/-- The last byte of a segment that is not covered. -/
theorem not_maps (h : ¬ g.Covered) : 0 < g.memsz ∧ ¬ g.Maps ((g.vaddr + g.memsz - 1) / pageSize) := by
  unfold Covered at h
  unfold Maps
  unfold pageSize at *
  omega

end Segment

/-! ## `memmap` -/

/-- A page takes a frame, and three for tables at most. -/
theorem memmapLoop_spends (pgdir start n i : Nat) :
    Spends id (4 * n) (memmapLoop pgdir start n i) := by
  induction n generalizing i with
  | zero => exact Spends.pure _
  | succ n ih =>
    rw [Nat.mul_succ, Nat.add_comm]
    exact (Spends.bind (Spends.allocPage 0) fun pp =>
      Spends.bind (Spends.insertPage pgdir _ pp _) fun _ => ih _).mono (by omega)

theorem memmapLoop_starves (pgdir start n i : Nat) :
    Act.Within Mm.Starves (memmapLoop pgdir start n i) := by
  induction n generalizing i with
  | zero => exact Starves.pure _
  | succ n ih =>
    exact Starves.bind (Starves.allocPage 0) fun pp =>
      Starves.bind (insertPage_starves pgdir _ pp _) fun _ => ih _

namespace Loading

variable {root : Nat → Option Nat} {kdir p g : Nat} {s₀ s : Mm} {done : Nat → Prop}

/-- RUN: the loop of `memmap` adds the pages it comes to. -/
theorem memmapLoop (h : Loading root kdir p g s₀ s done) (hroot : root p = some g)
    {start n i a : Nat} (ha : start + i = pageSize * a)
    (hlo : utext ≤ pageSize * a) (hhi : pageSize * (a + n) ≤ ustacktop)
    (hnew : ∀ q, a ≤ q → q < a + n → ¬ done q)
    (hns : (Myos.Kernel.memmapLoop (frameVa g) start n i s).state.starved = false) :
    ∃ s', Myos.Kernel.memmapLoop (frameVa g) start n i s = .ok () s' ∧
      Loading root kdir p g s₀ s' (fun q => done q ∨ a ≤ q ∧ q < a + n) ∧
      Keeps root p done s s' := by
  induction n generalizing s done i a with
  | zero =>
    exact ⟨s, rfl, h.congr fun q => ⟨fun hd => hd.resolve_right (by omega), .inl⟩,
      fun _ _ _ => rfl⟩
  | succ n ih =>
    have hva : UserVa (start + i) := by
      unfold UserVa
      unfold pageSize at *
      omega
    have hdiv : (start + i) / pageSize = a := by rw [ha, Nat.mul_div_cancel_left a (by decide)]
    have hu32 : u32 ((start + i : Nat) : Int) = start + i := u32_nat (by
      have := hva.2
      unfold ustacktop pageSize at this
      omega)
    have hpush := congrArg u32 (Nat.cast_add (R := Int) start i)
    unfold Myos.Kernel.memmapLoop at hns ⊢
    rw [← hpush, hu32, ← Act.bind_assoc] at hns ⊢
    have hns₁ := Starves.of_bind (fun _ => memmapLoop_starves _ _ _ _) hns
    obtain ⟨q, s₁, hrun, -, h₁, hkeep⟩ := h.page hroot hva
      (by rw [hdiv]; exact hnew a (Nat.le_refl a) (by omega)) 0 hns₁
    have hrun' : (allocPage 0 >>= fun pp =>
        insertPage (frameVa g) (start + i) pp (pteU ||| pteW ||| pteP)) s = .ok 0 s₁ := hrun
    rw [Act.bind_ok hrun'] at hns ⊢
    have hd : ∀ x, done x ∨ x = (start + i) / pageSize ↔ done x ∨ x = a := fun x => by rw [hdiv]
    obtain ⟨s', hrest, h', hkeep'⟩ := ih (h₁.congr fun x => (hd x).symm) (a := a + 1)
      (by rw [Nat.mul_add, ← ha]; omega)
      (Nat.le_trans hlo (Nat.mul_le_mul_left pageSize (Nat.le_succ a))) (by rwa [Nat.add_right_comm, Nat.add_assoc])
      (fun q h1 h2 => fun hq => hq.elim (hnew q (by omega) (by omega)) (by omega)) hns
    refine ⟨s', hrest, h'.congr fun x => ?_, fun va hva hd =>
      (hkeep' va hva (.inl hd)).trans (hkeep va hva hd)⟩
    constructor
    · rintro (hx | hx)
      · exact .inl (.inl hx)
      · by_cases hxa : x = a
        · exact .inl (.inr hxa)
        · exact .inr (by omega)
    · rintro ((hx | hx) | hx)
      · exact .inl hx
      · exact .inr (by omega)
      · exact .inr (by omega)

/-- `memmap` adds the pages of a segment. -/
theorem memmap (h : Loading root kdir p g s₀ s done) (hroot : root p = some g) {e : Segment}
    (hlo : utext ≤ e.vaddr) (hhi : e.vaddr + e.memsz ≤ ustacktop)
    (hnew : ∀ q, e.Maps q → ¬ done q)
    (hns : (Myos.Kernel.memmap (frameVa g) e.vaddr e.memsz s).state.starved = false) :
    ∃ s', Myos.Kernel.memmap (frameVa g) e.vaddr e.memsz s = .ok () s' ∧
      Loading root kdir p g s₀ s' (fun q => done q ∨ e.Maps q) ∧ Keeps root p done s s' := by
  have hstart : u32 ((e.vaddr / pageSize * pageSize : Nat) : Int) = e.vaddr / pageSize * pageSize :=
    u32_nat (by unfold ustacktop pageSize at *; omega)
  have hsize : u32 ((e.memsz + pageSize - 1 : Nat) : Int) = e.memsz + pageSize - 1 :=
    u32_nat (by unfold utext ustacktop pageSize at *; omega)
  have heq : Myos.Kernel.memmap (frameVa g) e.vaddr e.memsz =
      Myos.Kernel.memmapLoop (frameVa g) (e.vaddr / pageSize * pageSize)
        ((e.memsz + pageSize - 1) / pageSize) 0 := by
    unfold Myos.Kernel.memmap
    dsimp only
    rw [hstart, hsize, Nat.mul_div_cancel _ (by decide)]
  rw [heq] at hns ⊢
  exact h.memmapLoop hroot (by rw [Nat.add_zero, Nat.mul_comm])
    (by unfold utext pageSize at *; omega) (by unfold ustacktop pageSize at *; omega)
    (fun q h1 h2 => hnew q ⟨h1, h2⟩) hns

/-- STEP: a segment is mapped and copied, or the copy comes to a page it has not. -/
theorem segment (h : Loading root kdir p g s₀ s done) (hroot : root p = some g) {e : Segment}
    (hlo : utext ≤ e.vaddr) (hhi : e.vaddr + e.memsz ≤ ustacktop)
    (hnew : ∀ q, e.Touches q → ¬ done q) (ps : Nat) (hps : ps + e.memsz ≤ 2 ^ 31)
    (hsrc : ∀ x, ps ≤ x → x < ps + e.memsz → s₀.Plain root (x / pageSize))
    (hns : (Myos.Kernel.memmap (frameVa g) e.vaddr e.memsz s).state.starved = false) :
    (e.Covered → ∃ s', (Myos.Kernel.memmap (frameVa g) e.vaddr e.memsz >>= fun _ =>
        memcpy e.vaddr (kbase + ps) e.memsz) s = .ok () s' ∧
      Loading root kdir p g s₀ s' (fun q => done q ∨ e.Maps q) ∧ Keeps root p done s s' ∧
      ∀ x, e.vaddr ≤ x → x < e.vaddr + e.memsz →
        view s'.mem root p x = s₀.mem (ps + (x - e.vaddr))) ∧
    (¬ e.Covered → ∃ s', (Myos.Kernel.memmap (frameVa g) e.vaddr e.memsz >>= fun _ =>
        memcpy e.vaddr (kbase + ps) e.memsz) s = .fault s') := by
  obtain ⟨s₁, hrun, h₁, hkeep⟩ := h.memmap hroot hlo hhi (fun q hq => hnew q hq.touches) hns
  have huser : ∀ x, e.vaddr ≤ x → x < e.vaddr + e.memsz → UserVa x := fun x h1 h2 =>
    ⟨Nat.le_trans hlo h1, Nat.lt_of_lt_of_le h2 hhi⟩
  rw [Act.bind_ok hrun]
  constructor
  · intro hcov
    obtain ⟨s', hcopy, hcopied⟩ := h₁.vm.memcpy_user hroot h₁.cr3 hps
      (fun x h1 h2 => (h₁.spared _ (hsrc x h1 h2)).1) huser
      (fun x h1 h2 => h₁.own (huser x h1 h2) (.inr (hcov.maps h1 h2)))
    refine ⟨s', hcopy, h₁.copied hcopied, fun va hva hd => ?_, fun x h1 h2 => ?_⟩
    · rw [hcopied.outside hva, hkeep va hva hd]
      rintro ⟨-, h1, h2⟩
      exact hnew _ ⟨va, h1, h2, rfl⟩ hd
    · rw [hcopied.inside (huser x h1 h2) ⟨h1, h2⟩, h₁.spared.byte (hsrc _ (by omega) (by omega))]
  · intro hcov
    obtain ⟨hpos, hlast⟩ := Segment.not_maps hcov
    refine h₁.vm.memcpy_user_fault hroot h₁.cr3 hps huser (fun x h1 h2 => ?_)
      ⟨e.vaddr + e.memsz - 1, by omega, by omega, h₁.empty (huser _ (by omega) (by omega)) ?_⟩
    · by_cases hm : e.Maps (x / pageSize)
      · exact .inl (h₁.own (huser x h1 h2) (.inr hm))
      · refine .inr (h₁.empty (huser x h1 h2) fun hd => ?_)
        exact hd.elim (hnew _ ⟨x, h1, h2, rfl⟩) hm
    · exact fun hd => hd.elim (hnew _ ⟨_, by omega, by omega, rfl⟩) hlast

end Loading

/-! ## `load_img` -/

/-- The start of an ELF file at `pb`, `n` bytes that are the kernel's own: its header,
and its program headers. -/
structure ElfAt (s : Mm) (root : Nat → Option Nat) (pb n : Nat) (c : Mem) : Prop where
  direct : pb + n < 2 ^ 31
  bytes : ∀ i, i < n → s.mem (pb + i) = c i
  plain : ∀ i, i < n → s.Plain root ((pb + i) / pageSize)
  magic : magic c
  header : 64 ≤ n
  headers : ∀ {i}, i < ElfClass.elf64.phnum c → phdrOff c i + phdrSize ≤ n

/-- An ELF image of the kernel at `pb`, with all that is copied. Its segments are user
addresses, and share no page with each other and with the stack. -/
structure Image (s : Mm) (root : Nat → Option Nat) (pb n : Nat) (c : Mem) : Prop
    extends ElfAt s root pb n c where
  inside : ∀ {i}, i < ElfClass.elf64.phnum c → (segment c i).type = ptLoad →
    (segment c i).offset + (segment c i).memsz ≤ n
  user : ∀ {i}, i < ElfClass.elf64.phnum c → (segment c i).type = ptLoad →
    utext ≤ (segment c i).vaddr ∧ (segment c i).vaddr + (segment c i).memsz ≤ ustacktop
  apart : ∀ {i j q}, i < j → j < ElfClass.elf64.phnum c → (segment c i).type = ptLoad →
    (segment c j).type = ptLoad → (segment c i).Touches q → ¬ (segment c j).Touches q
  stack : ∀ {i}, i < ElfClass.elf64.phnum c → (segment c i).type = ptLoad →
    ¬ (segment c i).Touches (stackPage / pageSize)

/-- The pages of the first `i` headers. -/
def MapsUpTo (c : Mem) (i q : Nat) : Prop :=
  ∃ j, j < i ∧ (segment c j).type = ptLoad ∧ (segment c j).Maps q

theorem mapsUpTo_load {c : Mem} {i : Nat} (ht : (segment c i).type = ptLoad) (q : Nat) :
    MapsUpTo c (i + 1) q ↔ MapsUpTo c i q ∨ (segment c i).Maps q := by
  constructor
  · rintro ⟨j, hj, htj, hm⟩
    by_cases hji : j = i
    · exact .inr (hji ▸ hm)
    · exact .inl ⟨j, by omega, htj, hm⟩
  · rintro (⟨j, hj, htj, hm⟩ | hm)
    · exact ⟨j, by omega, htj, hm⟩
    · exact ⟨i, Nat.lt_succ_self i, ht, hm⟩

theorem mapsUpTo_skip {c : Mem} {i : Nat} (ht : (segment c i).type ≠ ptLoad) (q : Nat) :
    MapsUpTo c (i + 1) q ↔ MapsUpTo c i q := by
  constructor
  · rintro ⟨j, hj, htj, hm⟩
    have hji : j ≠ i := fun hji => ht (hji ▸ htj)
    exact ⟨j, by omega, htj, hm⟩
  · rintro ⟨j, hj, htj, hm⟩
    exact ⟨j, by omega, htj, hm⟩

/-- The first `i` segments have all their pages, and show what the image holds at
their offsets. -/
structure ShowsImage (root : Nat → Option Nat) (p : Nat) (c : Mem) (i : Nat) (s : Mm) : Prop where
  covered : ∀ {j}, j < i → (segment c j).type = ptLoad → (segment c j).Covered
  bytes : ∀ {j x}, j < i → (segment c j).type = ptLoad → (segment c j).vaddr ≤ x →
    x < (segment c j).vaddr + (segment c j).memsz →
    view s.mem root p x = c ((segment c j).offset + (x - (segment c j).vaddr))

section Segments

variable {root : Nat → Option Nat} {kdir p g pb n : Nat} {c : Mem} {s₀ s : Mm}

/-- A number of the image reads as it stands there. -/
theorem ElfAt.load (h : ElfAt s₀ root pb n c) (hsp : Spared root s₀ s) {k o : Nat} (hk : 0 < k)
    (ho : o + k ≤ n) : load k (kbase + (pb + o)) s = .ok (Mem.rd k c o) s := by
  have hdirect := h.direct
  rw [load_ok (s.kpa_direct (by omega : pb + o < 2 ^ 31))]
  refine congrArg (Res.ok · s) (Mem.rd_shift fun i hi => ?_)
  rw [Nat.add_assoc, hsp.byte (h.plain (o + i) (by omega)), h.bytes (o + i) (by omega)]

theorem loadSegments_starves (pgdir output phdrs n i : Nat) :
    Act.Within Mm.Starves (loadSegments pgdir output phdrs n i) := by
  induction n generalizing i with
  | zero => exact Starves.pure _
  | succ n ih =>
    refine Starves.bind (Starves.load 4 _) fun t => ?_
    split
    · exact Starves.bind (Starves.load 8 _) fun vaddr => Starves.bind (Starves.load 8 _) fun memsz =>
        Starves.bind (Starves.load 8 _) fun offset =>
        Starves.bind (memmapLoop_starves _ _ _ _) fun _ => Starves.bind (Starves.memcpy _ _ _) fun _ =>
        ih _
    · exact ih _

/-- A field of a program header. -/
theorem ElfAt.field (h : ElfAt s₀ root pb n c) (hsp : Spared root s₀ s) {i : Nat}
    (hi : i < ElfClass.elf64.phnum c) (k off : Nat) (hk : 0 < k) (hoff : off + k ≤ phdrSize) :
    Myos.Kernel.load k (kbase + (pb + ElfClass.elf64.phoff c) + phdrSize * i + off) s =
      .ok (Mem.rd k c (phdrOff c i + off)) s := by
  have haddr : kbase + (pb + ElfClass.elf64.phoff c) + phdrSize * i + off =
      kbase + (pb + (phdrOff c i + off)) := by
    unfold phdrOff
    omega
  have hend := h.headers hi
  rw [haddr, h.load hsp hk (by omega)]

/-- The turn of the loop for a segment, with what its header says. -/
theorem loadSegments_load (h : Image s₀ root pb n c) (hsp : Spared root s₀ s) {i m : Nat}
    (hi : i < ElfClass.elf64.phnum c) (ht : (segment c i).type = ptLoad) (pgdir : Nat) :
    loadSegments pgdir (kbase + pb) (kbase + (pb + ElfClass.elf64.phoff c)) (m + 1) i s =
      ((memmap pgdir (segment c i).vaddr (segment c i).memsz >>= fun _ =>
        memcpy (segment c i).vaddr (kbase + (pb + (segment c i).offset)) (segment c i).memsz) >>=
        fun _ => loadSegments pgdir (kbase + pb) (kbase + (pb + ElfClass.elf64.phoff c)) m (i + 1)) s := by
  obtain ⟨hlo, hhi⟩ := h.user hi ht
  have hin := h.inside hi ht
  have hdirect := h.direct
  have htype := h.field hsp hi 4 pTypeOff (by decide) (by decide)
  have hvaddr := h.field hsp hi 8 pVaddrOff (by decide) (by decide)
  have hmemsz := h.field hsp hi 8 pMemszOff (by decide) (by decide)
  have hoffset := h.field hsp hi 8 pOffsetOff (by decide) (by decide)
  have hu32 : u32 ((segment c i).memsz : Int) = (segment c i).memsz :=
    u32_nat (by unfold utext ustacktop pageSize at *; omega)
  have hu64 : u64 (kbase + pb + (segment c i).offset) = kbase + (pb + (segment c i).offset) := by
    unfold u64 kbase
    omega
  have ht' : Mem.rd 4 c (phdrOff c i + pTypeOff) = ptLoad := ht
  rw [loadSegments, Act.bind_ok htype, if_pos ht', Act.bind_ok hvaddr,
    Act.bind_ok hmemsz, Act.bind_ok hoffset, Act.bind_assoc]
  show (memmap pgdir (segment c i).vaddr (u32 ((segment c i).memsz : Int)) >>= fun _ =>
    memcpy (segment c i).vaddr (u64 (kbase + pb + (segment c i).offset))
      (u32 ((segment c i).memsz : Int)) >>= fun _ => _) s = _
  rw [hu32, hu64]

/-- The turn of the loop for another header. -/
theorem loadSegments_skip (h : Image s₀ root pb n c) (hsp : Spared root s₀ s) {i m : Nat}
    (hi : i < ElfClass.elf64.phnum c) (ht : (segment c i).type ≠ ptLoad) (pgdir : Nat) :
    loadSegments pgdir (kbase + pb) (kbase + (pb + ElfClass.elf64.phoff c)) (m + 1) i s =
      loadSegments pgdir (kbase + pb) (kbase + (pb + ElfClass.elf64.phoff c)) m (i + 1) s := by
  have htype := h.field hsp hi 4 pTypeOff (by decide) (by decide)
  have ht' : ¬ Mem.rd 4 c (phdrOff c i + pTypeOff) = ptLoad := ht
  rw [loadSegments, Act.bind_ok htype, if_neg ht']

/-- RUN: the loop of `load_img` comes to its end just if every segment has all its
pages, and then every segment shows what the image holds. -/
theorem loadSegments_run (himg : Image s₀ root pb n c) (hroot : root p = some g) {m i : Nat}
    (h : Loading root kdir p g s₀ s (MapsUpTo c i)) (hshow : ShowsImage root p c i s)
    (hi : i + m = ElfClass.elf64.phnum c)
    (hns : (loadSegments (frameVa g) (kbase + pb) (kbase + (pb + ElfClass.elf64.phoff c)) m i
      s).state.starved = false) :
    ((∀ j, i ≤ j → j < i + m → (segment c j).type = ptLoad → (segment c j).Covered) →
      ∃ s', loadSegments (frameVa g) (kbase + pb) (kbase + (pb + ElfClass.elf64.phoff c)) m i s =
          .ok () s' ∧
        Loading root kdir p g s₀ s' (MapsUpTo c (i + m)) ∧ ShowsImage root p c (i + m) s') ∧
    ((∃ j, i ≤ j ∧ j < i + m ∧ (segment c j).type = ptLoad ∧ ¬ (segment c j).Covered) →
      ∃ s', loadSegments (frameVa g) (kbase + pb) (kbase + (pb + ElfClass.elf64.phoff c)) m i s =
        .fault s') := by
  induction m generalizing i s with
  | zero =>
    exact ⟨fun _ => ⟨s, rfl, h, hshow⟩, fun ⟨j, h1, h2, _⟩ => absurd h2 (by omega)⟩
  | succ m ih =>
    have hlt : i < ElfClass.elf64.phnum c := by omega
    have hnext : i + 1 + m = i + (m + 1) := by omega
    by_cases ht : (segment c i).type = ptLoad
    · obtain ⟨hlo, hhi⟩ := himg.user hlt ht
      have hin := himg.inside hlt ht
      have hdirect := himg.direct
      rw [loadSegments_load himg h.spared hlt ht] at hns ⊢
      have hns₁ := Starves.of_bind (fun _ => Starves.memcpy _ _ _)
        (Starves.of_bind (fun _ => loadSegments_starves _ _ _ _ _) hns)
      obtain ⟨hok, hfault⟩ := h.segment hroot hlo hhi
        (fun q hq hd => by
          obtain ⟨j, hj, htj, hm⟩ := hd
          exact himg.apart hj hlt htj ht hm.touches hq)
        (pb + (segment c i).offset) (by omega)
        (fun x h1 h2 => by
          have hplain := himg.plain (x - pb) (by omega)
          rwa [Nat.add_sub_cancel' (by omega)] at hplain) hns₁
      by_cases hcov : (segment c i).Covered
      · obtain ⟨s₁, hrun, h₁, hkeep, hbytes⟩ := hok hcov
        rw [Act.bind_ok hrun] at hns ⊢
        have hshow₁ : ShowsImage root p c (i + 1) s₁ := by
          refine ⟨fun {j} hj htj => ?_, fun {j x} hj htj h1 h2 => ?_⟩
          · by_cases hji : j = i
            · exact hji ▸ hcov
            · exact hshow.covered (by omega) htj
          · by_cases hji : j = i
            · subst hji
              rw [hbytes x h1 h2, Nat.add_assoc, himg.bytes _ (by omega)]
            · have hj' : j < i := by omega
              obtain ⟨hloj, hhij⟩ := himg.user (by omega) htj
              rw [hkeep x ⟨by omega, by omega⟩
                ⟨j, hj', htj, (hshow.covered hj' htj).maps h1 h2⟩, hshow.bytes hj' htj h1 h2]
        obtain ⟨hok', hfault'⟩ := ih (h₁.congr (mapsUpTo_load ht)) hshow₁ (by omega) hns
        rw [hnext] at hok' hfault'
        refine ⟨fun hall => hok' fun j h1 h2 => hall j (by omega) h2, fun hex => hfault' ?_⟩
        obtain ⟨j, h1, h2, htj, hj⟩ := hex
        have hji : j ≠ i := fun hji => hj (hji ▸ hcov)
        exact ⟨j, by omega, h2, htj, hj⟩
      · obtain ⟨s₁, hrun⟩ := hfault hcov
        refine ⟨fun hall => absurd (hall i (Nat.le_refl i) (by omega) ht) hcov, fun _ => ⟨s₁, ?_⟩⟩
        exact Act.bind_fault hrun
    · rw [loadSegments_skip himg h.spared hlt ht] at hns ⊢
      have hbefore : ∀ {j}, j < i + 1 → (segment c j).type = ptLoad → j < i := fun {j} hj htj => by
        have hji : j ≠ i := fun hji => ht (hji ▸ htj)
        omega
      obtain ⟨hok', hfault'⟩ := ih (h.congr (mapsUpTo_skip ht)) ⟨fun hj htj => hshow.covered (hbefore hj htj) htj,
        fun hj htj h1 h2 => hshow.bytes (hbefore hj htj) htj h1 h2⟩ (by omega) hns
      rw [hnext] at hok' hfault'
      refine ⟨fun hall => hok' fun j h1 h2 => hall j (by omega) h2, fun hex => hfault' ?_⟩
      obtain ⟨j, h1, h2, htj, hj⟩ := hex
      have hji : j ≠ i := fun hji => ht (hji ▸ htj)
      exact ⟨j, by omega, h2, htj, hj⟩

theorem insertPage_load_starves (pgdir va binary : Nat) (pp : Option Nat) :
    Act.Within Mm.Starves (do
      let _ ← insertPage pgdir va pp (pteU ||| pteW ||| pteP)
      let entry ← Myos.Kernel.load 8 (binary + eEntryOff)
      return some entry) :=
  Starves.bind (insertPage_starves _ _ _ _) fun _ => Starves.bind (Starves.load 8 _) fun _ =>
    Starves.pure _

theorem ElfAt.isElf (h : ElfAt s₀ root pb n c) (hsp : Spared root s₀ s) :
    isElf (kbase + pb) s = .ok true s := by
  have hheader := h.header
  have h0 := h.load hsp (k := 1) (o := 0) (by decide) (by omega)
  have h1 := h.load hsp (k := 1) (o := 1) (by decide) (by omega)
  have h2 := h.load hsp (k := 1) (o := 2) (by decide) (by omega)
  have h3 := h.load hsp (k := 1) (o := 3) (by decide) (by omega)
  rw [Nat.add_zero] at h0
  rw [← Nat.add_assoc] at h1 h2 h3
  unfold Myos.Kernel.isElf
  rw [Act.bind_ok h0, Act.bind_ok h1, Act.bind_ok h2, Act.bind_ok h3]
  show Res.ok (decide (Myos.Kernel.magic c)) s = _
  rw [decide_eq_true h.magic]

/-- Where the header says that the program headers are, and how many. -/
theorem ElfAt.parse (h : ElfAt s₀ root pb n c) (hsp : Spared root s₀ s) :
    Myos.Kernel.load 8 (kbase + pb + ePhoffOff) s = .ok (ElfClass.elf64.phoff c) s ∧
      Myos.Kernel.load 2 (kbase + pb + ePhnumOff) s = .ok (ElfClass.elf64.phnum c) s := by
  have hheader := h.header
  rw [Nat.add_assoc, Nat.add_assoc]
  exact ⟨h.load hsp (by decide) (by unfold ePhoffOff; omega),
    h.load hsp (by decide) (by unfold ePhnumOff; omega)⟩

/-- Where they are, if there are any. -/
theorem ElfAt.phdrs (h : ElfAt s₀ root pb n c) (hne : ElfClass.elf64.phnum c ≠ 0) :
    u64 (kbase + pb + ElfClass.elf64.phoff c) = kbase + (pb + ElfClass.elf64.phoff c) := by
  have hdirect := h.direct
  have hfirst := h.headers (Nat.pos_of_ne_zero hne)
  unfold phdrOff at hfirst
  unfold u64 kbase
  omega

/-- `load_img` once the header was read. -/
theorem loadImg_headers (himg : Image s root pb n c) (pgdir : Nat) :
    loadImg pgdir (kbase + pb) s =
      (loadSegments pgdir (kbase + pb) (kbase + (pb + ElfClass.elf64.phoff c))
        (ElfClass.elf64.phnum c) 0 >>= fun _ => do
          let pp ← allocPage 1
          let _ ← insertPage pgdir (ustacktop - pageSize) pp (pteU ||| pteW ||| pteP)
          let entry ← load 8 (kbase + pb + eEntryOff)
          return some entry) s := by
  obtain ⟨hphoff, hphnum⟩ := himg.parse (Spared.refl s)
  unfold loadImg
  rw [Act.bind_ok (himg.isElf (Spared.refl s)), if_pos rfl, Act.bind_ok hphoff,
    Act.bind_ok hphnum]
  by_cases hne : ElfClass.elf64.phnum c = 0
  · have hnone : ∀ phdrs, loadSegments pgdir (kbase + pb) phdrs 0 0 = pure () := fun _ => rfl
    rw [hne, hnone, hnone]
  · rw [himg.phdrs hne]

/-- `load_img` returns just if every segment has all its pages. -/
theorem loadImg_run (himg : Image s root pb n c) (hroot : root p = some g)
    (h : Loading root kdir p g s s fun _ => False)
    (hns : (loadImg (frameVa g) (kbase + pb) s).state.starved = false) :
    ((∀ j, j < ElfClass.elf64.phnum c → (segment c j).type = ptLoad → (segment c j).Covered) →
      ∃ entry s', loadImg (frameVa g) (kbase + pb) s = .ok (some entry) s' ∧
        Loading root kdir p g s s' (fun q => MapsUpTo c (ElfClass.elf64.phnum c) q ∨
          q = stackPage / pageSize) ∧ ShowsImage root p c (ElfClass.elf64.phnum c) s') ∧
    ((∃ j, j < ElfClass.elf64.phnum c ∧ (segment c j).type = ptLoad ∧ ¬ (segment c j).Covered) →
      ∃ s', loadImg (frameVa g) (kbase + pb) s = .fault s') := by
  have hheader := himg.header
  rw [loadImg_headers himg] at hns ⊢
  have hns₁ := Starves.of_bind (fun _ => Starves.bind (Starves.allocPage 1) fun pp =>
    insertPage_load_starves _ _ _ pp) hns
  obtain ⟨hok, hfault⟩ := loadSegments_run himg hroot (h.congr fun q => by
      unfold MapsUpTo
      exact ⟨fun ⟨j, hj, _⟩ => absurd hj (Nat.not_lt_zero j), False.elim⟩)
    ⟨fun hj => absurd hj (Nat.not_lt_zero _), fun hj => absurd hj (Nat.not_lt_zero _)⟩
    (Nat.zero_add _) hns₁
  rw [Nat.zero_add] at hok hfault
  constructor
  · intro hall
    obtain ⟨s₁, hrun, h₁, hshow⟩ := hok fun j _ hj htj => hall j hj htj
    rw [Act.bind_ok hrun, ← Act.bind_assoc] at hns ⊢
    have hnew : ¬ MapsUpTo c (ElfClass.elf64.phnum c) (stackPage / pageSize) := by
      rintro ⟨j, hj, htj, hm⟩
      exact himg.stack hj htj hm.touches
    have hns₂ : ((allocPage 1 >>= fun pp => insertPage (frameVa g) stackPage pp pageFlags)
        s₁).state.starved = false :=
      Starves.of_bind (fun _ => Starves.bind (Starves.load 8 _) fun _ => Starves.pure _) hns
    obtain ⟨q, s₂, hrun₂, -, h₂, hkeep⟩ := h₁.page hroot userVa_stackPage hnew 1 hns₂
    have hrun₂' : (allocPage 1 >>= fun pp => insertPage (frameVa g) (ustacktop - pageSize) pp
        (pteU ||| pteW ||| pteP)) s₁ = .ok 0 s₂ := hrun₂
    have hentry : load 8 (kbase + pb + eEntryOff) s₂ = .ok (Mem.rd 8 c eEntryOff) s₂ := by
      rw [Nat.add_assoc]
      exact himg.load h₂.spared (by decide) (by unfold eEntryOff; omega)
    refine ⟨Mem.rd 8 c eEntryOff, s₂, ?_, h₂, hshow.covered, fun {j x} hj htj h1 h2 => ?_⟩
    · rw [Act.bind_ok hrun₂', Act.bind_ok hentry]
      rfl
    · obtain ⟨hlo, hhi⟩ := himg.user hj htj
      rw [hkeep x ⟨by omega, by omega⟩ ⟨j, hj, htj, (hshow.covered hj htj).maps h1 h2⟩,
        hshow.bytes hj htj h1 h2]
  · rintro ⟨j, hj, htj, hcov⟩
    obtain ⟨s', hrun⟩ := hfault ⟨j, Nat.zero_le j, hj, htj, hcov⟩
    exact ⟨s', Act.bind_fault hrun⟩

/-- Every segment is in memory, with its bytes of the file and noughts behind them. -/
structure Loads (root : Nat → Option Nat) (p : Nat) (c : Mem) (s : Mm) : Prop where
  mapped : ∀ {i x}, i < ElfClass.elf64.phnum c → (segment c i).type = ptLoad →
    (segment c i).vaddr ≤ x → x < (segment c i).vaddr + (segment c i).memsz →
    target (leaf s.mem root p x) ≠ none
  bytes : ∀ {i k}, i < ElfClass.elf64.phnum c → (segment c i).type = ptLoad →
    k < (segment c i).memsz → view s.mem root p ((segment c i).vaddr + k) =
      if k < (segment c i).filesz then c ((segment c i).offset + k) else 0

/-- `load_img` loads the segments of an image, which share no page, just if each has
all its pages and the image holds noughts behind its bytes of the file. -/
theorem load_img_exact (himg : Image s root pb n c) (hvm : Vm s root kdir ∅)
    (hroot : root p = some g) (hcr3 : s.cr3 = pageSize * g)
    (hempty : ∀ va, UserVa va → leaf s.mem root p va = 0)
    (hns : (loadImg (frameVa g) (kbase + pb) s).state.starved = false) :
    (∃ entry s', loadImg (frameVa g) (kbase + pb) s = .ok (some entry) s' ∧ Loads root p c s') ↔
      ∀ i, i < ElfClass.elf64.phnum c → (segment c i).type = ptLoad → (segment c i).Covered ∧
        ∀ k, (segment c i).filesz ≤ k → k < (segment c i).memsz →
          c ((segment c i).offset + k) = 0 := by
  have hstart : Loading root kdir p g s s fun _ => False := ⟨hvm, hcr3, Spared.refl s,
    fun _ hd => hd.elim, fun hva _ => hempty _ hva⟩
  obtain ⟨hok, hfault⟩ := loadImg_run himg hroot hstart hns
  constructor
  · rintro ⟨entry, s', hrun, hloads⟩
    have hcov : ∀ i, i < ElfClass.elf64.phnum c → (segment c i).type = ptLoad →
        (segment c i).Covered := by
      intro i hi ht
      by_contra hcov
      obtain ⟨s'', hrun'⟩ := hfault ⟨i, hi, ht, hcov⟩
      rw [hrun'] at hrun
      cases hrun
    obtain ⟨entry', s'', hrun', -, hshow⟩ := hok hcov
    rw [hrun'] at hrun
    injection hrun with _ hs
    subst hs
    refine fun i hi ht => ⟨hcov i hi ht, fun k h1 h2 => ?_⟩
    have hz := hloads.bytes hi ht h2
    rw [if_neg (Nat.not_lt_of_le h1), hshow.bytes hi ht (Nat.le_add_right _ k)
      (Nat.add_lt_add_left h2 _), Nat.add_sub_cancel_left] at hz
    exact hz
  · intro hall
    obtain ⟨entry, s', hrun, hload, hshow⟩ := hok fun j hj htj => (hall j hj htj).1
    refine ⟨entry, s', hrun, fun {i x} hi ht h1 h2 => ?_, fun {i k} hi ht hk => ?_⟩
    · obtain ⟨hlo, hhi⟩ := himg.user hi ht
      obtain ⟨f, hf, -⟩ := hload.own ⟨Nat.le_trans hlo h1, Nat.lt_of_lt_of_le h2 hhi⟩
        (.inl ⟨i, hi, ht, (hshow.covered hi ht).maps h1 h2⟩)
      rw [hf]
      exact Option.some_ne_none f
    · rw [hshow.bytes hi ht (Nat.le_add_right _ k) (Nat.add_lt_add_left hk _),
        Nat.add_sub_cancel_left]
      split
      · rfl
      · next hfile => exact (hall i hi ht).2 k (Nat.le_of_not_lt hfile) hk

end Segments

/-! ## An image to load -/

section Sample

variable {c : Mem}

/-- The kernel with an image in frame 0, at work for process 1, whose page directory
is frame 7. -/
def sampleProgram (c : Mem) : Mm :=
  { (sampleKernel.mm.setMem (sampleMem.overlay (pageSize * 0) pageSize c)).taken pgzero 7 with
    cr3 := pageSize * 7 }

/-- Two processes; the second has no pages yet. -/
def sampleRoots : Nat → Option Nat := Function.update sampleRoot 1 (some 7)

theorem sampleProgram_vm : Vm (sampleProgram c) sampleRoots 1 ∅ ∧
    (∀ va, UserVa va → leaf (sampleProgram c).mem sampleRoots 1 va = 0) ∧
    ∀ i, i < pageSize → (sampleProgram c).Plain sampleRoots ((0 + i) / pageSize) := by
  have hvm := sampleKernel_start.cow.vm
  have hmem : sampleKernel.mm.mem = sampleMem := rfl
  have hnt : ¬ IsTable userTop sampleMem sampleRoot 0 := by
    rintro ⟨r, path, hpath, hg⟩
    have := (sample_tableAt hpath hg).2
    omega
  have hother : ∀ k o, k ≠ 0 → o < pageSize → (sampleMem.overlay (pageSize * 0) pageSize c)
      (pageSize * k + o) = sampleKernel.mm.mem (pageSize * k + o) := by
    intro k o hk ho
    rw [hmem]
    refine Mem.overlay_out ?_
    unfold pageSize at *
    omega
  have hset := hvm.bytes hnt (by decide) hother
  have hplain : sampleKernel.mm.Plain sampleRoot 0 := by
    refine ⟨fun hf => ?_, hnt, ?_⟩
    · have hc := hf.2
      rw [sample_count] at hc
      exact absurd hc (by decide)
    · by_contra hne
      obtain ⟨p, va, -, hva, hf⟩ := userRefs_pos.mp (Nat.pos_of_ne_zero hne)
      rw [hmem] at hf
      obtain ⟨-, -, hleaf⟩ := sample_leaf hva.lt fun hz => by rw [hz, target_zero] at hf; cases hf
      rw [hleaf, target_tableEntry] at hf
      cases hf
  obtain ⟨htaken, -, -, hrefs, hfree, hzero⟩ := hset.taken (n := 7) rfl
  have hempty : ∀ {i}, i < userTop → Mem.entry ((sampleKernel.mm.setMem
      (sampleMem.overlay (pageSize * 0) pageSize c)).taken pgzero 7).mem 7 i = 0 := by
    intro i hi
    refine Mem.rd_zero fun x h1 h2 => ?_
    have hx := hzero (x - pageSize * 7) (by unfold userTop pageSize at *; omega)
    rwa [Nat.add_sub_cancel' (by omega)] at hx
  have hplant := htaken.plant (q := 1) (Finset.mem_insert_self 7 ∅) (by decide) rfl hrefs hempty
  rw [Finset.erase_insert (Finset.notMem_empty 7)] at hplant
  refine ⟨hplant.setCr3 (pageSize * 7), fun va hva => ?_, fun i hi => ?_⟩
  · exact (Vm.leaf_plant hempty hva.lt).trans (if_pos rfl)
  · have hframe : (0 + i) / pageSize = 0 := by
      rw [Nat.zero_add]
      exact Nat.div_eq_of_lt hi
    rw [hframe]
    obtain ⟨h07, hplain', -⟩ := hset.spared_taken (n := 7) rfl pgzero 0 (hplain.bytes hnt hother)
    obtain ⟨h1, h2, h3⟩ := hplain'.plant (q := 1) h07 rfl hempty
    exact ⟨h1, h2, h3⟩

/-- An image of one segment: its program header follows the header, and its bytes
are the first of the image. -/
def sampleLoad (vaddr filesz memsz : Nat) : Mem :=
  Mem.wr 8 (Mem.wr 8 (Mem.wr 8 (Mem.wr 8 (Mem.wr 4 (sampleElf 64) (64 + pTypeOff) ptLoad)
    (64 + pOffsetOff) 0) (64 + pVaddrOff) vaddr) (64 + pFileszOff) filesz) (64 + pMemszOff) memsz

/-- It begins with the first byte of a page. -/
theorem sampleLoad_early : magic (sampleLoad utext 2 2) ∧
    ElfClass.elf64.phoff (sampleLoad utext 2 2) = 64 ∧
    ElfClass.elf64.phnum (sampleLoad utext 2 2) = 1 ∧
    segment (sampleLoad utext 2 2) 0 = ⟨ptLoad, 0, utext, 2, 2⟩ := by
  decide

/-- It begins with the last byte of a page, and goes on in the next. -/
theorem sampleLoad_late : magic (sampleLoad (utext + 4095) 2 2) ∧
    ElfClass.elf64.phoff (sampleLoad (utext + 4095) 2 2) = 64 ∧
    ElfClass.elf64.phnum (sampleLoad (utext + 4095) 2 2) = 1 ∧
    segment (sampleLoad (utext + 4095) 2 2) 0 = ⟨ptLoad, 0, utext + 4095, 2, 2⟩ := by
  decide

theorem sampleProgram_image {e : Segment} (hm : magic c) (hoff : ElfClass.elf64.phoff c = 64)
    (hnum : ElfClass.elf64.phnum c = 1) (hseg : segment c 0 = e) (hin : e.offset + e.memsz ≤ pageSize)
    (hlo : utext ≤ e.vaddr) (hhi : e.vaddr + e.memsz ≤ stackPage) :
    Image (sampleProgram c) sampleRoots 0 pageSize c := by
  have hzero : ∀ {i}, i < ElfClass.elf64.phnum c → segment c i = e := fun hi => by
    rw [hnum] at hi
    rw [Nat.lt_one_iff.mp hi, hseg]
  refine ⟨⟨by decide, fun i hi => ?_, sampleProgram_vm.2.2, hm, by decide, fun {i} hi => ?_⟩,
    fun hi _ => ?_, fun hi _ => ?_, fun {i j q} hij hj => ?_, fun {i} hi _ => ?_⟩
  · show ((sampleMem.overlay (pageSize * 0) pageSize c).fill (pageSize * 7) pageSize 0) (0 + i) = _
    rw [Mem.fill, Mem.overlay_out (by unfold pageSize at *; omega), Mem.overlay_in (by omega),
      Nat.zero_add, Nat.mul_zero, Nat.sub_zero]
  · rw [hnum] at hi
    rw [phdrOff, hoff, Nat.lt_one_iff.mp hi]
    decide
  · rw [hzero hi]
    exact hin
  · rw [hzero hi]
    exact ⟨hlo, Nat.le_trans hhi (Nat.sub_le _ _)⟩
  · omega
  · rw [hzero hi]
    rintro ⟨x, -, h2, h3⟩
    unfold stackPage ustacktop pageSize at *
    omega

/-- The frames that are free are enough. -/
theorem sampleProgram_served {e : Segment}
    (himg : Image (sampleProgram c) sampleRoots 0 pageSize c) (hnum : ElfClass.elf64.phnum c = 1)
    (hseg : segment c 0 = e) (hload : e.type = ptLoad)
    (hone : (e.memsz + pageSize - 1) / pageSize ≤ 1) :
    (loadImg (frameVa 7) (kbase + 0) (sampleProgram c)).state.starved = false := by
  have hset : FreeList (sampleKernel.mm.setMem (sampleMem.overlay (pageSize * 0) pageSize c))
      [7, 8, 9, 10, 11, 12, 13, 14, 15, 16, 17, 18, 19, 20, 21, 22, 23] :=
    sampleKernel_list.congr rfl rfl rfl
  have htaken : FreeList ((sampleKernel.mm.setMem
      (sampleMem.overlay (pageSize * 0) pageSize c)).taken pgzero 7)
      [8, 9, 10, 11, 12, 13, 14, 15, 16, 17, 18, 19, 20, 21, 22, 23] := hset.taken
  have hlt : 0 < ElfClass.elf64.phnum c := by rw [hnum]; decide
  have hload' : (segment c 0).type = ptLoad := by rw [hseg, hload]
  have hmemmap : Spends id 4 (memmap (frameVa 7) e.vaddr e.memsz) := by
    have hsize : u32 ((e.memsz + pageSize - 1 : Nat) : Int) / pageSize * pageSize / pageSize ≤ 1 := by
      rw [Nat.mul_div_cancel _ (by decide)]
      refine Nat.le_trans (Nat.div_le_div_right ?_) hone
      unfold u32
      omega
    exact (memmapLoop_spends _ _ _ _).mono (by omega)
  have hspends : (sampleProgram c).Spends 8
      (loadImg (frameVa 7) (kbase + 0) (sampleProgram c)).state := by
    have hsegs : (sampleProgram c).Spends 4 (loadSegments (frameVa 7) (kbase + 0)
        (kbase + (0 + ElfClass.elf64.phoff c)) (0 + 1) 0 (sampleProgram c)).state := by
      rw [loadSegments_load himg (Spared.refl _) hlt hload', hseg]
      have hone := Spends.bind (k := 0) hmemmap fun _ =>
        Spends.memcpy e.vaddr (kbase + (0 + e.offset)) e.memsz
      exact Spends.bind (k := 0) hone (fun _ => Spends.pure ()) (sampleProgram c)
    have hstack : Spends id 4 (do
        let pp ← allocPage 1
        let _ ← insertPage (frameVa 7) (ustacktop - pageSize) pp (pteU ||| pteW ||| pteP)
        let entry ← load 8 (kbase + 0 + eEntryOff)
        return some entry) :=
      Spends.bind (n := 1) (k := 3) (Spends.allocPage 1) fun pp =>
        Spends.bind (k := 0) (Spends.insertPage _ _ pp _) fun _ =>
          Spends.next (Spends.load 8 _) fun _ => Spends.pure _
    have hsum := Spends.bind_from (n := 4) hsegs fun _ => hstack
    rw [loadImg_headers himg, hnum]
    exact hsum
  have hnpages : (sampleProgram c).npages = 24 := rfl
  exact (hspends _ (htaken.congr rfl rfl rfl) (by rw [hnpages]; decide) (by decide) rfl).1

/-- The second byte of the segment is on a page that is not mapped. -/
theorem load_img_uncovered : ¬ ∀ (s : Mm) (root : Nat → Option Nat) (kdir p g pb n : Nat) (c : Mem),
    Image s root pb n c → Vm s root kdir ∅ → root p = some g → s.cr3 = pageSize * g →
    (∀ va, UserVa va → leaf s.mem root p va = 0) →
    (loadImg (frameVa g) (kbase + pb) s).state.starved = false →
    ∃ entry s', loadImg (frameVa g) (kbase + pb) s = .ok (some entry) s' ∧ Loads root p c s' := by
  intro h
  obtain ⟨hm, hoff, hnum, hseg⟩ := sampleLoad_late
  have himg := sampleProgram_image hm hoff hnum hseg (by decide) (by decide) (by decide)
  obtain ⟨hvm, hempty, -⟩ := sampleProgram_vm (c := sampleLoad (utext + 4095) 2 2)
  have hns := sampleProgram_served himg hnum hseg rfl (by decide)
  obtain ⟨entry, s', hrun, -⟩ := h _ _ 1 1 7 0 pageSize _ himg hvm rfl rfl hempty hns
  obtain ⟨-, hfault⟩ := loadImg_run himg rfl ⟨hvm, rfl, Spared.refl _, fun _ hd => hd.elim,
    fun hva _ => hempty _ hva⟩ hns
  obtain ⟨s'', hrun'⟩ := hfault ⟨0, by rw [hnum]; decide, by rw [hseg], by rw [hseg]; decide⟩
  rw [hrun'] at hrun
  cases hrun

/-- A segment that fits its page is loaded. -/
theorem load_img_covered : ∃ entry s',
    loadImg (frameVa 7) (kbase + 0) (sampleProgram (sampleLoad utext 2 2)) = .ok (some entry) s' ∧
      Loads sampleRoots 1 (sampleLoad utext 2 2) s' := by
  obtain ⟨hm, hoff, hnum, hseg⟩ := sampleLoad_early
  have himg := sampleProgram_image hm hoff hnum hseg (by decide) (by decide) (by decide)
  obtain ⟨hvm, hempty, -⟩ := sampleProgram_vm (c := sampleLoad utext 2 2)
  refine (load_img_exact himg hvm rfl rfl hempty
    (sampleProgram_served himg hnum hseg rfl (by decide))).mpr fun i hi _ => ?_
  rw [hnum] at hi
  rw [Nat.lt_one_iff.mp hi, hseg]
  exact ⟨by decide, fun k h1 h2 => absurd h2 (Nat.not_lt_of_le h1)⟩

end Sample

end Myos.Kernel
