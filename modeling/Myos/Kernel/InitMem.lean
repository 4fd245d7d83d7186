import Mathlib.Tactic.IntervalCases
import Myos.Kernel.InitPage

/-!
# The first allocator

`detect_memsize` and `init_mem` of `kernel/mm.c`, under the tables `head.S` sets
up. The kernel carves four structures out of the memory behind its end: the
page directory `kpgdir`, the array `pages`, the process table, and, in low
memory, the page of the trampoline. What that memory held before is arbitrary:
bytes, and old records where the array comes to lie.

Until other tables are loaded, only what the boot tables map at `KBASE` can be
reached; `reach` stands before each store and stops where one of its bytes is
not. Addresses in `KernelImage` are those of the linker's symbols less `KBASE`.
-/

namespace Myos.Kernel

open Myos.Lib

/-! ## The boot tables -/

/-- The entries `head.S` stores to `pde2`, large pages from `KBASE` on. -/
def bootPde : List Nat :=
  [0x0 + 0x183, 0x200000 + 0x183, 0x400000 + 0x183, 0x600000 + 0x183, 0x800000 + 0x183]

/-- The physical address the boot tables give for an address of the direct map. -/
def bootPa (va : Nat) : Option Nat :=
  if kbase ≤ va then
    match bootPde[(va - kbase) / 2 ^ 21]? with
    | some e => if e &&& pteP ≠ 0 then some (e / 2 ^ 21 * 2 ^ 21 + (va - kbase) % 2 ^ 21) else none
    | none => none
  else none

/-- What the boot tables map ends here. -/
def bootMapEnd : Nat := 5 * 2 ^ 21

/-- The boot tables map the direct map up to `bootMapEnd`, and no further. -/
theorem bootPa_direct (pa : Nat) :
    bootPa (kbase + pa) = if pa < bootMapEnd then some pa else none := by
  have hend : bootMapEnd = 5 * 2 ^ 21 := rfl
  have hdm := Nat.div_add_mod pa (2 ^ 21)
  unfold bootPa
  rw [if_pos (Nat.le_add_right kbase pa), Nat.add_sub_cancel_left]
  by_cases h : pa < bootMapEnd
  · have hq : pa / 2 ^ 21 < 5 := by omega
    rw [if_pos h]
    generalize pa / 2 ^ 21 = q at hq hdm
    interval_cases q
    all_goals
      refine congrArg some ?_
      omega
  · rw [if_neg h, List.getElem?_eq_none (show 5 ≤ pa / 2 ^ 21 by omega)]

/-- The bytes are mapped. -/
def bootMapped (va n : Nat) : Prop := ∀ i, i < n → (bootPa (va + i)).isSome

instance (va n : Nat) : Decidable (bootMapped va n) := Nat.decidableBallLT n _

theorem bootMapped_direct {pa n : Nat} (hn : 0 < n) :
    bootMapped (kbase + pa) n ↔ pa + n ≤ bootMapEnd := by
  unfold bootMapped
  constructor
  · intro h
    have hlast := h (n - 1) (by omega)
    rw [Nat.add_assoc, bootPa_direct] at hlast
    by_contra hout
    rw [if_neg (by omega)] at hlast
    cases hlast
  · intro h i hi
    rw [Nat.add_assoc, bootPa_direct, if_pos (by omega)]
    rfl

/-- Before a store of `n` bytes under the boot tables. -/
def reach (va n : Nat) : Act Mm Unit := if bootMapped va n then pure () else Act.stop

/-! ## `init_mem` -/

/-- `sizeof(struct page)`. -/
def sizeofPage : Nat := 16

/-- `sizeof(struct proc)`: 22 registers, three words of an `int`, two pointers
and 32 files. -/
def sizeofProc : Nat := 464

/-- `sizeof(code)`. -/
def sizeofCode : Nat := 46

/-- The kernel as it is linked and loaded. -/
structure KernelImage where
  /-- `_end`. -/
  kend : Nat
  vmxcode : Nat
  code : Nat
  trampolineData : Nat
  /-- The entry 511 of `boot_pgkdir`. -/
  bootPml : Nat
  linked : 0x200000 ≤ kend
  last : kend + pageSize ≤ 2 ^ 31
  vmxcode_in : 0x200000 ≤ vmxcode ∧ vmxcode + sizeofCode ≤ kend
  code_in : 0x200000 ≤ code ∧ code + sizeofCode ≤ kend
  apart : code + sizeofCode ≤ vmxcode ∨ vmxcode + sizeofCode ≤ code
  trampoline_in : 0x200000 ≤ trampolineData ∧ trampolineData + pageSize ≤ kend
  entry : bootPml < 2 ^ 64

/-- What `init_mem` sets. -/
structure MemInit where
  mm : Mm
  kpgdir : Nat
  procs : Nat
  spa : Nat

/-- `detect_memsize`, on the two bytes of the CMOS. -/
def detectMemsize (lowmem highmem : UInt8) : Nat :=
  (lowmem.toNat ||| highmem.toNat <<< 8) % 2 ^ 16

/-- `((x + PAGESIZE - 1) / PAGESIZE) * PAGESIZE`. -/
def pageUp (x : Nat) : Nat := u64 (x + pageSize - 1) / pageSize * pageSize

/-- Work on the memory. -/
def initMm {α : Type} (x : Act Mm α) : Act MemInit α :=
  Act.zoom MemInit.mm (fun m s => { s with mm := m }) x

/-- `init_mem`. -/
def initMem (img : KernelImage) (memSizeKb : Nat) : Act MemInit Unit := do
  let npages := memSizeKb <<< 2
  initMm (Act.modify fun m => { m with npages := npages })
  let kused := pageUp (kbase + img.kend)
  Act.modify fun s => { s with kpgdir := kused }
  initMm (reach (kused + 8 * 511) 8)
  initMm (store 8 (kused + 8 * 511) img.bootPml)
  let kused := u64 (kused + pageSize)
  initMm (reach (kbase + img.vmxcode) sizeofCode)
  initMm (memcpy (kbase + img.vmxcode) (kbase + img.code) sizeofCode)
  Act.modify fun s => { s with spa := trampolineBase }
  initMm (reach (kpa2va trampolineBase) 4096)
  initMm (memcpy (kpa2va trampolineBase) (kbase + img.trampolineData) 4096)
  let kused := pageUp kused
  initMm (Act.modify fun m => { m with pagesVa := kused })
  let kused := pageUp (u64 (kused + sizeofPage * npages))
  Act.modify fun s => { s with procs := kused }
  initMm (reach kused (sizeofProc * 1024))
  initMm (memset kused 0 (sizeofProc * 1024))
  initMm (Act.modify fun m => { m with kusedMem := u64 (kused + sizeofProc * 1024) })
  initMm initPage

/-! ## Where the structures lie -/

namespace KernelImage

variable (img : KernelImage)

/-- The frame of `kpgdir`. -/
def kdirFrame : Nat := (img.kend + (pageSize - 1)) / pageSize

/-- The physical address of the process table, with so many KB of memory. -/
def procsAt (kb : Nat) : Nat :=
  (pageSize * (img.kdirFrame + 1) + sizeofPage * (4 * kb) + (pageSize - 1)) / pageSize * pageSize

/-- Where the kernel's own memory ends. -/
def used (kb : Nat) : Nat := img.procsAt kb + sizeofProc * 1024

/-- The first frame past it. -/
def freeFrom (kb : Nat) : Nat := (img.used kb + (pageSize - 1)) / pageSize

/-- Memory after the stores. -/
def stores (kb : Nat) (m : Mem) : Mem :=
  let m₁ := Mem.wr 8 m (pageSize * img.kdirFrame + 8 * 511) img.bootPml
  let m₂ := m₁.overlay img.vmxcode sizeofCode fun i => m₁ (img.code + i)
  let m₃ := m₂.overlay trampolineBase 4096 fun i => m₂ (img.trampolineData + i)
  m₃.fill (img.procsAt kb) (sizeofProc * 1024) 0

/-- The state `init_page` is called in. -/
def ready (kb : Nat) (s : MemInit) : MemInit where
  mm := { s.mm with
    mem := img.stores kb s.mm.mem
    npages := 4 * kb
    pagesVa := kbase + pageSize * (img.kdirFrame + 1)
    kusedMem := kbase + img.used kb }
  kpgdir := kbase + pageSize * img.kdirFrame
  procs := kbase + img.procsAt kb
  spa := trampolineBase

theorem kend_le : img.kend ≤ pageSize * img.kdirFrame := by
  unfold kdirFrame pageSize
  omega

theorem kdirFrame_le : pageSize * img.kdirFrame + 1 ≤ img.kend + pageSize := by
  unfold kdirFrame pageSize
  omega

theorem le_procsAt (kb : Nat) : pageSize * (img.kdirFrame + 1) + 64 * kb ≤ img.procsAt kb := by
  unfold procsAt pageSize sizeofPage
  omega

end KernelImage

theorem u64_direct {x : Nat} (h : x < 2 ^ 31) : u64 (kbase + x) = kbase + x := by
  unfold u64 kbase
  omega

theorem pageUp_direct {x : Nat} (h : x + pageSize ≤ 2 ^ 31) :
    pageUp (kbase + x) = kbase + (x + (pageSize - 1)) / pageSize * pageSize := by
  unfold pageUp u64 kbase
  unfold pageSize at *
  omega

/-- A multiple of the page size is its own. -/
theorem pageUp_page {k : Nat} (h : pageSize * k + pageSize ≤ 2 ^ 31) :
    pageUp (kbase + pageSize * k) = kbase + pageSize * k := by
  rw [pageUp_direct h]
  refine congrArg (kbase + ·) ?_
  unfold pageSize
  omega

section Run

variable {s : MemInit} {img : KernelImage} {kb : Nat} {α β : Type}

theorem onMm_bind {x : Act Mm α} {f : α → Act MemInit β} {a : α} {m : Mm} (h : x s.mm = .ok a m) :
    (initMm x >>= f) s = f a { s with mm := m } := Act.bind_ok (Act.zoom_ok h)

theorem reach_ok {m : Mm} {pa n : Nat} (h : pa + n ≤ bootMapEnd) :
    reach (kbase + pa) n m = .ok () m := by
  have hmapped : bootMapped (kbase + pa) n := by
    intro i hi
    rw [Nat.add_assoc, bootPa_direct, if_pos (by omega)]
    rfl
  rw [reach, if_pos hmapped]
  rfl

/-- `memcpy` within the direct map, between regions that do not meet. -/
theorem memcpy_direct {m : Mm} {pd ps n : Nat} (hd : pd + n ≤ 2 ^ 31) (hs : ps + n ≤ 2 ^ 31)
    (hdisj : ps + n ≤ pd ∨ pd + n ≤ ps) : memcpy (kbase + pd) (kbase + ps) n m =
      .ok () (m.setMem (m.mem.overlay pd n fun i => m.mem (ps + i))) := by
  refine memcpy_ok (fun m' _ i hi => ?_) hdisj
  rw [Nat.add_assoc, Nat.add_assoc]
  exact ⟨Mm.kpa_direct (by omega), Mm.kpa_direct (by omega)⟩

/-- Where the structures lie in what the boot tables map, so does all they are
made from. -/
theorem KernelImage.bounds (h : img.used kb ≤ bootMapEnd) :
    pageSize * img.kdirFrame + pageSize + 64 * kb + pageSize ≤ bootMapEnd ∧
      img.vmxcode + sizeofCode ≤ bootMapEnd ∧ img.code + sizeofCode ≤ bootMapEnd ∧
      0x9000 ≤ img.trampolineData ∧ img.trampolineData + 4096 ≤ bootMapEnd := by
  have h1 := img.kend_le
  have h2 := img.kdirFrame_le
  have h3 := img.le_procsAt kb
  have hvmx := img.vmxcode_in
  have hcin := img.code_in
  have htr := img.trampoline_in
  rw [Nat.mul_succ] at h3
  have hused : img.procsAt kb + 475136 ≤ bootMapEnd := h
  generalize img.procsAt kb = procs at *
  generalize bootMapEnd = last at *
  generalize sizeofCode = code at *
  unfold pageSize at *
  omega

/-- The addresses, as they are computed. -/
theorem KernelImage.addresses (h : pageSize * img.kdirFrame + pageSize + 64 * kb + pageSize ≤ 2 ^ 31) :
    pageUp (kbase + img.kend) = kbase + pageSize * img.kdirFrame ∧
      u64 (kbase + pageSize * img.kdirFrame + pageSize) =
        kbase + pageSize * (img.kdirFrame + 1) ∧
      pageUp (kbase + pageSize * (img.kdirFrame + 1)) =
        kbase + pageSize * (img.kdirFrame + 1) ∧
      pageUp (u64 (kbase + pageSize * (img.kdirFrame + 1) + sizeofPage * (4 * kb))) =
        kbase + img.procsAt kb := by
  have hsize : sizeofPage * (4 * kb) = 64 * kb := by
    unfold sizeofPage
    omega
  have hpos : 0 < pageSize := by decide
  have hsucc : pageSize * (img.kdirFrame + 1) = pageSize * img.kdirFrame + pageSize :=
    Nat.mul_succ pageSize img.kdirFrame
  have hnext : pageSize * img.kdirFrame + pageSize < 2 ^ 31 := by omega
  have hpages : pageSize * (img.kdirFrame + 1) + pageSize ≤ 2 ^ 31 := by omega
  have hprocs : pageSize * (img.kdirFrame + 1) + sizeofPage * (4 * kb) + pageSize ≤ 2 ^ 31 := by
    omega
  refine ⟨?_, ?_, pageUp_page hpages, ?_⟩
  · rw [pageUp_direct img.last, Nat.mul_comm pageSize, KernelImage.kdirFrame]
  · rw [Nat.add_assoc, u64_direct hnext, hsucc]
  · rw [Nat.add_assoc, u64_direct (Nat.lt_of_lt_of_le (Nat.lt_add_of_pos_right hpos) hprocs),
      pageUp_direct hprocs]
    rfl

theorem npages_eq (kb : Nat) : kb <<< 2 = 4 * kb :=
  (Nat.shiftLeft_eq kb 2).trans (Nat.mul_comm kb 4)

/-- RUN: `init_mem` up to `init_page`, where its structures lie in what the boot
tables map. -/
theorem initMem_run (h : img.used kb ≤ bootMapEnd) :
    initMem img kb s = initMm initPage (img.ready kb s) := by
  obtain ⟨hkd, hvmx, hcode, htr, htr'⟩ := img.bounds h
  have hend : bootMapEnd ≤ 2 ^ 31 := by decide
  have hpage : 8 * 511 + 8 = pageSize := rfl
  have hreach : pageSize * img.kdirFrame + 8 * 511 + 8 ≤ bootMapEnd := by omega
  have hslot : pageSize * img.kdirFrame + 8 * 511 < 2 ^ 31 := by omega
  have hused : img.procsAt kb + sizeofProc * 1024 ≤ bootMapEnd := h
  obtain ⟨hkdir, hnext, hpages, hprocs⟩ := img.addresses (Nat.le_trans hkd hend)
  have htramp : kpa2va trampolineBase = kbase + trampolineBase := by
    rw [kpa2va, Nat.add_comm trampolineBase, u64_direct (by decide)]
  have hlast : u64 (kbase + img.procsAt kb + sizeofProc * 1024) = kbase + img.used kb := by
    rw [Nat.add_assoc, u64_direct (Nat.lt_of_le_of_lt hused (by decide))]
    rfl
  have hvmx' := Nat.le_trans hvmx hend
  have hcode' := Nat.le_trans hcode hend
  have htr'' := Nat.le_trans htr' hend
  have hcopy : ∀ m : Mm, memcpy (kbase + trampolineBase) (kbase + img.trampolineData) 4096 m = _ :=
    fun m => memcpy_direct (by decide) htr'' (.inr htr)
  have hclear : ∀ m : Mm, memset (kbase + img.procsAt kb) 0 (sizeofProc * 1024) m = _ :=
    fun m => memset_direct (Nat.le_trans hused hend)
  unfold initMem
  simp only []
  rw [hkdir, hnext, hpages, npages_eq, hprocs, htramp, hlast]
  rw [onMm_bind (Act.modify_apply _ _), Act.modify_bind_apply, Nat.add_assoc,
    onMm_bind (reach_ok hreach), onMm_bind (store_ok (Mm.kpa_direct hslot)),
    onMm_bind (reach_ok hvmx), onMm_bind (memcpy_direct hvmx' hcode' img.apart),
    Act.modify_bind_apply, onMm_bind (reach_ok (by decide)), onMm_bind (hcopy _),
    onMm_bind (Act.modify_apply _ _), Act.modify_bind_apply, onMm_bind (reach_ok hused),
    onMm_bind (hclear _), onMm_bind (Act.modify_apply _ _)]
  unfold KernelImage.ready KernelImage.stores
  simp only [Mm.setMem]

theorem onMm_reach_eq_ok {va n : Nat} {s' : MemInit} {u : Unit}
    (h : initMm (reach va n) s = .ok u s') : bootMapped va n := by
  obtain ⟨m, hm, -⟩ := Act.zoom_eq_ok.mp h
  unfold reach at hm
  by_contra hno
  rw [if_neg hno] at hm
  cases hm

/-- `init_mem` comes to an end only where its structures lie in what the boot
tables map. -/
theorem used_le_of_initMem {s' : MemInit} (hkb : kb < 2 ^ 16) (h : initMem img kb s = .ok () s') :
    img.used kb ≤ bootMapEnd := by
  have hfirst : pageUp (kbase + img.kend) = kbase + pageSize * img.kdirFrame := by
    rw [pageUp_direct img.last, Nat.mul_comm pageSize, KernelImage.kdirFrame]
  unfold initMem at h
  simp only [] at h
  rw [hfirst, npages_eq] at h
  obtain ⟨_, s₁, _, h⟩ := Act.bind_eq_ok.mp h
  obtain ⟨_, s₂, _, h⟩ := Act.bind_eq_ok.mp h
  obtain ⟨_, s₃, hkpgdir, h⟩ := Act.bind_eq_ok.mp h
  have hroom := onMm_reach_eq_ok hkpgdir
  rw [Nat.add_assoc, bootMapped_direct (by decide)] at hroom
  have hkd : pageSize * img.kdirFrame + pageSize ≤ bootMapEnd := hroom
  have hsmall : pageSize * img.kdirFrame + pageSize + 64 * kb + pageSize ≤ 2 ^ 31 := by
    have hend : bootMapEnd + 2 ^ 23 ≤ 2 ^ 31 := by decide
    have hpage : pageSize ≤ 2 ^ 22 := by decide
    omega
  -- the page directory is reached, so no address wraps
  obtain ⟨-, hnext, hpages, hprocs⟩ := img.addresses hsmall
  rw [hnext, hpages, hprocs] at h
  obtain ⟨_, s₄, _, h⟩ := Act.bind_eq_ok.mp h
  obtain ⟨_, s₅, _, h⟩ := Act.bind_eq_ok.mp h
  obtain ⟨_, s₆, _, h⟩ := Act.bind_eq_ok.mp h
  obtain ⟨_, s₇, _, h⟩ := Act.bind_eq_ok.mp h
  obtain ⟨_, s₈, _, h⟩ := Act.bind_eq_ok.mp h
  obtain ⟨_, s₉, _, h⟩ := Act.bind_eq_ok.mp h
  obtain ⟨_, s₁₀, _, h⟩ := Act.bind_eq_ok.mp h
  obtain ⟨_, s₁₁, _, h⟩ := Act.bind_eq_ok.mp h
  obtain ⟨_, s₁₂, hproc, -⟩ := Act.bind_eq_ok.mp h
  have hlast := onMm_reach_eq_ok hproc
  rw [bootMapped_direct (by decide)] at hlast
  exact hlast

theorem kva2pa_direct {x : Nat} (h : x < 2 ^ 31) : kva2pa (kbase + x) = x := by
  unfold kva2pa u64 kbase
  omega

theorem ready_firstFrame (h : img.used kb ≤ bootMapEnd) :
    (img.ready kb s).mm.firstFrame = img.freeFrom kb := by
  have hend : bootMapEnd < 2 ^ 31 := by decide
  have hlt := Nat.lt_of_le_of_lt h hend
  exact firstFrame_eq (kva2pa_direct hlt) (Nat.lt_trans hlt (by decide))

/-- The kernel is linked at two megabytes, so the first free frame lies past them. -/
theorem KernelImage.freeFrom_ge (img : KernelImage) (kb : Nat) : 512 ≤ img.freeFrom kb := by
  have hlinked := img.linked
  have h1 := img.kend_le
  have h2 := img.le_procsAt kb
  have h3 : img.procsAt kb ≤ img.used kb := Nat.le_add_right _ _
  rw [Nat.mul_succ] at h2
  have hused : 0x200000 ≤ img.used kb := by omega
  unfold KernelImage.freeFrom
  generalize img.used kb = used at hused
  unfold pageSize
  omega

/-- What `init_mem` comes to an end with, and when it does: with no memory
counted, the index of `init_page` runs below the array. -/
theorem initMem_ok_iff {s' : MemInit} (hkb : kb < 2 ^ 16) : initMem img kb s = .ok () s' ↔
    (1 ≤ kb ∧ img.used kb ≤ bootMapEnd) ∧
      s' = { img.ready kb s with mm := (img.ready kb s).mm.listed } := by
  have hstep : ∀ hused : img.used kb ≤ bootMapEnd, kb ≠ 0 →
      initMem img kb s = .ok () { img.ready kb s with mm := (img.ready kb s).mm.listed } := by
    intro hused h0
    have hfirst := ready_firstFrame (s := s) hused
    have hge := img.freeFrom_ge kb
    have hn : (img.ready kb s).mm.npages = 4 * kb := rfl
    rw [initMem_run hused]
    exact Act.zoom_ok (initPage_run (by omega) (by omega))
  constructor
  · intro h
    have hused := used_le_of_initMem hkb h
    have h0 : kb ≠ 0 := by
      rintro rfl
      rw [initMem_run hused] at h
      obtain ⟨m, hm, -⟩ := Act.zoom_eq_ok.mp h
      have hstop : initPage (img.ready 0 s).mm ≠ .ok () m := by
        unfold initPage
        rw [Act.modify_bind_apply, Act.gets_bind_apply, Act.gets_bind_apply, if_pos (.inl rfl)]
        exact fun h => by cases h
      exact hstop hm
    rw [hstep hused h0] at h
    cases h
    exact ⟨⟨by omega, hused⟩, rfl⟩
  · rintro ⟨⟨h1, hused⟩, rfl⟩
    exact hstep hused (by omega)

end Run

/-- The list `init_mem` leaves. -/
theorem ready_chain {s : MemInit} {img : KernelImage} {kb : Nat} (h : img.used kb ≤ bootMapEnd) :
    Chain (img.ready kb s).mm.listed.link (img.ready kb s).mm.listed.phead
      (initialFrames (4 * kb) (img.freeFrom kb)) := by
  have hge := img.freeFrom_ge kb
  unfold Mm.listed Mm.link
  rw [ready_firstFrame h]
  exact (threadAll_spec _ (by omega)).1

/-! ## What the free list covers -/

/-- The frame lies in low memory or below the end of the memory counted. -/
def InRam (kb f : Nat) : Prop := pageSize * f + pageSize ≤ 0xA0000 ∨
  pageSize * f + pageSize ≤ 0x100000 + kb * 1024

/-- A frame that can be handed out: in memory, and mapped where `PAGE2VA` says. -/
def Usable (kb f : Nat) : Prop := InRam kb f ∧ bootPa (frameVa f) = some (pageSize * f)

theorem usable_low {kb f : Nat} (h : f < 160) : Usable kb f := by
  have hpa : pageSize * f + pageSize ≤ 0xA0000 := by
    unfold pageSize
    omega
  refine ⟨.inl hpa, ?_⟩
  have hend : 0xA0000 < bootMapEnd := by decide
  rw [frameVa, bootPa_direct, if_pos (by omega)]

/-- The last frame `init_mem` counts lies in memory only of a very small machine. -/
theorem usable_last {kb : Nat} (h1 : 41 ≤ kb) (h : Usable kb (4 * kb - 1)) : kb ≤ 68 := by
  have hpa : pageSize * (4 * kb - 1) + pageSize = 16384 * kb := by
    unfold pageSize
    omega
  rcases h.1 with h | h
  · omega
  · omega

/-- Every frame `init_mem` puts on the free list is usable exactly if it lists
none past the kernel: it takes four frames for a KB, where a frame is four KB. -/
theorem init_mem_frames_iff (img : KernelImage) (lowmem highmem : UInt8) (s : MemInit) :
    (∃ s' l, initMem img (detectMemsize lowmem highmem) s = .ok () s' ∧
      Chain s'.mm.link s'.mm.phead l ∧ ∀ f ∈ l, Usable (detectMemsize lowmem highmem) f) ↔
    1 ≤ detectMemsize lowmem highmem ∧ img.used (detectMemsize lowmem highmem) ≤ bootMapEnd ∧
      4 * detectMemsize lowmem highmem ≤ img.freeFrom (detectMemsize lowmem highmem) := by
  have hkb : detectMemsize lowmem highmem < 2 ^ 16 := Nat.mod_lt _ (by decide)
  generalize detectMemsize lowmem highmem = kb at hkb
  have hge := img.freeFrom_ge kb
  constructor
  · rintro ⟨s', l, hrun, hchain, husable⟩
    obtain ⟨⟨h1, hused⟩, rfl⟩ := (initMem_ok_iff hkb).mp hrun
    refine ⟨h1, hused, ?_⟩
    by_contra hmany
    have hlist : l = initialFrames (4 * kb) (img.freeFrom kb) := hchain.unique (ready_chain hused)
    have hlast : 4 * kb - 1 ∈ l := by
      rw [hlist, mem_initialFrames]
      omega
    have := usable_last (by omega) (husable _ hlast)
    omega
  · rintro ⟨h1, hused, hfew⟩
    refine ⟨_, _, (initMem_ok_iff hkb).mpr ⟨⟨h1, hused⟩, rfl⟩, ready_chain hused, fun f hf => ?_⟩
    rw [mem_initialFrames] at hf
    exact usable_low (by omega)

/-- A kernel of about half a megabyte. -/
def sampleKernelImage : KernelImage where
  kend := 0x250000
  vmxcode := 0x240000
  code := 0x230000
  trampolineData := 0x231000
  bootPml := 0x103007
  linked := by decide
  last := by decide
  vmxcode_in := by decide
  code_in := by decide
  apart := .inl (by decide)
  trampoline_in := by decide
  entry := by decide

/-- The machine before `init_mem`, its memory nought, and every old record with
this count. -/
def beforeInit (count : Int) : MemInit where
  mm := { mem := fun _ => 0, pages := fun _ => { count := count }, phead := none, npages := 0,
          kusedMem := 0, pagesVa := 0, cr3 := 0, starved := false }
  kpgdir := 0
  procs := 0
  spa := 0

/-- 15 MB above the first: frames are listed that are neither there nor mapped. -/
theorem init_mem_frames_15360 : ¬ ∀ (img : KernelImage) (lowmem highmem : UInt8) (s s' : MemInit)
    (l : List Nat), initMem img (detectMemsize lowmem highmem) s = .ok () s' →
      Chain s'.mm.link s'.mm.phead l → ∀ f ∈ l, Usable (detectMemsize lowmem highmem) f := by
  intro h
  have hkb : detectMemsize 0 0x3C = 15360 := by decide
  have hused : sampleKernelImage.used 15360 ≤ bootMapEnd := by decide
  have hrun : initMem sampleKernelImage 15360 (beforeInit 0) = .ok () _ :=
    (initMem_ok_iff (by decide)).mpr ⟨⟨by decide, hused⟩, rfl⟩
  have hall := h sampleKernelImage 0 0x3C (beforeInit 0)
  rw [hkb] at hall
  have hlast := hall _ _ hrun (ready_chain hused) (4 * 15360 - 1) (by
    rw [mem_initialFrames]
    decide)
  exact absurd (usable_last (by decide) hlast) (by decide)

/-! ## What is left of the memory before -/

namespace KernelImage

variable (img : KernelImage) {kb : Nat} (m m' : Mem)

/-- Of the page directory, one entry is stored. -/
theorem stores_entry {i : Nat} (hi : i < 512) :
    Mem.entry (img.stores kb m) img.kdirFrame i =
      if i = 511 then img.bootPml else Mem.entry m img.kdirFrame i := by
  have hkend := img.kend_le
  have hvmx := img.vmxcode_in
  have hlinked := img.linked
  have hprocs := img.le_procsAt kb
  have hbase : trampolineBase + 4096 ≤ 0x200000 := by decide
  have hpage : 8 * 512 = pageSize := rfl
  rw [Nat.mul_succ] at hprocs
  unfold Mem.entry stores Mem.fill
  simp only []
  rw [Mem.rd_overlay_disjoint (by omega), Mem.rd_overlay_disjoint (by omega),
    Mem.rd_overlay_disjoint (by omega)]
  by_cases h511 : i = 511
  · subst h511
    rw [if_pos rfl, Mem.rd_wr_same]
    exact Nat.mod_eq_of_lt img.entry
  · rw [if_neg h511, Mem.rd_wr_disjoint (by omega)]

/-- The process table is cleared. -/
theorem stores_procs {x : Nat} (h1 : img.procsAt kb ≤ x)
    (h2 : x < img.procsAt kb + sizeofProc * 1024) : img.stores kb m x = 0 := by
  unfold stores Mem.fill
  exact Mem.overlay_in ⟨h1, h2⟩

/-- The page of the trampoline is the kernel's own. -/
theorem stores_trampoline {x : Nat} (hsame : ∀ y, y < img.kend → m' y = m y)
    (h1 : trampolineBase ≤ x) (h2 : x < trampolineBase + 4096) :
    img.stores kb m' x = img.stores kb m x := by
  have hkend := img.kend_le
  have htr := img.trampoline_in
  have hcode := img.code_in
  have hlinked := img.linked
  have hprocs := img.le_procsAt kb
  have hbase : trampolineBase + 4096 ≤ 0x200000 := by decide
  have hpage : pageSize = 4096 := rfl
  rw [Nat.mul_succ] at hprocs
  have hwr : ∀ y, y < img.kend →
      Mem.wr 8 m' (pageSize * img.kdirFrame + 8 * 511) img.bootPml y =
        Mem.wr 8 m (pageSize * img.kdirFrame + 8 * 511) img.bootPml y := by
    intro y hy
    rw [Mem.wr_out (by omega), Mem.wr_out (by omega), hsame y hy]
  have hpage' : ∀ m : Mem, img.stores kb m x =
      (Mem.wr 8 m (pageSize * img.kdirFrame + 8 * 511) img.bootPml).overlay img.vmxcode sizeofCode
        (fun i => Mem.wr 8 m (pageSize * img.kdirFrame + 8 * 511) img.bootPml (img.code + i))
        (img.trampolineData + (x - trampolineBase)) := by
    intro m
    unfold stores Mem.fill
    rw [Mem.overlay_out (by omega), Mem.overlay_in ⟨h1, h2⟩]
  rw [hpage', hpage']
  unfold Mem.overlay
  split
  · exact hwr _ (by omega)
  · exact hwr _ (by omega)

end KernelImage

/-- Records of the same links thread into records of the same links. -/
theorem threadDown_link {lo n k : Nat} {t t' : (Nat → Page) × Option Nat} {f : Nat}
    (hlink : ∀ f, f < k → (t.1 f).link = (t'.1 f).link) (hp : t.2 = t'.2) (hf : f < k) :
    ((threadDown lo n t).1 f).link = ((threadDown lo n t').1 f).link ∧
      (threadDown lo n t).2 = (threadDown lo n t').2 := by
  induction n generalizing t t' with
  | zero => exact ⟨hlink f hf, hp⟩
  | succ n ih =>
    rw [threadDown, threadDown]
    refine ih (fun g hg => ?_) rfl
    rw [threadPage_record, threadPage_record]
    split
    · exact hp
    · exact hlink g hg

/-- The list does not depend on the records before. -/
theorem threadAll_link (pages pages' : Nat → Page) {npages lo f : Nat} (hf : f < npages) :
    ((threadAll pages npages lo).1 f).link = ((threadAll pages' npages lo).1 f).link ∧
      (threadAll pages npages lo).2 = (threadAll pages' npages lo).2 := by
  have hcount : ∀ g, g < npages →
      (countPages pages npages g).link = (countPages pages' npages g).link := by
    intro g hg
    rw [countPages_eq, countPages_eq, if_pos hg, if_pos hg]
  have hhigh : ∀ g, g < npages → _ := fun g hg => @threadDown_link lo (npages - lo)
    npages (countPages pages npages, none) (countPages pages' npages, none) _ hcount rfl hg
  have hlow : ∀ g, g < npages → _ := fun g hg => @threadDown_link 1 7 npages _ _ _
    (fun g hg => (hhigh g hg).1) (hhigh g hg).2 hg
  exact threadDown_link (fun g hg => (hlow g hg).1) (hlow f hf).2 hf

/-- `init_mem` has left nothing of the memory before in the allocator and the
mapping: no entry but the kernel's own in the page directory, and one reference
to every frame that is not listed. -/
def Settled (img : KernelImage) (s : MemInit) : Prop :=
  (∀ i, i < 512 → i ≠ 511 → Mem.entry s.mm.mem img.kdirFrame i = 0) ∧
    ∃ l, Chain s.mm.link s.mm.phead l ∧ ∀ f, f < s.mm.npages → f ∉ l → s.mm.count f = 1

/-- The two states are of one allocator and one mapping. -/
structure Agree (img : KernelImage) (kb : Nat) (s t : MemInit) : Prop where
  npages : s.mm.npages = t.mm.npages
  kusedMem : s.mm.kusedMem = t.mm.kusedMem
  phead : s.mm.phead = t.mm.phead
  records : ∀ f, f < s.mm.npages → s.mm.pages f = t.mm.pages f
  kpgdir : s.kpgdir = t.kpgdir
  directory : ∀ i, i < 512 →
    Mem.entry s.mm.mem img.kdirFrame i = Mem.entry t.mm.mem img.kdirFrame i
  procs : s.procs = t.procs
  table : ∀ x, img.procsAt kb ≤ x → x < img.procsAt kb + sizeofProc * 1024 →
    s.mm.mem x = t.mm.mem x
  trampoline : ∀ x, trampolineBase ≤ x → x < trampolineBase + 4096 → s.mm.mem x = t.mm.mem x

/-- The memory before is nought where `init_mem` takes it as it is: in the page
directory, and in the counts of the frames it does not list. -/
def Blank (img : KernelImage) (kb : Nat) (s : MemInit) : Prop :=
  (∀ i, i < 512 → i ≠ 511 → Mem.entry s.mm.mem img.kdirFrame i = 0) ∧
    ∀ f, f < 4 * kb → f ∉ initialFrames (4 * kb) (img.freeFrom kb) → int32 (s.mm.count f) = 0

theorem int32_succ_eq_one (c : Int) : int32 (c + 1) = 1 ↔ int32 c = 0 := by
  have hb := int32_bounds c
  rw [← int32_add]
  by_cases hmax : int32 c = 2 ^ 31 - 1
  · rw [hmax]
    decide
  · rw [int32_of_bounds (by omega) (by omega)]
    omega

section Two

variable {img : KernelImage} {kb : Nat} {s t : MemInit}

theorem ready_count (h : img.used kb ≤ bootMapEnd) {f : Nat} (hf : f < 4 * kb) :
    (img.ready kb s).mm.listed.count f =
      if f ∈ initialFrames (4 * kb) (img.freeFrom kb) then 0 else int32 (s.mm.count f + 1) := by
  have hge := img.freeFrom_ge kb
  unfold Mm.listed Mm.count
  rw [ready_firstFrame h]
  exact (threadAll_spec (img.ready kb s).mm.pages (by omega)).2 f hf

/-- What is settled is what was nought before. -/
theorem settled_iff (h : img.used kb ≤ bootMapEnd) :
    Settled img { img.ready kb s with mm := (img.ready kb s).mm.listed } ↔ Blank img kb s := by
  have hentry : ∀ i, i < 512 → i ≠ 511 →
      Mem.entry (img.ready kb s).mm.listed.mem img.kdirFrame i =
        Mem.entry s.mm.mem img.kdirFrame i := by
    intro i hi hne
    show Mem.entry (img.stores kb s.mm.mem) img.kdirFrame i = _
    rw [img.stores_entry _ hi, if_neg hne]
  have hchain := ready_chain (s := s) h
  constructor
  · rintro ⟨hdir, l, hl, hcount⟩
    refine ⟨fun i hi hne => (hentry i hi hne).symm.trans (hdir i hi hne), fun f hf hout => ?_⟩
    have heq := hl.unique hchain
    have hone := hcount f hf (by rw [heq]; exact hout)
    rw [ready_count h hf, if_neg hout] at hone
    exact (int32_succ_eq_one _).mp hone
  · rintro ⟨hdir, hcount⟩
    refine ⟨fun i hi hne => (hentry i hi hne).trans (hdir i hi hne), _, hchain, fun f hf hout => ?_⟩
    have hf' : f < 4 * kb := hf
    rw [ready_count h hf', if_neg hout]
    exact (int32_succ_eq_one _).mpr (hcount f hf' hout)

theorem page_ext {p q : Page} (hlink : p.link = q.link) (hcount : p.count = q.count) : p = q := by
  cases p
  cases q
  cases hlink
  cases hcount
  rfl

/-- Settled states of one kernel and one size are of one allocator and mapping. -/
theorem agree_of_settled (h1 : 1 ≤ kb) (h : img.used kb ≤ bootMapEnd)
    (hsame : ∀ x, x < img.kend → s.mm.mem x = t.mm.mem x) (hs : Blank img kb s)
    (ht : Blank img kb t) :
    Agree img kb { img.ready kb s with mm := (img.ready kb s).mm.listed }
      { img.ready kb t with mm := (img.ready kb t).mm.listed } := by
  have hlink : ∀ f, f < 4 * kb → (img.ready kb s).mm.listed.link f =
      (img.ready kb t).mm.listed.link f ∧
        (img.ready kb s).mm.listed.phead = (img.ready kb t).mm.listed.phead := by
    intro f hf
    unfold Mm.listed Mm.link
    rw [ready_firstFrame h, ready_firstFrame h]
    exact threadAll_link _ _ hf
  have hcount : ∀ f, f < 4 * kb → (img.ready kb s).mm.listed.count f =
      (img.ready kb t).mm.listed.count f := by
    intro f hf
    rw [ready_count h hf, ready_count h hf]
    split
    · rfl
    · next hout =>
      rw [(int32_succ_eq_one _).mpr (hs.2 f hf hout), (int32_succ_eq_one _).mpr (ht.2 f hf hout)]
  have hpos : 0 < 4 * kb := by omega
  exact {
    npages := show 4 * kb = 4 * kb from rfl
    kusedMem := by
      show kva2pa (img.ready kb s).mm.kusedMem = kva2pa (img.ready kb t).mm.kusedMem
      exact congrArg kva2pa (rfl : kbase + img.used kb = kbase + img.used kb)
    phead := (hlink 0 hpos).2
    records := fun f hf => page_ext (hlink f hf).1 (hcount f hf)
    kpgdir := show kbase + pageSize * img.kdirFrame = kbase + pageSize * img.kdirFrame from rfl
    directory := fun i hi => by
      show Mem.entry (img.stores kb s.mm.mem) img.kdirFrame i =
        Mem.entry (img.stores kb t.mm.mem) img.kdirFrame i
      rw [img.stores_entry _ hi, img.stores_entry _ hi]
      split
      · rfl
      · next hne => rw [hs.1 i hi hne, ht.1 i hi hne]
    procs := show kbase + img.procsAt kb = kbase + img.procsAt kb from rfl
    table := fun x h1 h2 => (img.stores_procs _ h1 h2).trans (img.stores_procs _ h1 h2).symm
    trampoline := fun x h1 h2 => img.stores_trampoline _ _ hsame h1 h2 }

end Two

/-- From two contents of the memory behind the kernel, `init_mem` ends with one
allocator and one mapping, nothing of the memory before in them, exactly if it
ends and what it takes as it is was nought. -/
theorem init_mem_contents_iff (img : KernelImage) (lowmem highmem : UInt8) (s t : MemInit)
    (hsame : ∀ x, x < img.kend → s.mm.mem x = t.mm.mem x) :
    (∃ s' t', initMem img (detectMemsize lowmem highmem) s = .ok () s' ∧
        initMem img (detectMemsize lowmem highmem) t = .ok () t' ∧
        Settled img s' ∧ Settled img t' ∧ Agree img (detectMemsize lowmem highmem) s' t') ↔
      1 ≤ detectMemsize lowmem highmem ∧ img.used (detectMemsize lowmem highmem) ≤ bootMapEnd ∧
        Blank img (detectMemsize lowmem highmem) s ∧
        Blank img (detectMemsize lowmem highmem) t := by
  have hkb : detectMemsize lowmem highmem < 2 ^ 16 := Nat.mod_lt _ (by decide)
  generalize detectMemsize lowmem highmem = kb at hkb
  constructor
  · rintro ⟨s', t', hs, ht, hset, hset', -⟩
    obtain ⟨⟨h1, hused⟩, rfl⟩ := (initMem_ok_iff hkb).mp hs
    obtain ⟨-, rfl⟩ := (initMem_ok_iff hkb).mp ht
    exact ⟨h1, hused, (settled_iff hused).mp hset, (settled_iff hused).mp hset'⟩
  · rintro ⟨h1, hused, hs, ht⟩
    exact ⟨_, _, (initMem_ok_iff hkb).mpr ⟨⟨h1, hused⟩, rfl⟩,
      (initMem_ok_iff hkb).mpr ⟨⟨h1, hused⟩, rfl⟩, (settled_iff hused).mpr hs,
      (settled_iff hused).mpr ht, agree_of_settled h1 hused hsame hs ht⟩

theorem blank_beforeInit (kb : Nat) : Blank sampleKernelImage kb (beforeInit 0) :=
  ⟨fun _ _ _ => Mem.rd_zero fun _ _ _ => rfl, fun _ _ _ => show int32 0 = 0 by decide⟩

/-- A megabyte above the first, and memory of nought. -/
theorem init_mem_contents_1024 : ∃ s' t', initMem sampleKernelImage (detectMemsize 0 4) (beforeInit 0) =
      .ok () s' ∧ initMem sampleKernelImage (detectMemsize 0 4) (beforeInit 0) = .ok () t' ∧
    Settled sampleKernelImage s' ∧ Settled sampleKernelImage t' ∧
    Agree sampleKernelImage (detectMemsize 0 4) s' t' :=
  (init_mem_contents_iff sampleKernelImage 0 4 (beforeInit 0) (beforeInit 0) fun _ _ => rfl).mpr
    ⟨by decide, by decide, blank_beforeInit _, blank_beforeInit _⟩

/-- Old records that count one: the frames of the kernel count two. -/
theorem init_mem_old_counts : ¬ ∀ (img : KernelImage) (lowmem highmem : UInt8) (s t s' t' : MemInit),
    (∀ x, x < img.kend → s.mm.mem x = t.mm.mem x) →
    initMem img (detectMemsize lowmem highmem) s = .ok () s' →
    initMem img (detectMemsize lowmem highmem) t = .ok () t' →
      Settled img s' ∧ Settled img t' ∧ Agree img (detectMemsize lowmem highmem) s' t' := by
  intro h
  have hkb : detectMemsize 0 4 = 1024 := by decide
  have hused : sampleKernelImage.used 1024 ≤ bootMapEnd := by decide
  have hrun : ∀ s, initMem sampleKernelImage 1024 s = .ok () _ := fun s =>
    (initMem_ok_iff (by decide)).mpr ⟨⟨by decide, hused⟩, rfl⟩
  have hall := h sampleKernelImage 0 4 (beforeInit 0) (beforeInit 1)
  rw [hkb] at hall
  obtain ⟨-, hset, -⟩ := hall _ _ (fun _ _ => rfl) (hrun _) (hrun _)
  have hzero := ((settled_iff hused).mp hset).2 0 (by decide) (by
    rw [mem_initialFrames]
    decide)
  exact absurd hzero (show ¬ int32 1 = 0 by decide)

end Myos.Kernel
