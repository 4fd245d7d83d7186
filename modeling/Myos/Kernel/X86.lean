import Myos.Kernel.PageMap

/-!
# The end of an address space on 32-bit x86

`walk_page` and `insert_page` of `kernel/mm.c` and `destroy_vm` of
`kernel/proc.c` as they are built without `amd64`, with the macros of
`include/x86/mem_layout.h`: two levels of tables, of 1024 entries of four
bytes. `free_page` and the page records are those of the other build.

`destroy_vm` looks for page tables page by page, and frees a table once for
each page there is in its range. And `VA2PAGE` shifts by the size of a table's
range where `PAGE2VA` shifts by the size of a page: the frame freed last is not
the directory's, unless the directory is in frame 0.
-/

namespace Myos.Kernel.X86

open Myos.Lib

/-! ## The layout -/

def utext : Nat := 0x8048000
/-- `KBASE`; the macros on kernel addresses have another constant. -/
def kbase : Nat := 0xC000000
/-- The constant of `KPA2VA` and its like. -/
def kdirect : Nat := 0xC0000000
def pgdShift : Nat := 22

def kpa2va (pa : Nat) : Nat := (pa + kdirect) % 2 ^ 32

/-- `VA2PAGE` as an index into `pages`. -/
def va2page (va : Nat) : Nat := ((va + (2 ^ 32 - kdirect)) % 2 ^ 32) >>> pgdShift

/-- `PAGE2PA`; a record has 8 bytes. -/
def page2pa (s : Mm) : Option Nat → Nat
  | some i => (i <<< pteShift) % 2 ^ 32
  | none => (((2 ^ 32 - s.pagesVa) / 8) <<< pteShift) % 2 ^ 32

/-- `PAGE2VA`. -/
def page2va (s : Mm) (p : Option Nat) : Nat := (kdirect + page2pa s p) % 2 ^ 32

def pgdIndex (va : Nat) : Nat := va >>> 22
def pteIndex (va : Nat) : Nat := va >>> 12 &&& 0x3ff

/-- The physical address behind a kernel access. What is below the direct map
is of no use to the functions here. -/
def kpa (va : Nat) : Option Nat :=
  if kdirect ≤ va ∧ va < 2 ^ 32 then some (va - kdirect) else none

def load (n va : Nat) : Act Mm Nat := fun s =>
  match kpa va with
  | some pa => .ok (Mem.rd n s.mem pa) s
  | none => .fault s

def store (n va v : Nat) : Act Mm Unit := fun s =>
  match kpa va with
  | some pa => .ok () (s.setMem (Mem.wr n s.mem pa v))
  | none => .fault s

def memset (va : Nat) (c : UInt8) : Nat → Act Mm Unit
  | 0 => pure ()
  | n + 1 => do
    store 1 va c.toNat
    memset (va + 1) c n

/-! ## The page tables -/

/-- `alloc_page`. -/
def allocPage (flags : Nat) : Act Mm (Option Nat) := do
  match ← Act.gets Mm.phead with
  | none =>
    Act.modify fun s => { s with starved := true }
    return none
  | some p =>
    Act.modify fun s => s.setPhead (s.link p)
    if flags &&& pgzero ≠ 0 then
      let va ← Act.gets fun s => page2va s (some p)
      memset va 0 pageSize
    Act.modify fun s => s.setCount p (int32 (s.count p + 1))
    return some p

/-- `walk_page`. -/
def walkPage (pgdir va create : Nat) : Act Mm (Option Nat) := do
  let slot := pgdir + 4 * pgdIndex va
  let e ← load 4 slot
  if e &&& pteP ≠ 0 then return some (kpa2va (e &&& 0xfffff000) + 4 * pteIndex va)
  else if create = 1 then do
    let p ← allocPage 1
    let pa ← Act.gets fun s => page2pa s p
    store 4 slot (pa ||| pteU ||| pteW ||| pteP)
    let pde ← Act.gets fun s => page2va s p
    return some (pde + 4 * pteIndex va)
  else return none

/-- `insert_page`. -/
def insertPage (pgdir va : Nat) (pp : Option Nat) (flag : Nat) : Act Mm Int := do
  match pp with
  | none => return -1
  | some p =>
    match ← walkPage pgdir va 1 with
    | none => return -1
    | some pte =>
      let pa ← Act.gets fun s => page2pa s (some p)
      store 4 pte (pa ||| flag)
      return 0

/-- `remove_page`. -/
def removePage (pgdir va : Nat) : Act Mm Int := do
  match ← walkPage pgdir va 0 with
  | none => return -1
  | some pte =>
    let e ← load 4 pte
    if e &&& pteP ≠ 0 then
      freePage (some (e >>> pteShift))
    store 4 pte 0
    return 0

/-! ## `destroy_vm` -/

/-- The first loop. -/
def removePages (pgdir : Nat) : Nat → Nat → Act Mm Unit
  | 0, _ => return ()
  | n + 1, addr => do
    let _ ← removePage pgdir addr
    removePages pgdir n (addr + pageSize)

/-- The second loop. -/
def freeTables (pgdir : Nat) : Nat → Nat → Act Mm Unit
  | 0, _ => return ()
  | n + 1, addr => do
    let pde ← load 4 (pgdir + 4 * (addr >>> 22))
    if pde &&& pteP ≠ 0 then do
      freePage (some ((pde &&& 0xfffff000) >>> 12))
      freeTables pgdir n (addr + pageSize)
    else freeTables pgdir n (addr + pageSize)

/-- The turns of both. -/
def turns : Nat := (kbase - utext) / pageSize

/-- `destroy_vm`, up to the assignment to `p->pgdir`. -/
def destroyVm (pgdir : Nat) : Act Mm Unit := do
  removePages pgdir turns utext
  freeTables pgdir turns utext
  freePage (some (va2page pgdir))

/-! ## Words and frames -/

/-- An entry of a table: the `i`-th 4-byte word of the frame `f`. -/
def entry (m : Mem) (f i : Nat) : Nat := Mem.rd 4 m (pageSize * f + 4 * i)

/-- The direct-map address of a frame. -/
def frameVa (f : Nat) : Nat := kdirect + pageSize * f

section Words

variable {s : Mm} {f g i j n v : Nat}

theorem kpa_frameVa {o : Nat} (hf : f < 2 ^ 18) (ho : o < pageSize) :
    kpa (frameVa f + o) = some (pageSize * f + o) := by
  have hrange : kdirect ≤ frameVa f + o ∧ frameVa f + o < 2 ^ 32 := by
    unfold frameVa kdirect pageSize at *
    omega
  have hsub : frameVa f + o - kdirect = pageSize * f + o := by
    unfold frameVa
    omega
  rw [kpa, if_pos hrange, hsub]

theorem load_entry (hf : f < 2 ^ 18) (hi : i < 1024) :
    load 4 (frameVa f + 4 * i) s = .ok (entry s.mem f i) s := by
  unfold load entry
  rw [kpa_frameVa hf (by unfold pageSize; omega)]

theorem store_entry (hf : f < 2 ^ 18) (hi : i < 1024) : store 4 (frameVa f + 4 * i) v s =
    .ok () (s.setMem (Mem.wr 4 s.mem (pageSize * f + 4 * i) v)) := by
  unfold store
  rw [kpa_frameVa hf (by unfold pageSize; omega)]

/-- Storing an entry changes that entry and no other. -/
theorem entry_wr (m : Mem) (v : Nat) (hi : i < 1024) (hj : j < 1024) :
    entry (Mem.wr 4 m (pageSize * g + 4 * j) v) f i =
      if f = g ∧ i = j then v % 2 ^ 32 else entry m f i := by
  unfold entry pageSize
  by_cases h : f = g ∧ i = j
  · rw [if_pos h, h.1, h.2]
    exact Mem.rd_wr_same 4 m _ v
  · rw [if_neg h]
    exact Mem.rd_wr_disjoint (by omega)

theorem entry_lt (m : Mem) (f i : Nat) : entry m f i < 2 ^ 32 := Mem.rd_lt 4 m _

theorem page2va_some (hf : f < 2 ^ 18) : page2va s (some f) = frameVa f := by
  simp only [page2va, page2pa, frameVa, kdirect, pteShift, pageSize, Nat.shiftLeft_eq]
  omega

/-- `VA2PAGE` of the address of a frame is the frame of its region of 4 megabytes. -/
theorem va2page_frameVa (hf : f < 2 ^ 18) : va2page (frameVa f) = f / 1024 := by
  simp only [va2page, frameVa, kdirect, pgdShift, pageSize, Nat.shiftRight_eq_div_pow]
  omega

/-- The frame number in an entry. -/
theorem land_mask {e : Nat} (he : e < 2 ^ 32) : e &&& 0xfffff000 = e / pageSize * pageSize := by
  have hmask : (0xfffff000 : Nat) = (2 ^ 20 - 1) <<< 12 := by decide
  have hsplit : e = (e / pageSize) <<< 12 ||| e % pageSize := by
    have hmod : e % pageSize < 2 ^ 12 := Nat.mod_lt _ (by decide)
    rw [← Nat.shiftLeft_add_eq_or_of_lt hmod, Nat.shiftLeft_eq]
    unfold pageSize
    omega
  have hlow : e % pageSize &&& 0xfffff000 = 0 := by
    refine Nat.eq_of_testBit_eq fun b => ?_
    rw [Nat.testBit_and, Nat.zero_testBit, hmask, Nat.testBit_shiftLeft]
    by_cases hb : b < 12
    · simp [Nat.not_le.mpr hb]
    · have hhigh : (e % pageSize).testBit b = false := by
        refine Nat.testBit_lt_two_pow ((Nat.mod_lt _ (by decide)).trans_le ?_)
        exact Nat.pow_le_pow_right (n := 2) (by decide) (by omega : 12 ≤ b)
      rw [hhigh, Bool.false_and]
  calc e &&& 0xfffff000
      = ((e / pageSize) <<< 12 ||| e % pageSize) &&& 0xfffff000 := by rw [← hsplit]
    _ = (e / pageSize) <<< 12 &&& (2 ^ 20 - 1) <<< 12 := by
        rw [Nat.and_or_distrib_right, hlow, Nat.or_zero, hmask]
    _ = (e / pageSize) <<< 12 := by
        rw [← Nat.shiftLeft_and_distrib, Nat.and_two_pow_sub_one_eq_mod, Nat.mod_eq_of_lt]
        unfold pageSize
        omega
    _ = e / pageSize * pageSize := by rw [Nat.shiftLeft_eq]; rfl

/-- The table an entry leads to. -/
theorem kpa2va_entry {e t : Nat} (he : e < 2 ^ 32) (ht : target e = some t) (ht' : t < 2 ^ 18) :
    kpa2va (e &&& 0xfffff000) = frameVa t ∧ (e &&& 0xfffff000) >>> 12 = t := by
  rw [target, if_pos (present_of_target ht)] at ht
  have hte : e / pageSize = t := Option.some.inj ht
  rw [land_mask he, hte]
  refine ⟨?_, ?_⟩
  · unfold kpa2va frameVa kdirect pageSize
    omega
  · rw [Nat.shiftRight_eq_div_pow]
    unfold pageSize
    omega

/-- What `free_page` does to the counts, whatever they are. -/
theorem freePage_counts (s : Mm) (p : Nat) : ∃ s', freePage (some p) s = .ok () s' ∧
    s'.mem = s.mem ∧ s'.npages = s.npages ∧
    ∀ f, s'.count f = if f = p then int32 (s.count p - 1) else s.count f := by
  by_cases hlast : int32 (s.count p - 1) = 0
  · refine ⟨(s.setPage p { link := s.phead, count := 0 }).setPhead (some p), ?_, rfl, rfl,
      fun f => ?_⟩
    · unfold freePage
      simp only [Act.modify_bind_apply, Act.gets_bind_apply, Mm.setCount_count, if_true, hlast]
      simp only [Act.modify_apply, Mm.setCount, Mm.setPage, Mm.setPhead, Function.update_idem]
    · rw [Mm.setPhead_count, Mm.setPage_count, hlast]
  · exact ⟨_, freePage_more hlast, rfl, rfl, fun f => Mm.setCount_count s p f _⟩

end Words

/-! ## The directory of a process -/

/-- The addresses a process may use. -/
def UserAddr (va : Nat) : Prop := utext ≤ va ∧ va < kbase

/-- The entries of a directory they take. -/
def UserPde (i : Nat) : Prop := 0x20 ≤ i ∧ i < 0x30

/-- The page table at an entry of the directory `g`. -/
def tableOf (m : Mem) (g i : Nat) : Option Nat := target (entry m g i)

/-- A frame the directory is made of. -/
def Owned (m : Mem) (g f : Nat) : Prop := f = g ∨ ∃ i, UserPde i ∧ tableOf m g i = some f

/-- A frame one of the page tables maps. -/
def Mapped (m : Mem) (g f : Nat) : Prop :=
  ∃ i t j, UserPde i ∧ tableOf m g i = some t ∧ j < 1024 ∧ target (entry m t j) = some f

/-- The directory `g` with its page tables: each is a frame with one reference,
and the pages they map are other frames, in use. -/
structure Dir (s : Mm) (g : Nat) : Prop where
  small : s.npages ≤ 2 ^ 18
  list : ∃ l, FreeList s l
  nonneg : ∀ f, 0 ≤ s.count f
  owned : ∀ {f}, Owned s.mem g f → f < s.npages ∧ s.count f = 1
  table : ∀ {i t}, UserPde i → tableOf s.mem g i = some t → t ≠ g
  data : ∀ {f}, Mapped s.mem g f → ¬ Owned s.mem g f ∧ s.count f ≠ 0

/-- A directory `alloc_vm` made: no user address has a page table. -/
structure Fresh (s : Mm) (g : Nat) : Prop where
  small : s.npages ≤ 2 ^ 18
  list : ∃ l, FreeList s l
  nonneg : ∀ f, 0 ≤ s.count f
  dir : g < s.npages ∧ s.count g = 1
  empty : ∀ {i}, UserPde i → entry s.mem g i = 0

/-- What happens to the directory, and around it. -/
inductive DirEvent where
  | insert (va pp flag : Nat)
  | other

/-- A frame in use that the directory is not made of is mapped at a user
address, with a frame for the page table if it is missing; or something else
happens, which leaves the frames alone the directory is made of, and those its
tables map in use. -/
def dirStep (g : Nat) (s : Mm) : DirEvent → Mm → Prop
  | .insert va pp flag, s' => UserAddr va ∧ flag < pageSize ∧ pp < s.npages ∧ s.count pp ≠ 0 ∧
      ¬ Owned s.mem g pp ∧ s'.starved = false ∧
      ∃ r, insertPage (frameVa g) va (some pp) flag s = .ok r s'
  | .other, s' => s'.npages = s.npages ∧ (∃ l, FreeList s' l) ∧ (∀ f, 0 ≤ s'.count f) ∧
      (∀ f, Mapped s.mem g f → s'.count f ≠ 0) ∧
      ∀ f, Owned s.mem g f → s'.count f = s.count f ∧
        ∀ i, i < 1024 → entry s'.mem f i = entry s.mem f i

section Directory

variable {s s' : Mm} {g f i j t va : Nat}

theorem UserPde.lt (h : UserPde i) : i < 1024 := by
  unfold UserPde at h
  omega

theorem UserAddr.pde (h : UserAddr va) : UserPde (pgdIndex va) := by
  unfold UserAddr utext kbase at h
  unfold UserPde pgdIndex
  rw [Nat.shiftRight_eq_div_pow]
  omega

theorem pteIndex_lt (va : Nat) : pteIndex va < 1024 := by
  unfold pteIndex
  exact Nat.and_lt_two_pow _ (by decide : (0x3ff : Nat) < 2 ^ 10)

theorem Fresh.none (h : Fresh s g) (hi : UserPde i) : tableOf s.mem g i = none := by
  rw [tableOf, h.empty hi, target_zero]

theorem Fresh.userDir (h : Fresh s g) : Dir s g := by
  have hout : ∀ {i t}, UserPde i → tableOf s.mem g i ≠ some t := fun hi ht => by
    cases (h.none hi).symm.trans ht
  refine ⟨h.small, h.list, h.nonneg, fun {f} hf => ?_, fun hi ht => absurd ht (hout hi),
    fun {f} hf => ?_⟩
  · rcases hf with rfl | ⟨i, hi, ht⟩
    · exact h.dir
    · exact absurd ht (hout hi)
  · obtain ⟨i, t, j, hi, ht, -, -⟩ := hf
    exact absurd ht (hout hi)

theorem Dir.small_of_owned (h : Dir s g) (hf : Owned s.mem g f) : f < 2 ^ 18 :=
  (h.owned hf).1.trans_le h.small

/-- What the directory is made of depends on its own entries. -/
theorem owned_congr {m m' : Mem} (h : ∀ {i}, UserPde i → entry m' g i = entry m g i) :
    Owned m' g f ↔ Owned m g f := by
  unfold Owned tableOf
  constructor
  · rintro (rfl | ⟨i, hi, ht⟩)
    · exact .inl rfl
    · exact .inr ⟨i, hi, (congrArg target (h hi)).symm.trans ht⟩
  · rintro (rfl | ⟨i, hi, ht⟩)
    · exact .inl rfl
    · exact .inr ⟨i, hi, (congrArg target (h hi)).trans ht⟩

/-- Kept by whatever keeps the entries and the counts of the frames it is made
of, and lets the tables map nothing but what they map, or other frames in use. -/
theorem Dir.congr (h : Dir s g) (hnpages : s'.npages = s.npages) (hlist : ∃ l, FreeList s' l)
    (hnonneg : ∀ f, 0 ≤ s'.count f) (hcount : ∀ f, Owned s.mem g f → s'.count f = s.count f)
    (hdir : ∀ {i}, UserPde i → entry s'.mem g i = entry s.mem g i)
    (hdata : ∀ {i t j f}, UserPde i → tableOf s.mem g i = some t → j < 1024 →
      target (entry s'.mem t j) = some f → ¬ Owned s.mem g f ∧ s'.count f ≠ 0) : Dir s' g := by
  have htab : ∀ {i}, UserPde i → tableOf s'.mem g i = tableOf s.mem g i := fun hi => by
    rw [tableOf, hdir hi, tableOf]
  refine ⟨hnpages ▸ h.small, hlist, hnonneg, fun {f} hf => ?_, fun hi ht => ?_, fun {f} hf => ?_⟩
  · rw [owned_congr hdir] at hf
    rw [hnpages, hcount f hf]
    exact h.owned hf
  · exact h.table hi ((htab hi).symm.trans ht)
  · obtain ⟨i, t, j, hi, ht, hj, hf⟩ := hf
    rw [owned_congr hdir]
    exact hdata hi ((htab hi).symm.trans ht) hj hf

/-- An entry of a page table is set to an entry of a frame in use that the
directory is not made of, or to none. -/
theorem Dir.setPte (h : Dir s g) (hi : UserPde i) (ht : tableOf s.mem g i = some t)
    (hj : j < 1024) {v : Nat} (hv : v < 2 ^ 32)
    (hdata : ∀ f, target v = some f → ¬ Owned s.mem g f ∧ s.count f ≠ 0) :
    Dir (s.setMem (Mem.wr 4 s.mem (pageSize * t + 4 * j) v)) g := by
  have htg := h.table hi ht
  obtain ⟨l, hl⟩ := h.list
  refine h.congr rfl ⟨l, hl.congr rfl rfl rfl⟩ h.nonneg (fun _ _ => rfl) (fun hk => ?_)
    fun {k t' k' f} hk hk' hk'' hf => ?_
  · rw [Mm.setMem_mem, entry_wr _ v hk.lt hj, if_neg fun h => htg h.1.symm]
  · rw [Mm.setMem_mem, entry_wr _ v hk'' hj, Nat.mod_eq_of_lt hv] at hf
    rw [Mm.setMem_count]
    split at hf
    · exact hdata f hf
    · exact h.data ⟨k, t', k', hk, hk', hk'', hf⟩

/-! ### The walk -/

/-- The walk finds the entry of the address in a page table there is. -/
theorem walkPage_found {create : Nat} (hg : g < 2 ^ 18) (hva : UserAddr va)
    (ht : tableOf s.mem g (pgdIndex va) = some t) (htsmall : t < 2 ^ 18) :
    walkPage (frameVa g) va create s = .ok (some (frameVa t + 4 * pteIndex va)) s := by
  unfold walkPage
  rw [Act.bind_ok (load_entry hg hva.pde.lt), if_pos (present_of_target ht),
    (kpa2va_entry (entry_lt _ _ _) ht htsmall).1]
  rfl

theorem walkPage_lookup (hsmall : ∀ f, Owned s.mem g f → f < 2 ^ 18) (hva : UserAddr va) :
    walkPage (frameVa g) va 0 s = .ok ((tableOf s.mem g (pgdIndex va)).map fun t =>
      frameVa t + 4 * pteIndex va) s := by
  have hg := hsmall g (.inl rfl)
  cases ht : tableOf s.mem g (pgdIndex va) with
  | none =>
    unfold walkPage
    rw [Act.bind_ok (load_entry hg hva.pde.lt), if_neg (target_eq_none.mp ht),
      if_neg (by decide)]
    rfl
  | some t => exact walkPage_found hg hva ht (hsmall t (.inr ⟨_, hva.pde, ht⟩))

/-- Clearing memory through the direct map. -/
theorem memset_run {pa n : Nat} (h : pa + n ≤ 2 ^ 30) :
    memset (kdirect + pa) 0 n s = .ok () (s.setMem (s.mem.fill pa n 0)) := by
  induction n generalizing pa s with
  | zero =>
    have hmem : s.mem.fill pa 0 0 = s.mem := by
      funext x
      exact Mem.overlay_out (by omega)
    rw [hmem]
    rfl
  | succ n ih =>
    have hkpa : kpa (kdirect + pa) = some pa := by
      have hrange : kdirect ≤ kdirect + pa ∧ kdirect + pa < 2 ^ 32 := by
        unfold kdirect
        omega
      rw [kpa, if_pos hrange, Nat.add_sub_cancel_left]
    have hst : store 1 (kdirect + pa) (0 : UInt8).toNat s =
        .ok () (s.setMem (s.mem.overlay pa 1 fun _ => 0)) := by
      rw [store, hkpa, ← wr_one]
    have hfill := overlay_succ s.mem (fun _ => 0) pa n
    rw [memset, Act.bind_ok hst, Nat.add_assoc, ih (by omega), Mm.setMem_setMem, Mm.setMem_mem,
      Mem.fill, hfill, ← Mem.fill]

theorem allocPage_run {n : Nat} (hn : s.phead = some n) (hn' : n < 2 ^ 18) :
    allocPage 1 s = .ok (some n) (s.taken pgzero n) := by
  have hset := memset_run (s := s.setPhead (s.link n))
    (show pageSize * n + pageSize ≤ 2 ^ 30 by unfold pageSize; omega)
  have hpos : (1 : Nat) &&& pgzero ≠ 0 := by decide
  unfold allocPage
  simp only [Act.gets_bind_apply, hn, Act.modify_bind_apply, if_pos hpos, page2va_some hn', frameVa]
  rw [Act.bind_ok hset]
  rfl

/-! ### Inserting -/

/-- The state after a new page table `n` was linked at entry `i` of the directory. -/
def linked (s : Mm) (g i n : Nat) : Mm :=
  (s.taken pgzero n).setMem
    (Mem.wr 4 (s.taken pgzero n).mem (pageSize * g + 4 * i) (tableEntry n))

theorem linked_entry {n : Nat} (hgn : g ≠ n) (hn : n < 2 ^ 18) (hi : i < 1024) (hj : j < 1024) :
    entry (linked s g i n).mem f j =
      if f = g ∧ j = i then tableEntry n else if f = n then 0 else entry s.mem f j := by
  unfold linked
  rw [Mm.setMem_mem, entry_wr _ _ hj hi, Mm.taken_mem_zeroed]
  by_cases h : f = g ∧ j = i
  · rw [if_pos h, if_pos h, Nat.mod_eq_of_lt]
    rw [tableEntry_eq]
    unfold pageSize
    omega
  · rw [if_neg h, if_neg h]
    by_cases hf : f = n
    · subst hf
      rw [if_pos rfl]
      exact Mem.rd_zero fun x h1 h2 => Mem.overlay_in (by unfold pageSize at *; omega)
    · rw [if_neg hf]
      refine Mem.rd_congr fun x h1 h2 => ?_
      unfold pageSize at *
      exact Mem.overlay_out (by omega)

theorem linked_count {n : Nat} (hn : s.count n = 0) (f : Nat) :
    (linked s g i n).count f = if f = n then 1 else s.count f := by
  rw [linked, Mm.setMem_count, Mm.taken_count, hn]
  rfl

/-- The head of the free list is none of the frames in use. -/
theorem Dir.head (h : Dir s g) {n : Nat} (hn : s.phead = some n) :
    n < s.npages ∧ s.count n = 0 ∧ ¬ Owned s.mem g n := by
  obtain ⟨l, hl⟩ := h.list
  obtain ⟨-, -, hlt, hz, -⟩ := hl.phead_some hn
  refine ⟨hlt, hz, fun hown => ?_⟩
  have h1 := (h.owned hown).2
  omega

/-- A new page table is linked where there is none. -/
theorem Dir.link (h : Dir s g) (hi : UserPde i) (hnone : tableOf s.mem g i = none) {n : Nat}
    (hn : s.phead = some n) : Dir (linked s g i n) g ∧
      tableOf (linked s g i n).mem g i = some n ∧
      ∀ f, Owned (linked s g i n).mem g f ↔ Owned s.mem g f ∨ f = n := by
  obtain ⟨hlt, hz, hunowned⟩ := h.head hn
  have hgn : g ≠ n := fun heq => hunowned (.inl heq.symm)
  have hentry : ∀ {f j}, j < 1024 → entry (linked s g i n).mem f j =
      if f = g ∧ j = i then tableEntry n else if f = n then 0 else entry s.mem f j := fun hj =>
    linked_entry hgn (hlt.trans_le h.small) hi.lt hj
  have htab : ∀ {k}, UserPde k → tableOf (linked s g i n).mem g k =
      if k = i then some n else tableOf s.mem g k := fun {k} hk => by
    rw [tableOf, hentry hk.lt]
    by_cases hki : k = i
    · rw [if_pos ⟨rfl, hki⟩, if_pos hki, target_tableEntry]
    · rw [if_neg fun h => hki h.2, if_neg hgn, if_neg hki, tableOf]
  have hown : ∀ f, Owned (linked s g i n).mem g f ↔ Owned s.mem g f ∨ f = n := fun f => by
    constructor
    · rintro (rfl | ⟨k, hk, ht⟩)
      · exact .inl (.inl rfl)
      · rw [htab hk] at ht
        by_cases hki : k = i
        · rw [if_pos hki] at ht
          exact .inr (Option.some.inj ht).symm
        · rw [if_neg hki] at ht
          exact .inl (.inr ⟨k, hk, ht⟩)
    · rintro ((rfl | ⟨k, hk, ht⟩) | rfl)
      · exact .inl rfl
      · refine .inr ⟨k, hk, ?_⟩
        rw [htab hk, if_neg, ht]
        rintro rfl
        cases hnone.symm.trans ht
      · exact .inr ⟨i, hi, by rw [htab hi, if_pos rfl]⟩
  have hcount := linked_count (g := g) (i := i) hz
  obtain ⟨l, hl⟩ := h.list
  obtain ⟨l', rfl, -⟩ := hl.phead_some hn
  have htaken : FreeList (s.taken pgzero n) l' := hl.taken
  have hlist : FreeList (linked s g i n) l' := htaken.congr rfl rfl rfl
  refine ⟨⟨?_, ⟨l', hlist⟩, fun f => ?_, fun {f} hf => ?_, fun {k t} hk ht => ?_,
    fun {f} hf => ?_⟩, by rw [htab hi, if_pos rfl], hown⟩
  · rw [linked, Mm.setMem_npages, Mm.taken_npages]
    exact h.small
  · rw [hcount]
    split
    · decide
    · exact h.nonneg f
  · rw [linked, Mm.setMem_npages, Mm.taken_npages, ← linked, hcount]
    rcases (hown f).mp hf with hf | rfl
    · have hfn : f ≠ n := fun heq => hunowned (heq ▸ hf)
      rw [if_neg hfn]
      exact h.owned hf
    · exact ⟨hlt, if_pos rfl⟩
  · rw [htab hk] at ht
    split at ht
    · exact fun heq => hgn (heq.symm.trans (Option.some.inj ht).symm)
    · exact h.table hk ht
  · -- the new table maps nothing, and what the others map is in use, the new table not
    obtain ⟨k, t, j, hk, ht, hj, hf⟩ := hf
    rw [htab hk] at ht
    by_cases hki : k = i
    · rw [if_pos hki] at ht
      cases ht
      rw [hentry hj, if_neg fun h => hgn h.1.symm, if_pos rfl] at hf
      cases hf
    · rw [if_neg hki] at ht
      have htn : t ≠ n := by
        rintro rfl
        exact hunowned (.inr ⟨k, hk, ht⟩)
      rw [hentry hj, if_neg fun heq => h.table hk ht heq.1, if_neg htn] at hf
      obtain ⟨hout, hused⟩ := h.data ⟨k, t, j, hk, ht, hj, hf⟩
      have hfn : f ≠ n := fun heq => hused (heq ▸ hz)
      rw [hcount, if_neg hfn, hown]
      exact ⟨not_or.mpr ⟨hout, hfn⟩, hused⟩

theorem allocPage_none (h : s.phead = none) :
    allocPage 1 s = .ok none { s with starved := true } := by
  unfold allocPage
  simp only [Act.gets_bind_apply, h, Act.modify_bind_apply, Act.pure_apply]

/-- The walk links the page table it misses. -/
theorem walkPage_new (h : Dir s g) (hva : UserAddr va)
    (hnone : tableOf s.mem g (pgdIndex va) = none) {n : Nat} (hn : s.phead = some n) :
    walkPage (frameVa g) va 1 s = .ok (some (frameVa n + 4 * pteIndex va))
      (linked s g (pgdIndex va) n) := by
  have hsmall : n < 2 ^ 18 := (h.head hn).1.trans_le h.small
  have hg := h.small_of_owned (.inl rfl)
  have hpa : page2pa (s.taken pgzero n) (some n) ||| pteU ||| pteW ||| pteP = tableEntry n := by
    have hshift : n <<< pteShift < 2 ^ 32 := by
      rw [Nat.shiftLeft_eq]
      unfold pteShift
      omega
    rw [page2pa, Nat.mod_eq_of_lt hshift]
    rfl
  unfold walkPage
  rw [Act.bind_ok (load_entry hg hva.pde.lt), if_neg (target_eq_none.mp hnone), if_pos rfl,
    Act.bind_ok (allocPage_run hn hsmall), Act.gets_bind_apply, hpa,
    Act.bind_ok (store_entry hg hva.pde.lt), Act.gets_bind_apply, page2va_some hsmall]
  rfl

/-- A store leaves everything but memory. -/
theorem store_starved {n va v : Nat} (h : store n va v s = .ok () s') :
    s'.starved = s.starved := by
  unfold store at h
  split at h
  · cases h
    rfl
  · cases h

/-- A walk that makes the page table it misses. -/
theorem walkPage_create (h : Dir s g) (hva : UserAddr va) {r : Option Nat}
    (hrun : walkPage (frameVa g) va 1 s = .ok r s') (hns : s'.starved = false) :
    ∃ t, r = some (frameVa t + 4 * pteIndex va) ∧ Dir s' g ∧
      tableOf s'.mem g (pgdIndex va) = some t ∧
      ∀ f, s.count f ≠ 0 → ¬ Owned s.mem g f → s'.count f ≠ 0 ∧ ¬ Owned s'.mem g f := by
  have hg := h.small_of_owned (.inl rfl)
  cases ht : tableOf s.mem g (pgdIndex va) with
  | some t =>
    rw [walkPage_found hg hva ht (h.small_of_owned (.inr ⟨_, hva.pde, ht⟩))] at hrun
    cases hrun
    exact ⟨t, rfl, h, ht, fun _ hf hf' => ⟨hf, hf'⟩⟩
  | none =>
    cases hhead : s.phead with
    | none =>
      -- the call that found the list empty shows at the end
      unfold walkPage at hrun
      rw [Act.bind_ok (load_entry hg hva.pde.lt), if_neg (target_eq_none.mp ht), if_pos rfl,
        Act.bind_ok (allocPage_none hhead), Act.gets_bind_apply] at hrun
      obtain ⟨⟨⟩, s₁, hstore, hrest⟩ := Act.bind_eq_ok.mp hrun
      cases hrest
      cases (store_starved hstore).symm.trans hns
    | some n =>
      rw [walkPage_new h hva ht hhead] at hrun
      cases hrun
      obtain ⟨-, hz, -⟩ := h.head hhead
      obtain ⟨hdir, htab, hown⟩ := h.link hva.pde ht hhead
      refine ⟨n, rfl, hdir, htab, fun f hf hf' => ?_⟩
      have hfn : f ≠ n := fun heq => hf (heq ▸ hz)
      rw [linked_count hz, if_neg hfn, hown]
      exact ⟨hf, not_or.mpr ⟨hf', hfn⟩⟩

/-- A frame in use that the directory is not made of is mapped. -/
theorem Dir.insert (h : Dir s g) (hva : UserAddr va) {pp flag : Nat} (hflag : flag < pageSize)
    (hpp : pp < s.npages) (hused : s.count pp ≠ 0) (hout : ¬ Owned s.mem g pp) {r : Int}
    (hrun : insertPage (frameVa g) va (some pp) flag s = .ok r s') (hns : s'.starved = false) :
    Dir s' g := by
  unfold insertPage at hrun
  obtain ⟨pte, s₁, hwalk, hrest⟩ := Act.bind_eq_ok.mp hrun
  cases pte with
  | none =>
    cases hrest
    obtain ⟨t, hr, -⟩ := walkPage_create h hva hwalk hns
    cases hr
  | some pte =>
    dsimp only at hrest
    rw [Act.gets_bind_apply] at hrest
    obtain ⟨⟨⟩, s₂, hstore, hend⟩ := Act.bind_eq_ok.mp hrest
    cases hend
    obtain ⟨t, hr, hdir, htab, hkept⟩ :=
      walkPage_create h hva hwalk ((store_starved hstore).symm.trans hns)
    cases hr
    have hppsmall := hpp.trans_le h.small
    have hv : page2pa s₁ (some pp) ||| flag = pageSize * pp + flag := by
      have hshift : pp <<< 12 < 2 ^ 32 := by
        rw [Nat.shiftLeft_eq]
        omega
      rw [page2pa, pteShift, Nat.mod_eq_of_lt hshift, ← Nat.shiftLeft_add_eq_or_of_lt hflag,
        Nat.shiftLeft_eq, Nat.mul_comm]
      rfl
    rw [hv, store_entry (hdir.small_of_owned (.inr ⟨_, hva.pde, htab⟩)) (pteIndex_lt va)] at hstore
    cases hstore
    refine hdir.setPte hva.pde htab (pteIndex_lt va) ?_ fun f hf => ?_
    · unfold pageSize at *
      omega
    · rw [target] at hf
      split at hf
      · have hfpp : f = pp := by
          rw [← Option.some.inj hf, Nat.mul_add_div (by decide), Nat.div_eq_of_lt hflag,
            Nat.add_zero]
        rw [hfpp]
        exact (hkept pp hused hout).symm
      · cases hf

theorem Dir.step {e : DirEvent} (h : Dir s g) (hstep : dirStep g s e s') : Dir s' g := by
  cases e with
  | insert va pp flag =>
    obtain ⟨hva, hflag, hpp, hused, hout, hns, r, hrun⟩ := hstep
    exact h.insert hva hflag hpp hused hout hrun hns
  | other =>
    obtain ⟨hnpages, hlist, hnonneg, hmapped, hsame⟩ := hstep
    refine h.congr hnpages hlist hnonneg (fun f hf => (hsame f hf).1)
      (fun hi => (hsame g (.inl rfl)).2 _ hi.lt) fun {i t j f} hi ht hj hf => ?_
    rw [(hsame t (.inr ⟨i, hi, ht⟩)).2 j hj] at hf
    have hmap : Mapped s.mem g f := ⟨i, t, j, hi, ht, hj, hf⟩
    exact ⟨(h.data hmap).1, hmapped f hmap⟩

end Directory

/-! ## Removing the pages -/

/-- What the first loop keeps: the entries of the directory, and the counts of
the frames it is made of. An entry of a page table is as it was, or cleared. -/
structure Kept (s : Mm) (g : Nat) (s' : Mm) : Prop where
  npages : s'.npages = s.npages
  dir : ∀ {i}, UserPde i → entry s'.mem g i = entry s.mem g i
  ptes : ∀ {i t j}, UserPde i → tableOf s.mem g i = some t → j < 1024 →
    entry s'.mem t j = entry s.mem t j ∨ entry s'.mem t j = 0
  count : ∀ {f}, Owned s.mem g f → s'.count f = s.count f

section Removing

variable {s s₁ : Mm} {g f i t n va : Nat}

theorem Kept.tableOf (hk : Kept s g s₁) (hi : UserPde i) :
    tableOf s₁.mem g i = tableOf s.mem g i := by
  rw [X86.tableOf, hk.dir hi, X86.tableOf]

theorem Kept.small (h : Dir s g) (hk : Kept s g s₁) (hf : Owned s₁.mem g f) : f < 2 ^ 18 :=
  h.small_of_owned ((owned_congr hk.dir).mp hf)

/-- An entry of a page table is cleared. -/
theorem Kept.clear (h : Dir s g) (hk : Kept s g s₁) (hi : UserPde i)
    (ht : X86.tableOf s.mem g i = some t) {j : Nat} (hj : j < 1024) :
    Kept s g (s₁.setMem (Mem.wr 4 s₁.mem (pageSize * t + 4 * j) 0)) where
  npages := hk.npages
  dir {k} hk' := by
    rw [Mm.setMem_mem, entry_wr _ _ hk'.lt hj, if_neg fun heq => h.table hi ht heq.1.symm,
      hk.dir hk']
  ptes {k t' k'} hk' ht' hj' := by
    rw [Mm.setMem_mem, entry_wr _ _ hj' hj]
    split
    · exact .inr rfl
    · exact hk.ptes hk' ht' hj'
  count hf := hk.count hf

/-- A frame the directory is not made of is freed. -/
theorem Kept.free (hk : Kept s g s₁) (hf : ¬ Owned s.mem g f) :
    ∃ s₂, freePage (some f) s₁ = .ok () s₂ ∧ s₂.mem = s₁.mem ∧ Kept s g s₂ := by
  obtain ⟨s₂, hfree, hmem, hnpages, hcount⟩ := freePage_counts s₁ f
  refine ⟨s₂, hfree, hmem, hnpages.trans hk.npages, fun hi => ?_, fun hi ht hj => ?_,
    fun {f'} hf' => ?_⟩
  · rw [hmem, hk.dir hi]
  · rw [hmem]
    exact hk.ptes hi ht hj
  · have hne : f' ≠ f := fun heq => hf (heq ▸ hf')
    rw [hcount, if_neg hne, hk.count hf']

theorem Kept.removePage (h : Dir s g) (hk : Kept s g s₁) (hva : UserAddr va) :
    ∃ r s₂, removePage (frameVa g) va s₁ = .ok r s₂ ∧ Kept s g s₂ := by
  unfold X86.removePage
  rw [Act.bind_ok (walkPage_lookup (fun _ => hk.small h) hva), hk.tableOf hva.pde]
  cases ht : X86.tableOf s.mem g (pgdIndex va) with
  | none => exact ⟨-1, s₁, rfl, hk⟩
  | some t =>
    have hsmall := h.small_of_owned (.inr ⟨_, hva.pde, ht⟩)
    have hj := pteIndex_lt va
    dsimp only [Option.map_some]
    rw [Act.bind_ok (load_entry hsmall hj)]
    by_cases hp : entry s₁.mem t (pteIndex va) &&& pteP ≠ 0
    · -- the page that is freed is one the table mapped at first
      have hold : entry s₁.mem t (pteIndex va) = entry s.mem t (pteIndex va) := by
        rcases hk.ptes hva.pde ht hj with hsame | hzero
        · exact hsame
        · rw [hzero] at hp
          exact absurd (by decide) hp
      have hframe : entry s₁.mem t (pteIndex va) >>> pteShift =
          entry s₁.mem t (pteIndex va) / pageSize := by
        rw [Nat.shiftRight_eq_div_pow]
        rfl
      have hmap : Mapped s.mem g (entry s₁.mem t (pteIndex va) / pageSize) := by
        refine ⟨_, t, _, hva.pde, ht, hj, ?_⟩
        rw [← hold, target, if_pos hp]
      obtain ⟨s₂, hfree, hmem, hk₂⟩ := hk.free (h.data hmap).1
      rw [if_pos hp, hframe, Act.bind_ok hfree, Act.bind_ok (store_entry hsmall hj)]
      exact ⟨0, _, rfl, hk₂.clear h hva.pde ht hj⟩
    · rw [if_neg hp, Act.bind_ok (store_entry hsmall hj)]
      exact ⟨0, _, rfl, hk.clear h hva.pde ht hj⟩

theorem Kept.removePages (h : Dir s g) (hk : Kept s g s₁) (hva : utext ≤ va)
    (hend : va + pageSize * n ≤ kbase) :
    ∃ s₂, removePages (frameVa g) n va s₁ = .ok () s₂ ∧ Kept s g s₂ := by
  induction n generalizing va s₁ with
  | zero => exact ⟨s₁, rfl, hk⟩
  | succ n ih =>
    unfold pageSize at hend
    obtain ⟨r, s₂, hremove, hk₂⟩ := hk.removePage h ⟨hva, by omega⟩
    rw [X86.removePages, Act.bind_ok hremove]
    refine ih hk₂ (by unfold pageSize; omega) ?_
    unfold pageSize
    omega

/-- Without page tables there is nothing to remove. -/
theorem removePages_none (h : Dir s g) (hnone : ∀ i, UserPde i → tableOf s.mem g i = none)
    (hva : utext ≤ va) (hend : va + pageSize * n ≤ kbase) :
    removePages (frameVa g) n va s = .ok () s := by
  induction n generalizing va with
  | zero => rfl
  | succ n ih =>
    unfold pageSize at hend
    have huser : UserAddr va := ⟨hva, by omega⟩
    have hremove : removePage (frameVa g) va s = .ok (-1) s := by
      unfold removePage
      rw [Act.bind_ok (walkPage_lookup (fun _ => h.small_of_owned) huser), hnone _ huser.pde]
      rfl
    rw [removePages, Act.bind_ok hremove]
    refine ih (by unfold pageSize; omega) ?_
    unfold pageSize
    omega

end Removing

/-! ## Freeing the page tables -/

/-- How often the second loop frees the frame `f` in `n` turns from `addr`. -/
def timesFreed (m : Mem) (g f : Nat) : Nat → Nat → Nat
  | 0, _ => 0
  | n + 1, addr => (if tableOf m g (addr >>> 22) = some f then 1 else 0) +
      timesFreed m g f n (addr + pageSize)

section Freeing

variable {m : Mem} {s s₁ : Mm} {g f i t n addr : Nat}

theorem timesFreed_le (m : Mem) (g f n addr : Nat) : timesFreed m g f n addr ≤ n := by
  induction n generalizing addr with
  | zero => exact Nat.le_refl 0
  | succ n ih =>
    rw [timesFreed]
    have hrest : timesFreed m g f n (addr + pageSize) ≤ n := ih _
    split <;> omega

/-- The turns from `k` turns on are some of the turns. -/
theorem timesFreed_drop (m : Mem) (g f k n addr : Nat) :
    timesFreed m g f n (addr + pageSize * k) ≤ timesFreed m g f (k + n) addr := by
  induction k generalizing addr with
  | zero => rw [Nat.mul_zero, Nat.add_zero, Nat.zero_add]
  | succ k ih =>
    have hrest : timesFreed m g f n (addr + pageSize + pageSize * k) ≤
        timesFreed m g f (k + n) (addr + pageSize) := ih _
    rw [show addr + pageSize * (k + 1) = addr + pageSize + pageSize * k by
      rw [Nat.mul_succ]; omega, Nat.succ_add, timesFreed]
    omega

/-- Two pages in the range of one table: it is freed twice. -/
theorem two_le_timesFreed (ht : tableOf m g i = some f) (haddr : addr >>> 22 = i)
    (hnext : (addr + pageSize) >>> 22 = i) : 2 ≤ timesFreed m g f (n + 2) addr := by
  rw [timesFreed, timesFreed, haddr, hnext, if_pos ht]
  omega

/-- A page table of the directory is freed more than once. -/
theorem table_timesFreed (hi : UserPde i) (ht : tableOf m g i = some f) :
    2 ≤ timesFreed m g f turns utext := by
  unfold UserPde at hi
  have hdrop := timesFreed_drop m g f (1024 * (i - 32)) (turns - 1024 * (i - 32)) utext
  have hturns : 1024 * (i - 32) + (turns - 1024 * (i - 32)) = turns := by
    have hlast : turns = 16312 := by decide
    omega
  have hrest : turns - 1024 * (i - 32) = (turns - 1024 * (i - 32) - 2) + 2 := by
    have hlast : turns = 16312 := by decide
    omega
  rw [hturns, hrest] at hdrop
  refine (two_le_timesFreed ht ?_ ?_).trans hdrop
  · rw [Nat.shiftRight_eq_div_pow]
    unfold utext pageSize
    omega
  · rw [Nat.shiftRight_eq_div_pow]
    unfold utext pageSize
    omega

theorem freeTables_run (hsmall : ∀ f, Owned s.mem g f → f < 2 ^ 18)
    (hlow : ∀ f, Owned s.mem g f → -2 ^ 30 + (n : Int) ≤ s.count f ∧ s.count f < 2 ^ 31)
    (hva : utext ≤ addr) (hend : addr + pageSize * n ≤ kbase) :
    ∃ s', freeTables (frameVa g) n addr s = .ok () s' ∧ s'.mem = s.mem ∧
      ∀ f, Owned s.mem g f → s'.count f = s.count f - timesFreed s.mem g f n addr := by
  induction n generalizing addr s with
  | zero => exact ⟨s, rfl, rfl, fun f _ => (Int.sub_zero _).symm⟩
  | succ n ih =>
    unfold pageSize at hend
    have hpde : UserPde (addr >>> 22) := UserAddr.pde ⟨hva, by omega⟩
    have hva' : utext ≤ addr + pageSize := by
      unfold pageSize
      omega
    have hend' : addr + pageSize + pageSize * n ≤ kbase := by
      unfold pageSize
      omega
    rw [freeTables, Act.bind_ok (load_entry (hsmall g (.inl rfl)) hpde.lt)]
    cases ht : tableOf s.mem g (addr >>> 22) with
    | none =>
      rw [if_neg (target_eq_none.mp ht)]
      obtain ⟨s', hrun, hmem, hcount⟩ := ih hsmall (fun f hf => by
        have hf' := hlow f hf
        omega) hva' hend'
      refine ⟨s', hrun, hmem, fun f hf => ?_⟩
      rw [hcount f hf, timesFreed, ht, if_neg (by simp), Nat.zero_add]
    | some t =>
      have htown : Owned s.mem g t := .inr ⟨_, hpde, ht⟩
      obtain ⟨s₁, hfree, hmem, -, hcount⟩ := freePage_counts s t
      have hcount' : ∀ f, Owned s.mem g f →
          s₁.count f = s.count f - if t = f then 1 else 0 := fun f hf => by
        rw [hcount]
        by_cases hft : t = f
        · subst hft
          have hbounds := hlow t hf
          rw [if_pos rfl, if_pos rfl]
          exact int32_of_bounds (by omega) (by omega)
        · rw [if_neg fun heq => hft heq.symm, if_neg hft, Int.sub_zero]
      rw [if_pos (present_of_target ht), (kpa2va_entry (entry_lt _ _ _) ht (hsmall t htown)).2,
        Act.bind_ok hfree]
      rw [← hmem] at hsmall
      obtain ⟨s', hrun, hmem', hrest⟩ := ih hsmall (fun f hf => by
        rw [hmem] at hf
        have hf' := hlow f hf
        rw [hcount' f hf]
        split <;> omega) hva' hend'
      refine ⟨s', hrun, hmem'.trans hmem, fun f hf => ?_⟩
      rw [hrest f (by rw [hmem]; exact hf), hcount' f hf, hmem, timesFreed, ht]
      simp only [Option.some.injEq]
      split <;> omega

theorem freeTables_none (h : Dir s g) (hnone : ∀ i, UserPde i → tableOf s.mem g i = none)
    (hva : utext ≤ addr) (hend : addr + pageSize * n ≤ kbase) :
    freeTables (frameVa g) n addr s = .ok () s := by
  induction n generalizing addr with
  | zero => rfl
  | succ n ih =>
    unfold pageSize at hend
    have hpde : UserPde (addr >>> 22) := UserAddr.pde ⟨hva, by omega⟩
    rw [freeTables, Act.bind_ok (load_entry (h.small_of_owned (.inl rfl)) hpde.lt),
      if_neg (target_eq_none.mp (hnone _ hpde))]
    refine ih (by unfold pageSize; omega) ?_
    unfold pageSize
    omega

end Freeing

/-! ## The whole -/

/-- What the end of an address space should be: each page table and the
directory were freed once, the frames on the free list are those with no
reference, and no count is negative. -/
structure TornDown (s : Mm) (g : Nat) (s' : Mm) : Prop where
  tables : ∀ {i t}, UserPde i → tableOf s.mem g i = some t → s'.count t = s.count t - 1
  dir : s'.count g = s.count g - 1
  list : ∃ l, FreeList s' l
  nonneg : ∀ f, 0 ≤ s'.count f

section Whole

variable {s : Mm} {g i t : Nat}

theorem turns_range : utext + pageSize * turns ≤ kbase := by decide

/-- The count of a page table goes below nought. -/
theorem Dir.table_negative (h : Dir s g) (hi : UserPde i) (ht : tableOf s.mem g i = some t) :
    ∃ s', destroyVm (frameVa g) s = .ok () s' ∧ s'.count t < 0 := by
  have hkept : Kept s g s := ⟨rfl, fun _ => rfl, fun _ _ _ => .inl rfl, fun _ => rfl⟩
  obtain ⟨s₁, hremove, hk⟩ := hkept.removePages h (Nat.le_refl utext) turns_range
  have hone : ∀ f, Owned s₁.mem g f → s₁.count f = 1 := fun f hf => by
    have hf' := (owned_congr hk.dir).mp hf
    rw [hk.count hf', (h.owned hf').2]
  have hturns : turns = 16312 := by decide
  obtain ⟨s₂, hfree, -, hcount⟩ := freeTables_run (fun _ => hk.small h)
    (fun f hf => by
      rw [hone f hf, hturns]
      decide) (Nat.le_refl utext) turns_range
  obtain ⟨s₃, hlast, -, -, hcount'⟩ := freePage_counts s₂ (va2page (frameVa g))
  refine ⟨s₃, ?_, ?_⟩
  · rw [destroyVm, Act.bind_ok hremove, Act.bind_ok hfree, hlast]
  · have ht' : tableOf s₁.mem g i = some t := (hk.tableOf hi).trans ht
    have htown : Owned s₁.mem g t := .inr ⟨i, hi, ht'⟩
    have htwice := table_timesFreed hi ht'
    have hle := timesFreed_le s₁.mem g t turns utext
    have hneg : s₂.count t = 1 - timesFreed s₁.mem g t turns utext := by
      rw [hcount t htown, hone t htown]
    rw [hcount']
    split
    · next heq =>
      rw [← heq, int32_of_bounds] <;> omega
    · omega

/-- Without page tables one frame is freed, that of the directory's region. -/
theorem Dir.destroyVm_none (h : Dir s g) (hnone : ∀ i, UserPde i → tableOf s.mem g i = none) :
    destroyVm (frameVa g) s = freePage (some (g / 1024)) s := by
  rw [destroyVm, Act.bind_ok (removePages_none h hnone (Nat.le_refl utext) turns_range),
    Act.bind_ok (freeTables_none h hnone (Nat.le_refl utext) turns_range),
    va2page_frameVa (h.small_of_owned (.inl rfl))]

/-- The end of an address space is what it should be for a directory in frame
0 without page tables, and for no other. -/
theorem Dir.tornDown_iff (h : Dir s g) :
    (∃ s', destroyVm (frameVa g) s = .ok () s' ∧ TornDown s g s') ↔
      g = 0 ∧ ∀ i, UserPde i → tableOf s.mem g i = none := by
  constructor
  · rintro ⟨s', hrun, htorn⟩
    have hnone : ∀ i, UserPde i → tableOf s.mem g i = none := fun i hi => by
      cases ht : tableOf s.mem g i with
      | none => rfl
      | some t =>
        obtain ⟨s₁, hrun', hneg⟩ := h.table_negative hi ht
        cases hrun.symm.trans hrun'
        exact absurd (htorn.nonneg t) (Int.not_le.mpr hneg)
    refine ⟨?_, hnone⟩
    obtain ⟨s₁, hfree, -, -, hcount⟩ := freePage_counts s (g / 1024)
    rw [h.destroyVm_none hnone, hfree] at hrun
    cases hrun
    have hdir := htorn.dir
    rw [hcount] at hdir
    split at hdir
    · omega
    · omega
  · rintro ⟨rfl, hnone⟩
    obtain ⟨hlt, hone⟩ := h.owned (f := 0) (.inl rfl)
    obtain ⟨l, hl⟩ := h.list
    refine ⟨s.released 0, ?_, fun hi ht => ?_, ?_, ⟨_, hl.released hlt hone⟩, fun f => ?_⟩
    · rw [h.destroyVm_none hnone]
      exact freePage_last hone
    · cases (hnone _ hi).symm.trans ht
    · rw [Mm.released_count, if_pos rfl, hone]
      rfl
    · rw [Mm.released_count]
      split
      · exact Int.le_refl 0
      · exact h.nonneg f

/-- DESTROY: after any run of mappings at user addresses, `destroy_vm` frees
the page tables and the directory once each, and leaves the counts in order,
exactly if the directory is in frame 0 and has no page table. -/
theorem destroy_vm_exact {s₀ s : Mm} {g : Nat} {es : List DirEvent} (hfresh : Fresh s₀ g)
    (hrun : Steps (dirStep g) s₀ es s) :
    (∃ s', destroyVm (frameVa g) s = .ok () s' ∧ TornDown s g s') ↔
      g = 0 ∧ ∀ i, UserPde i → tableOf s.mem g i = none :=
  (Steps.invariant (fun s => Dir s g) (fun h hstep => h.step hstep) hrun hfresh.userDir).tornDown_iff

end Whole

section Sample

/-- A page is mapped where there is no page table. -/
theorem insertPage_new {s : Mm} {g va n pp flag : Nat} (h : Dir s g) (hva : UserAddr va)
    (hnone : tableOf s.mem g (pgdIndex va) = none) (hn : s.phead = some n) :
    ∃ s', insertPage (frameVa g) va (some pp) flag s = .ok 0 s' ∧ s'.starved = s.starved := by
  obtain ⟨hdir, htab, -⟩ := h.link hva.pde hnone hn
  have hsmall := hdir.small_of_owned (.inr ⟨_, hva.pde, htab⟩)
  unfold insertPage
  dsimp only
  rw [Act.bind_ok (walkPage_new h hva hnone hn)]
  dsimp only
  rw [Act.gets_bind_apply, Act.bind_ok (store_entry hsmall (pteIndex_lt va))]
  refine ⟨_, rfl, ?_⟩
  rw [linked, Mm.setMem_starved, Mm.setMem_starved, Mm.taken_starved]

theorem sampleMm_fresh {g : Nat} (hg : g < 3) : Fresh sampleMm g := by
  refine ⟨by decide, ⟨_, sampleMm_list⟩, fun f => ?_, ⟨hg.trans (by decide), ?_⟩, fun _ =>
    Mem.rd_zero fun _ _ _ => rfl⟩
  · rw [sampleMm_count]
    split <;> decide
  · rw [sampleMm_count, if_pos hg]

/-- One page is mapped in the directory in frame 1. -/
theorem sampleMm_insert : ∃ s, Steps (dirStep 1) sampleMm [.insert utext 2 7] s := by
  have h := sampleMm_fresh (by decide : 1 < 3)
  have huser : UserAddr utext := ⟨by decide, by decide⟩
  have hnew : ∃ s, insertPage (frameVa 1) utext (some 2) 7 sampleMm = .ok 0 s ∧
      s.starved = sampleMm.starved := insertPage_new h.userDir huser (h.none huser.pde) rfl
  obtain ⟨s, hrun, hns⟩ := hnew
  have hout : ¬ Owned sampleMm.mem 1 2 := by
    rintro (heq | ⟨i, hi, ht⟩)
    · exact absurd heq (by decide)
    · cases (h.none hi).symm.trans ht
  exact ⟨s, .cons ⟨huser, by decide, by decide, by decide, hout, hns, 0, hrun⟩ (.nil s)⟩

/-- With one page mapped in the directory in frame 1 the end is not what it
should be. -/
theorem destroy_vm_one_page : ∃ s₀ s, Fresh s₀ 1 ∧
    Steps (dirStep 1) s₀ [.insert utext 2 7] s ∧
    ¬ ∃ s', destroyVm (frameVa 1) s = .ok () s' ∧ TornDown s 1 s' := by
  obtain ⟨s, hrun⟩ := sampleMm_insert
  have h := sampleMm_fresh (by decide : 1 < 3)
  have hdir : Dir s 1 := Steps.invariant (fun s => Dir s 1) (fun h hstep => h.step hstep) hrun
    h.userDir
  refine ⟨sampleMm, s, h, hrun, fun htorn => ?_⟩
  exact absurd (hdir.tornDown_iff.mp htorn).1 (by decide)

/-- A directory in frame 0 and no page mapped. -/
theorem destroy_vm_exact_sample :
    ∃ s', destroyVm (frameVa 0) sampleMm = .ok () s' ∧ TornDown sampleMm 0 s' :=
  (destroy_vm_exact (sampleMm_fresh (by decide)) (.nil sampleMm)).mpr
    ⟨rfl, fun _ hi => (sampleMm_fresh (by decide)).none hi⟩

end Sample

end Myos.Kernel.X86
