import Myos.Kernel.FileRead
import Myos.Kernel.Mapping
import Myos.Kernel.PageMap

/-!
# Memory of the guest

`sys_mmap_mem` of `kernel/amd64/vmx.c`. The extended page tables are a tree that
`insert_page` of `mm.c` fills, so a byte of the guest is a byte of the frame at
its page (`guestByte`), and what the call does to the guest's memory is had from
`page_tables_map`'s lemmas.

The copy goes to one fresh frame, from the offset of the address on and for as
long as the caller says, and the frame takes the place of whatever was mapped.
`mmap_mem_exact` says when that is what the call is for: which pages may have
been mapped, and where the copy may run on behind the fresh frame.
-/

namespace Myos.Kernel

open Myos.Lib

/-- `VMX_EPT_PTE_FULL`. -/
def vmxEptPteFull : Nat := 0x4 ||| 0x2 ||| 0x1

/-- `sys_mmap_mem`; it does not look at `prot`, and `memcpy` takes the length for an
`unsigned int`. -/
def sysMmapMem (eptPgdir addr length gpa : Nat) (_prot : Int) : Act Mm Int := do
  let offset := gpa - gpa / pageSize * pageSize
  let pp ← allocPage 1
  let dest ← Act.gets fun s => s.page2va pp
  memcpy (u64 (dest + offset)) addr (u32 length)
  insertPage eptPgdir gpa pp vmxEptPteFull

/-! ## The guest -/

/-- What the guest reads at an address, if it is mapped. -/
def guestByte (s : Mm) (g x : Nat) : Option UInt8 :=
  if x < 2 ^ 48 then
    (frameOf s.mem g (x / pageSize)).map fun f => s.mem (pageSize * f + x % pageSize)
  else none

/-- A frame mapped for the guest. -/
def GuestFrame (s : Mm) (g f : Nat) : Prop := ∃ page ∈ allPages, frameOf s.mem g page = some f

/-- A buffer of the caller: its bytes are in no free frame and in none of the guest,
and it stays mapped while these are stored to. -/
structure CallerBuffer (s : Mm) (g addr length : Nat) (pa : Nat → Nat) : Prop where
  maps : s.Maps (fun x => s.Free (x / pageSize) ∨ GuestFrame s g (x / pageSize)) addr length pa
  out : ∀ i, i < length → ¬ s.Free (pa i / pageSize) ∧ ¬ GuestFrame s g (pa i / pageSize)

theorem CallerBuffer.mono {s : Mm} {g addr length n : Nat} {pa : Nat → Nat}
    (h : CallerBuffer s g addr length pa) (hn : n ≤ length) : CallerBuffer s g addr n pa :=
  ⟨fun m hm i hi => h.maps m hm i (Nat.lt_of_lt_of_le hi hn),
    fun i hi => h.out i (Nat.lt_of_lt_of_le hi hn)⟩

/-- `memcpy` copies no more than it is asked to. -/
theorem u32_le (n : Nat) : u32 n ≤ n := by
  unfold u32
  omega

section Tree

variable {s s' : Mm} {g va pp flag : Nat} {m : Mem}

/-- Memory stored to outside of the tables. -/
theorem WellFormed.setMem (h : WellFormed s g) (hm : ∀ f o, IsTable 512 s.mem (dir g) f →
    o < pageSize → m (pageSize * f + o) = s.mem (pageSize * f + o)) :
    WellFormed (s.setMem m) g ∧ (∀ page, frameOf m g page = frameOf s.mem g page) ∧
      ∀ f, IsTable 512 m (dir g) f ↔ IsTable 512 s.mem (dir g) f := by
  have hentry : ∀ {f i}, IsTable 512 s.mem (dir g) f → i < 512 →
      Mem.entry m f i = Mem.entry s.mem f i := fun hf hi =>
    Mem.entry_congr hi fun o ho => hm _ o hf ho
  have htable : ∀ {r : Unit} {p : List Nat}, TablePath 512 p →
      tableAt m (dir g) r p = tableAt s.mem (dir g) r p := fun hp =>
    tableAt_congr (fun hpi hg => hentry ⟨_, _, hpi.init, hg⟩ hpi.last) hp
  have hframe : ∀ page, frameOf m g page = frameOf s.mem g page := fun page => by
    unfold frameOf leaf
    rw [htable (tablePath_pathTo (pmlIndex_lt _))]
    cases hg : tableAt s.mem (dir g) () (pathTo (pageSize * page)) with
    | none => rfl
    | some f =>
      exact congrArg target
        (hentry ⟨(), _, tablePath_pathTo (pmlIndex_lt _), hg⟩ (pteIndex_lt _))
  have hsame := @isTable_congr _ _ (dir g) s.mem m htable
  refine ⟨⟨?_, h.counts, fun {page f} hp hf => ?_, fun f hf => ?_⟩, hframe, hsame⟩
  · obtain ⟨l, hl⟩ := h.tables.list
    exact h.tables.congr rfl ⟨l, hl.congr rfl rfl rfl⟩ (fun hg => (h.tables.inUse hg).2)
      fun hpi hg => hentry ⟨_, _, hpi.init, hg⟩ hpi.last
  · rw [Mm.setMem_mem, hframe] at hf
    obtain ⟨hlt, hdata⟩ := h.mapped hp hf
    exact ⟨hlt, fun ht => hdata ((hsame f).mp ht)⟩
  · have hrefs : Owners.refs allPages (frameOf m g) f = Owners.refs allPages (frameOf s.mem g) f :=
      Owners.refs_congr fun page _ => by rw [hframe page]
    rw [Mm.setMem_mem, hrefs]
    exact h.refs f hf

/-- A frame that may be mapped still may when memory outside of the tables is stored to. -/
theorem Spare.setMem (h : Spare s g va pp) (hwf : WellFormed s g)
    (hm : ∀ f o, IsTable 512 s.mem (dir g) f → o < pageSize →
      m (pageSize * f + o) = s.mem (pageSize * f + o)) : Spare (s.setMem m) g va pp := by
  obtain ⟨-, hframe, htable⟩ := hwf.setMem hm
  refine ⟨h.range, fun ht => h.data ((htable pp).mp ht), ?_⟩
  have hrefs := @Owners.refs_congr _ _ _ (allPages.erase (va / pageSize)) (frameOf s.mem g)
    (frameOf m g) pp fun page _ => by rw [hframe page]
  rw [Mm.setMem_mem, hrefs]
  exact h.spare

/-- `insert_page` puts the frame at the page, and stores to no other frame that is
neither free nor a table. -/
theorem insertPage_frames (hwf : WellFormed s g) (hva : va < 2 ^ 48) (hsp : Spare s g va pp)
    (hp : flag &&& pteP ≠ 0) (hflag : flag < pageSize)
    (hns : (insertPage (frameVa g) va (some pp) flag s).state.starved = false) :
    ∃ s', insertPage (frameVa g) va (some pp) flag s = .ok 0 s' ∧ WellFormed s' g ∧
      (∀ f, ¬ s.Free f → ¬ s'.Free f) ∧
      (∀ page, page ∈ allPages → frameOf s'.mem g page =
        if page = va / pageSize then some pp else frameOf s.mem g page) ∧
      ∀ f o, ¬ s.Free f → ¬ IsTable 512 s.mem (dir g) f → o < pageSize →
        s'.mem (pageSize * f + o) = s.mem (pageSize * f + o) := by
  have h64 : flag < 2 ^ 64 := Nat.lt_trans hflag (by decide)
  obtain ⟨s₁, h, ht, hgrown, -, hh, hrun⟩ :=
    insertPage_run hwf.tables notLarge (pmlIndex_lt va) rfl hns
  obtain ⟨s', hrun', -, -, hwf'⟩ := insertPage_map hwf hva hsp.range hp h64 hns
  have hs' : s' = s₁.setLeaf h va (pp <<< pteShift ||| flag) := by
    rw [hrun] at hrun'
    injection hrun' with _ hs
    exact hs.symm
  have he := entry_lt (Nat.lt_of_lt_of_le hsp.range hwf.tables.small) h64
  refine ⟨s', hrun', hwf'.mpr (by rwa [or_flag hflag]), fun f hf => ?_, fun page hpage => ?_,
    fun f o hf hft ho => ?_⟩
  · rw [hs']
    exact hgrown.not_free hf
  · rw [hs', frameOf_setLeaf page ht hva hh he hpage, target_or hp, or_flag hflag]
    refine if_congr Iff.rfl rfl ?_
    rw [frameOf, frameOf, hgrown.leaf (pmlIndex_lt _)]
  · have hfh : f ≠ h := fun heq => hgrown.not_table hf hft
      (heq ▸ ⟨(), _, tablePath_pathTo (pmlIndex_lt va), hh⟩)
    rw [hs', setLeaf_bytes ho hfh]
    exact hgrown.bytes hf hft ho

end Tree

/-! ## The call -/

/-- The bytes the copy stores to are in the frame that was free, or in frames of the
guest. -/
def CopyInside (s : Mm) (g pp gpa length : Nat) : Prop :=
  ∀ i, i < length → (pageSize * pp + gpa % pageSize + i) / pageSize = pp ∨
    GuestFrame s g ((pageSize * pp + gpa % pageSize + i) / pageSize)

/-- What the copy leaves in a byte of memory. -/
def leftByte (s : Mm) (pp gpa length : Nat) (pa : Nat → Nat) (y : Nat) : UInt8 :=
  if pageSize * pp + gpa % pageSize ≤ y ∧ y < pageSize * pp + gpa % pageSize + length then
    s.mem (pa (y - (pageSize * pp + gpa % pageSize)))
  else s.mem y

/-- What the guest reads after the call: the copy in the page of the address, with
noughts around it, and elsewhere what the copy left. -/
def guestAfter (s : Mm) (g pp gpa length : Nat) (pa : Nat → Nat) (x : Nat) : Option UInt8 :=
  if x / pageSize = gpa / pageSize then
    some (if gpa ≤ x ∧ x < gpa + length then s.mem (pa (x - gpa)) else 0)
  else (frameOf s.mem g (x / pageSize)).map fun f =>
    leftByte s pp gpa length pa (pageSize * f + x % pageSize)

theorem sysMmapMem_starves (eptPgdir addr length gpa : Nat) (prot : Int) :
    Act.Within Mm.Starves (sysMmapMem eptPgdir addr length gpa prot) :=
  Starves.bind (Starves.allocPage 1) fun pp => Starves.bind (Starves.gets _) fun _ =>
    Starves.bind (Starves.memcpy _ _ _) fun _ => insertPage_starves _ _ pp _

/-- A call takes four frames at most. -/
theorem sysMmapMem_served {s : Mm} {l : List Nat} (eptPgdir addr length gpa : Nat) (prot : Int)
    (hl : FreeList s l) (hn : s.npages ≤ 2 ^ 19) (hlen : 4 ≤ l.length) (hns : s.starved = false) :
    (sysMmapMem eptPgdir addr length gpa prot s).state.starved = false ∧
      ∃ l', FreeList (sysMmapMem eptPgdir addr length gpa prot s).state l' ∧
        l.length ≤ l'.length + 4 := by
  have hspends : Spends id 4 (sysMmapMem eptPgdir addr length gpa prot) :=
    Spends.bind (k := 3) (Spends.allocPage 1) fun pp => Spends.next (Spends.gets _) fun _ =>
      Spends.next (Spends.memcpy _ _ _) fun _ => Spends.insertPage _ _ pp _
  obtain ⟨h1, -, h2⟩ := hspends s l hl hn hlen hns
  exact ⟨h1, h2⟩

section Call

variable {s s' : Mm} {g addr length gpa pp : Nat} {prot : Int} {pa : Nat → Nat}

/-- The frame that was free may be mapped. -/
theorem WellFormed.spare_taken (hwf : WellFormed s g) (hpp : s.phead = some pp) :
    WellFormed (s.taken pgzero pp) g ∧ Spare (s.taken pgzero pp) g gpa pp ∧
      Grown 512 (dir g) s (s.taken pgzero pp) := by
  obtain ⟨ht, hgrown, hone, hdata⟩ := hwf.tables.taken hpp
  obtain ⟨hfree, -⟩ := hwf.tables.head hpp
  refine ⟨(hwf.grown ht hgrown).1, ⟨hgrown.npages ▸ hfree.1, hdata, ?_⟩, hgrown⟩
  rw [hone, Owners.refs_eq_zero fun page hpage hf => ?_]
  · decide
  · rw [frameOf, hgrown.leaf (pmlIndex_lt _)] at hf
    exact hwf.not_free (Finset.mem_of_mem_erase hpage) hf hfree

/-- What the copy does to memory. -/
theorem mmap_memcpy (hwf : WellFormed s g) (hbuf : CallerBuffer s g addr length pa)
    (hpp : s.phead = some pp) (hinside : CopyInside s g pp gpa length) :
    ∃ m : Mem, memcpy (kbase + (pageSize * pp + gpa % pageSize)) addr length (s.taken pgzero pp) =
        .ok () ((s.taken pgzero pp).setMem m) ∧
      (∀ i, i < length → m (pageSize * pp + gpa % pageSize + i) = s.mem (pa i)) ∧
      ∀ x, (∀ i, i < length → x ≠ pageSize * pp + gpa % pageSize + i) →
        m x = (s.taken pgzero pp).mem x := by
  obtain ⟨hfree, hsmall⟩ := hwf.tables.head hpp
  have hnpages := hwf.tables.small
  obtain ⟨base, hbase⟩ : ∃ base, base = pageSize * pp + gpa % pageSize := ⟨_, rfl⟩
  have hframe : ∀ i, i < length → s.Free ((base + i) / pageSize) ∨
      GuestFrame s g ((base + i) / pageSize) := fun i hi => by
    rw [hbase]
    rcases hinside i hi with h | h
    · rw [h]
      exact .inl hfree
    · exact .inr h
  have hlt : ∀ i, i < length → base + i < 2 ^ 31 := fun i hi => by
    have hf : (base + i) / pageSize < 2 ^ 19 := by
      refine Nat.lt_of_lt_of_le ?_ hnpages
      rcases hframe i hi with h | ⟨page, hpage, h⟩
      · exact h.1
      · exact (hwf.mapped hpage h).1
    unfold pageSize at hf
    omega
  have htaken : ∀ x, x / pageSize ≠ pp → (s.taken pgzero pp).mem x = s.mem x := fun x hx => by
    rw [Mm.taken_mem_zeroed, Mem.fill, Mem.overlay_out]
    unfold pageSize at *
    omega
  have happart : ∀ i j, i < length → j < length → base + i ≠ pa j := fun i j hi hj heq => by
    obtain ⟨h1, h2⟩ := hbuf.out j hj
    rw [← heq] at h1 h2
    exact (hframe i hi).elim h1 h2
  have hkpa : ∀ m : Mem, (∀ x, (∀ i, i < length → x ≠ base + i) →
      m x = (s.taken pgzero pp).mem x) → ∀ i, i < length →
      ((s.taken pgzero pp).setMem m).kpa (kbase + base + i) = some (base + i) ∧
        ((s.taken pgzero pp).setMem m).kpa (addr + i) = some (pa i) := fun m hm i hi => by
    refine ⟨by rw [Nat.add_assoc]; exact Mm.kpa_direct (hlt i hi), ?_⟩
    rw [← hbuf.maps m (fun x hx => ?_) i hi]
    · exact Mm.kpa_congr rfl (Mm.taken_cr3 s pgzero pp)
    · have hne : x / pageSize ≠ pp := fun h => hx (.inl (h ▸ hfree))
      refine (hm x fun j hj heq => hx ?_).trans (htaken x hne)
      rw [heq]
      exact hframe j hj
  rw [← hbase]
  obtain ⟨m, hrun, hin, hout⟩ := memcpy_scatter (s := s.taken pgzero pp) (n := length)
    (kbase + base) addr (fun i => base + i) pa hkpa (fun i j _ _ h => by omega) happart
  refine ⟨m, hrun, fun i hi => (hin i hi).trans (htaken _ fun heq => ?_), hout⟩
  exact (hbuf.out i hi).1 (heq ▸ hfree)

/-- After the copy the frame is inserted. -/
theorem sysMmapMem_insert {m : Mem} (hpp : s.phead = some pp) (hsmall : pp < 2 ^ 19)
    (hcopy : memcpy (kbase + (pageSize * pp + gpa % pageSize)) addr (u32 length)
      (s.taken pgzero pp) = .ok () ((s.taken pgzero pp).setMem m)) :
    sysMmapMem (frameVa g) addr length gpa prot s =
      insertPage (frameVa g) gpa (some pp) vmxEptPteFull ((s.taken pgzero pp).setMem m) := by
  have hoff : gpa - gpa / pageSize * pageSize = gpa % pageSize := by
    unfold pageSize
    omega
  have hdest : u64 (frameVa pp + gpa % pageSize) = kbase + (pageSize * pp + gpa % pageSize) := by
    unfold u64 frameVa kbase pageSize
    omega
  have halloc : allocPage 1 s = .ok (some pp) (s.taken pgzero pp) := allocPage_some hpp hsmall
  unfold sysMmapMem
  rw [Act.bind_ok halloc, Act.gets_bind_apply, Mm.page2va_some hsmall,
    hoff, hdest, Act.bind_ok hcopy]

/-- What the guest reads after a call whose copy stays inside. -/
theorem sysMmapMem_run (hwf : WellFormed s g) (hgpa : gpa < 2 ^ 48)
    (hbuf : CallerBuffer s g addr (u32 length) pa) (hpp : s.phead = some pp)
    (hinside : CopyInside s g pp gpa (u32 length))
    (hns : (sysMmapMem (frameVa g) addr length gpa prot s).state.starved = false) :
    ∃ s', sysMmapMem (frameVa g) addr length gpa prot s = .ok 0 s' ∧ WellFormed s' g ∧
      (∀ f, ¬ s.Free f → ¬ s'.Free f) ∧
      (∀ page, page ∈ allPages → frameOf s'.mem g page =
        if page = gpa / pageSize then some pp else frameOf s.mem g page) ∧
      (∀ f o, ¬ s.Free f → ¬ GuestFrame s g f → ¬ IsTable 512 s.mem (dir g) f → o < pageSize →
        s'.mem (pageSize * f + o) = s.mem (pageSize * f + o)) ∧
      ∀ x, guestByte s' g x = if x < 2 ^ 48 then guestAfter s g pp gpa (u32 length) pa x else none := by
  obtain ⟨hfree, hsmall⟩ := hwf.tables.head hpp
  obtain ⟨hwf₁, hspare, hgrown⟩ := @WellFormed.spare_taken _ _ gpa _ hwf hpp
  obtain ⟨m, hcopy, hin, hout⟩ := mmap_memcpy hwf hbuf hpp hinside
  have hframe₁ : ∀ page, frameOf (s.taken pgzero pp).mem g page = frameOf s.mem g page :=
    fun page => by rw [frameOf, frameOf, hgrown.leaf (pmlIndex_lt _)]
  have hbytes : ∀ y, m y = if pageSize * pp + gpa % pageSize ≤ y ∧
      y < pageSize * pp + gpa % pageSize + u32 length then
        s.mem (pa (y - (pageSize * pp + gpa % pageSize)))
      else (s.taken pgzero pp).mem y := fun y => by
    by_cases hy : pageSize * pp + gpa % pageSize ≤ y ∧
        y < pageSize * pp + gpa % pageSize + u32 length
    · obtain ⟨i, rfl⟩ := Nat.exists_eq_add_of_le hy.1
      rw [if_pos hy, Nat.add_sub_cancel_left]
      exact hin i (by omega)
    · rw [if_neg hy]
      exact hout y fun i hi heq => hy (by omega)
  have htables : ∀ f o, IsTable 512 (s.taken pgzero pp).mem (dir g) f → o < pageSize →
      m (pageSize * f + o) = (s.taken pgzero pp).mem (pageSize * f + o) := fun f o hf ho => by
    refine hout _ fun i hi heq => ?_
    have hdiv : (pageSize * pp + gpa % pageSize + i) / pageSize = f := by
      rw [← heq]
      unfold pageSize at *
      omega
    have hplace := hinside i hi
    rw [hdiv] at hplace
    rcases hplace with rfl | ⟨page, hpage, hmapped⟩
    · exact hspare.data hf
    · exact (hwf₁.mapped hpage ((hframe₁ page).trans hmapped)).2 hf
  obtain ⟨hwf₂, hframe₂, htable₂⟩ := hwf₁.setMem htables
  have hspare₂ := hspare.setMem hwf₁ htables
  rw [sysMmapMem_insert hpp hsmall hcopy] at hns ⊢
  obtain ⟨s', hins, hwf', hused', hframe', hmem'⟩ := insertPage_frames hwf₂ hgpa hspare₂
    (by decide : vmxEptPteFull &&& pteP ≠ 0) (by decide) hns
  refine ⟨s', hins, hwf', fun f hf => hused' f (hgrown.not_free hf), fun page hpage => ?_,
    fun f o hf hgf hft ho => ?_, fun x => ?_⟩
  · rw [hframe' page hpage, Mm.setMem_mem, hframe₂, hframe₁]
  · have hne : f ≠ pp := fun h => hf (h ▸ hfree)
    rw [hmem' f o (hgrown.not_free hf)
      (fun h => hgrown.not_table hf hft ((htable₂ f).mp h)) ho, Mm.setMem_mem, hout _ fun i hi heq => ?_]
    · exact taken_bytes hne ho
    · have hdiv : (pageSize * pp + gpa % pageSize + i) / pageSize = f := by
        rw [← heq]
        unfold pageSize at *
        omega
      have hplace := hinside i hi
      rw [hdiv] at hplace
      exact hplace.elim hne hgf
  rw [guestByte]
  by_cases hx : x < 2 ^ 48
  · have ho : x % pageSize < pageSize := Nat.mod_lt x (by decide)
    rw [if_pos hx, if_pos hx, hframe' _ (mem_allPages hx), guestAfter]
    by_cases hpage : x / pageSize = gpa / pageSize
    · rw [if_pos hpage, if_pos hpage, Option.map_some,
        hmem' pp _ hspare₂.not_free hspare₂.data ho, Mm.setMem_mem, hbytes]
      refine congrArg some (if_congr ?_ ?_ ?_)
      · unfold pageSize at *
        omega
      · congr 2
        unfold pageSize at *
        omega
      · rw [Mm.taken_mem_zeroed, Mem.fill, Mem.overlay_in (by omega)]
    · rw [if_neg hpage, if_neg hpage, Mm.setMem_mem, hframe₂, hframe₁]
      cases hf : frameOf s.mem g (x / pageSize) with
      | none => rfl
      | some f =>
        have hmapped := (hframe₂ (x / pageSize)).trans ((hframe₁ _).trans hf)
        have hne : f ≠ pp := fun h => hwf.not_free (mem_allPages hx) hf (h ▸ hfree)
        rw [Option.map_some, Option.map_some, hmem' f _ (hwf₂.not_free (mem_allPages hx) hmapped)
          (hwf₂.mapped (mem_allPages hx) hmapped).2 ho, Mm.setMem_mem, hbytes, leftByte]
        refine congrArg some (if_congr Iff.rfl rfl ?_)
        rw [Mm.taken_mem_zeroed, Mem.fill, Mem.overlay_out]
        unfold pageSize at *
        omega
  · rw [if_neg hx, if_neg hx]

/-- What the call is for: the guest reads the caller's bytes, reads what it read
before everywhere else, and the copy stores to no byte that is not the guest's. -/
structure WritesExactly (s s' : Mm) (g pp gpa length : Nat) (pa : Nat → Nat) : Prop where
  copied : ∀ i, i < length → guestByte s' g (gpa + i) = some (s.mem (pa i))
  kept : ∀ x b, x < gpa ∨ gpa + length ≤ x → guestByte s g x = some b →
    guestByte s' g x = some b
  inside : CopyInside s g pp gpa (u32 length)

/-- The page of the address was not mapped, or its other bytes are nought. -/
def PageBlank (s : Mm) (g gpa length : Nat) : Prop :=
  ∀ x b, x / pageSize = gpa / pageSize → x < gpa ∨ gpa + length ≤ x →
    guestByte s g x = some b → b = 0

/-- The range ends in the page in which it starts. -/
def FitsPage (gpa length : Nat) : Prop := gpa % pageSize + length ≤ pageSize

/-- The later pages of the range are mapped, in order, to the frames behind the fresh
one, and these are at no other page, unless it is the page of the address. -/
structure Follows (s : Mm) (g pp gpa length : Nat) : Prop where
  next : ∀ k, 0 < k → pageSize * (gpa / pageSize + k) < gpa + length →
    gpa / pageSize + k ∈ allPages ∧ frameOf s.mem g (gpa / pageSize + k) = some (pp + k)
  alone : ∀ k page, 0 < k → pageSize * (gpa / pageSize + k) < gpa + length → page ∈ allPages →
    frameOf s.mem g page = some (pp + k) → page = gpa / pageSize ∨ page = gpa / pageSize + k

/-- A range that ends in its page has no later pages. -/
theorem FitsPage.follows (h : FitsPage gpa length) : Follows s g pp gpa length := by
  have hend : ∀ k, 0 < k → ¬ pageSize * (gpa / pageSize + k) < gpa + length := by
    intro k hk
    have hfit : gpa % pageSize + length ≤ pageSize := h
    unfold pageSize at *
    omega
  exact ⟨fun k hk hlt => absurd hlt (hend k hk), fun k _ hk hlt => absurd hlt (hend k hk)⟩

theorem FitsPage.u32 (h : FitsPage gpa length) : u32 length = length := by
  have hfit : gpa % pageSize + length ≤ pageSize := h
  refine u32_nat ?_
  unfold pageSize at hfit
  omega

/-- The frame that the copy has come to after so many bytes. -/
theorem copy_frame (pp gpa i : Nat) :
    (pageSize * pp + gpa % pageSize + i) / pageSize = pp + (gpa % pageSize + i) / pageSize := by
  unfold pageSize
  omega

/-- The page that the range has come to. -/
theorem range_page (gpa i : Nat) :
    (gpa + i) / pageSize = gpa / pageSize + (gpa % pageSize + i) / pageSize := by
  unfold pageSize
  omega

/-- The copy stays inside: it goes where the range is mapped. -/
theorem Follows.inside (h : Follows s g pp gpa length) : CopyInside s g pp gpa length := by
  intro i hi
  obtain ⟨k, hk⟩ : ∃ k, k = (gpa % pageSize + i) / pageSize := ⟨_, rfl⟩
  rw [copy_frame, ← hk]
  by_cases hzero : k = 0
  · rw [hzero]
    exact .inl rfl
  · have hlt : pageSize * (gpa / pageSize + k) < gpa + length := by
      rw [hk]
      unfold pageSize
      omega
    obtain ⟨hpage, hf⟩ := h.next k (Nat.pos_of_ne_zero hzero) hlt
    exact .inr ⟨_, hpage, hf⟩

/-- There are not so many frames that the length would not fit an `unsigned int`. -/
theorem Follows.short (h : Follows s g pp gpa length) (hwf : WellFormed s g) :
    length < 2 ^ 32 := by
  by_contra hlen
  obtain ⟨hpage, hf⟩ := h.next (2 ^ 19) (by decide) (by unfold pageSize; omega)
  have hlt := (hwf.mapped hpage hf).1
  have hsmall := hwf.tables.small
  omega

/-- What the guest reads in the page of the address. -/
theorem guestAfter_page {x : Nat} (hx : x / pageSize = gpa / pageSize) :
    guestAfter s g pp gpa length pa x =
      some (if gpa ≤ x ∧ x < gpa + length then s.mem (pa (x - gpa)) else 0) := if_pos hx

/-- What the guest reads after a call that returns 0. -/
theorem sysMmapMem_reads (hwf : WellFormed s g) (hgpa : gpa < 2 ^ 48)
    (hbuf : CallerBuffer s g addr length pa) (hpp : s.phead = some pp)
    (hinside : CopyInside s g pp gpa (u32 length))
    (hrun : sysMmapMem (frameVa g) addr length gpa prot s = .ok 0 s') (hns : s'.starved = false)
    (x : Nat) : guestByte s' g x =
      if x < 2 ^ 48 then guestAfter s g pp gpa (u32 length) pa x else none := by
  obtain ⟨s₁, hrun₁, -, -, -, -, hbyte⟩ :=
    @sysMmapMem_run _ _ _ length _ _ prot _ hwf hgpa (hbuf.mono (u32_le length)) hpp hinside
      (by rw [hrun]; exact hns)
  rw [hrun] at hrun₁
  injection hrun₁ with _ hs
  rw [hs, hbyte]

/-- A byte that the guest reads is one of a frame it has mapped. -/
theorem guestByte_some {x : Nat} {b : UInt8} (h : guestByte s g x = some b) : x < 2 ^ 48 ∧
    ∃ f, frameOf s.mem g (x / pageSize) = some f ∧ s.mem (pageSize * f + x % pageSize) = b := by
  rw [guestByte] at h
  split at h
  · next hx => exact ⟨hx, Option.map_eq_some_iff.mp h⟩
  · cases h

/-- ENOUGH: with noughts around the range and the later pages where the copy runs on,
the call writes the guest's memory as it is meant to. -/
theorem Follows.writes (h : Follows s g pp gpa length) (hwf : WellFormed s g)
    (hgpa : gpa < 2 ^ 48) (hbuf : CallerBuffer s g addr length pa) (hpp : s.phead = some pp)
    (hrun : sysMmapMem (frameVa g) addr length gpa prot s = .ok 0 s') (hns : s'.starved = false)
    (hblank : PageBlank s g gpa length) : WritesExactly s s' g pp gpa length pa := by
  have hcopy : u32 length = length := u32_nat (h.short hwf)
  have hinside : CopyInside s g pp gpa (u32 length) := by
    rw [hcopy]
    exact h.inside
  have hread := sysMmapMem_reads hwf hgpa hbuf hpp hinside hrun hns
  rw [hcopy] at hread
  refine ⟨fun i hi => ?_, fun x b hout hb => ?_, hinside⟩
  · by_cases hpage : (gpa + i) / pageSize = gpa / pageSize
    · have hlt : gpa + i < 2 ^ 48 := by
        unfold pageSize at hpage
        omega
      rw [hread, if_pos hlt, guestAfter_page hpage, if_pos (by omega), Nat.add_sub_cancel_left]
    · obtain ⟨k, hk⟩ : ∃ k, k = (gpa % pageSize + i) / pageSize := ⟨_, rfl⟩
      have hpos : 0 < k := by
        rw [range_page] at hpage
        omega
      obtain ⟨hmem, hf⟩ := h.next k hpos (by
        rw [hk]
        unfold pageSize
        omega)
      have hlt : gpa + i < 2 ^ 48 := by
        have hrange := Finset.mem_range.mp hmem
        rw [hk, ← range_page] at hrange
        unfold pageSize at hrange
        omega
      -- the byte behind the address is the one the copy has come to
      have hplace : pageSize * (pp + k) + (gpa + i) % pageSize =
          pageSize * pp + gpa % pageSize + i := by
        rw [hk]
        unfold pageSize
        omega
      rw [hread, if_pos hlt, guestAfter, if_neg hpage, range_page, ← hk, hf, Option.map_some,
        hplace, leftByte, if_pos (by omega), Nat.add_sub_cancel_left]
  · obtain ⟨hx, f, hf, hval⟩ := guestByte_some hb
    rw [hread, if_pos hx]
    by_cases hpage : x / pageSize = gpa / pageSize
    · rw [guestAfter_page hpage, if_neg (by omega), hblank x b hpage hout hb]
    · rw [guestAfter, if_neg hpage, hf, Option.map_some, leftByte, if_neg, hval]
      -- a byte that the copy stores to is at an address of the range
      rintro ⟨hlow, hhigh⟩
      obtain ⟨k, rfl⟩ : ∃ k, f = pp + k := ⟨f - pp, by unfold pageSize at *; omega⟩
      have hpos : 0 < k := by
        refine Nat.pos_of_ne_zero fun hzero => ?_
        rw [hzero] at hf
        exact hwf.not_free (mem_allPages hx) hf (hwf.tables.head hpp).1
      rcases h.alone k _ hpos (by unfold pageSize at *; omega) (mem_allPages hx) hf with heq | heq
      · exact hpage heq
      · unfold pageSize at *
        omega

/-! ### Whatever the bytes of the buffer are -/

/-- Other bytes in the buffer, and everything else as it is. -/
def Refills (s : Mm) (length : Nat) (pa : Nat → Nat) (m : Mem) : Prop :=
  ∀ x, (∀ i, i < length → x ≠ pa i) → m x = s.mem x

/-- A buffer that any bytes can be put in: its bytes are places of their own, none of
them is in a table of the guest, and it stays mapped while they are stored to as well. -/
structure OwnBuffer (s : Mm) (g addr length : Nat) (pa : Nat → Nat) : Prop
    extends CallerBuffer s g addr length pa where
  apart : ∀ i j, i < length → j < length → pa i = pa j → i = j
  tables : ∀ i, i < length → ¬ IsTable 512 s.mem (dir g) (pa i / pageSize)
  stays : s.Maps (fun x => (s.Free (x / pageSize) ∨ GuestFrame s g (x / pageSize)) ∨
    ∃ i, i < length ∧ x = pa i) addr length pa

/-- Any bytes. -/
theorem OwnBuffer.exists_refill (h : OwnBuffer s g addr length pa) (b : Nat → UInt8) :
    ∃ m, Refills s length pa m ∧ ∀ i, i < length → m (pa i) = b i := by
  classical
  refine ⟨fun x => if hx : ∃ i, i < length ∧ x = pa i then b hx.choose else s.mem x, ?_, ?_⟩
  · intro x hx
    exact dif_neg fun ⟨i, hi, heq⟩ => hx i hi heq
  · intro i hi
    have hx : ∃ j, j < length ∧ pa i = pa j := ⟨i, hi, rfl⟩
    have hchoose := h.apart _ _ hi hx.choose_spec.1 hx.choose_spec.2
    exact (dif_pos hx).trans (congrArg b hchoose.symm)

/-- Other bytes change neither the guest's tree nor what the call takes the buffer for. -/
theorem OwnBuffer.refill {m : Mem} (h : OwnBuffer s g addr length pa) (hwf : WellFormed s g)
    (hm : Refills s length pa m) : WellFormed (s.setMem m) g ∧
      (∀ page, frameOf m g page = frameOf s.mem g page) ∧
      CallerBuffer (s.setMem m) g addr length pa := by
  have htables : ∀ f o, IsTable 512 s.mem (dir g) f → o < pageSize →
      m (pageSize * f + o) = s.mem (pageSize * f + o) := by
    intro f o hf ho
    refine hm _ fun i hi heq => h.tables i hi ?_
    have hdiv : pa i / pageSize = f := by
      rw [← heq]
      unfold pageSize at *
      omega
    rwa [hdiv]
  obtain ⟨hwf', hframe, -⟩ := hwf.setMem htables
  have hguest : ∀ f, GuestFrame (s.setMem m) g f ↔ GuestFrame s g f := by
    intro f
    unfold GuestFrame
    simp only [Mm.setMem_mem, hframe]
  refine ⟨hwf', hframe, fun m' hm' i hi => ?_, fun i hi => ?_⟩
  · refine h.stays m' (fun x hx => ?_) i hi
    rw [hm' x fun hf => hx (.inl (hf.imp_right (hguest _).mp)), Mm.setMem_mem]
    exact hm x fun j hj heq => hx (.inr ⟨j, hj, heq⟩)
  · obtain ⟨hfree, hout⟩ := h.out i hi
    exact ⟨hfree, fun hf => hout ((hguest _).mp hf)⟩

/-- A call for any bytes: the guest reads what the copy leaves. -/
theorem OwnBuffer.run (h : OwnBuffer s g addr length pa) (hwf : WellFormed s g)
    (hgpa : gpa < 2 ^ 48) (hpp : s.phead = some pp) (hen : s.Enough 4) (hst : s.starved = false)
    (hinside : CopyInside s g pp gpa (u32 length)) (prot : Int) (b : Nat → UInt8) :
    ∃ m s', Refills s length pa m ∧ (∀ i, i < length → m (pa i) = b i) ∧
      sysMmapMem (frameVa g) addr length gpa prot (s.setMem m) = .ok 0 s' ∧ s'.starved = false ∧
      ∀ x, guestByte s' g x =
        if x < 2 ^ 48 then guestAfter (s.setMem m) g pp gpa (u32 length) pa x else none := by
  obtain ⟨m, hm, hb⟩ := h.exists_refill b
  obtain ⟨hwf', hframe, hbuf⟩ := h.refill hwf hm
  obtain ⟨l, hl, hlen⟩ := hen
  have hinside' : CopyInside (s.setMem m) g pp gpa (u32 length) := fun i hi =>
    (hinside i hi).imp_right fun ⟨page, hpage, hf⟩ => ⟨page, hpage, (hframe page).trans hf⟩
  have hns := (sysMmapMem_served (s := s.setMem m) (frameVa g) addr length gpa prot
    (hl.congr rfl rfl rfl) hwf.tables.small hlen hst).1
  obtain ⟨s', hrun, -, -, -, -, hbyte⟩ :=
    sysMmapMem_run hwf' hgpa (hbuf.mono (u32_le length)) hpp hinside' hns
  rw [hrun] at hns
  exact ⟨m, s', hm, hb, hrun, hns, hbyte⟩

/-- The call writes the guest's memory as it is meant to whatever the bytes of the
buffer are. -/
def WritesAny (s : Mm) (g addr length gpa pp : Nat) (prot : Int) (pa : Nat → Nat) : Prop :=
  ∀ m s', Refills s length pa m →
    sysMmapMem (frameVa g) addr length gpa prot (s.setMem m) = .ok 0 s' → s'.starved = false →
      WritesExactly (s.setMem m) s' g pp gpa length pa

/-- What a copy of any bytes leaves in a frame of the guest. -/
theorem OwnBuffer.leftByte {m : Mem} {b : Nat → UInt8} {f o n : Nat}
    (h : OwnBuffer s g addr length pa) (hm : Refills s length pa m)
    (hb : ∀ i, i < length → m (pa i) = b i) (hn : n ≤ length) (hf : GuestFrame s g f)
    (ho : o < pageSize) : leftByte (s.setMem m) pp gpa n pa (pageSize * f + o) =
      if pageSize * pp + gpa % pageSize ≤ pageSize * f + o ∧
        pageSize * f + o < pageSize * pp + gpa % pageSize + n then
        b (pageSize * f + o - (pageSize * pp + gpa % pageSize))
      else s.mem (pageSize * f + o) := by
  unfold Kernel.leftByte
  split
  · next hin => exact hb _ (by omega)
  · refine hm _ fun i hi heq => (h.out i hi).2 ?_
    have hdiv : pa i / pageSize = f := by
      rw [← heq]
      unfold pageSize at *
      omega
    rwa [hdiv]

theorem exists_other (b : UInt8) : ∃ c, c ≠ b := by
  by_cases hb : b = 0
  · exact ⟨1, by rw [hb]; decide⟩
  · exact ⟨0, fun h => hb h.symm⟩

namespace WritesAny

variable (h : WritesAny s g addr length gpa pp prot pa) (hbuf : OwnBuffer s g addr length pa)
variable (hwf : WellFormed s g) (hgpa : gpa < 2 ^ 48) (hpp : s.phead = some pp)
variable (hen : s.Enough 4) (hst : s.starved = false)
variable (hinside : CopyInside s g pp gpa (u32 length))

include h hbuf hwf hgpa hpp hen hst hinside

/-- A byte of a later page is where the copy puts it: any other place would have to hold
whatever byte the caller has. -/
theorem placed {i : Nat} (hi : i < length) (hpage : (gpa + i) / pageSize ≠ gpa / pageSize) :
    gpa + i < 2 ^ 48 ∧ ∃ f, frameOf s.mem g ((gpa + i) / pageSize) = some f ∧
      pageSize * f + (gpa + i) % pageSize = pageSize * pp + gpa % pageSize + i ∧
      i < u32 length := by
  have hoff : (gpa + i) % pageSize < pageSize := Nat.mod_lt _ (by decide)
  have hread : ∀ b : Nat → UInt8, gpa + i < 2 ^ 48 ∧
      ∃ f, frameOf s.mem g ((gpa + i) / pageSize) = some f ∧
        (if pageSize * pp + gpa % pageSize ≤ pageSize * f + (gpa + i) % pageSize ∧
          pageSize * f + (gpa + i) % pageSize < pageSize * pp + gpa % pageSize + u32 length then
          b (pageSize * f + (gpa + i) % pageSize - (pageSize * pp + gpa % pageSize))
        else s.mem (pageSize * f + (gpa + i) % pageSize)) = b i := by
    intro b
    obtain ⟨m, s', hm, hb, hrun, hns, hbyte⟩ :=
      hbuf.run hwf hgpa hpp hen hst hinside prot b
    obtain ⟨-, hframe, -⟩ := hbuf.refill hwf hm
    have hcopied := (h m s' hm hrun hns).copied i hi
    rw [hbyte, Mm.setMem_mem, hb i hi] at hcopied
    by_cases hlt : gpa + i < 2 ^ 48
    · rw [if_pos hlt, guestAfter, if_neg hpage, Mm.setMem_mem, hframe] at hcopied
      obtain ⟨f, hf, hval⟩ := Option.map_eq_some_iff.mp hcopied
      rw [hbuf.leftByte hm hb (u32_le length) ⟨_, mem_allPages hlt, hf⟩ hoff] at hval
      exact ⟨hlt, f, hf, hval⟩
    · rw [if_neg hlt] at hcopied
      cases hcopied
  obtain ⟨hlt, f, hf, -⟩ := hread fun _ => 0
  refine ⟨hlt, f, hf, ?_⟩
  obtain ⟨c, hc⟩ := exists_other (s.mem (pageSize * f + (gpa + i) % pageSize))
  -- a byte of its own at `i`, and one that is not in memory everywhere
  obtain ⟨-, f₁, hf₁, hone⟩ := hread fun j => if j = i then 1 else 0
  obtain ⟨-, f₂, hf₂, hall⟩ := hread fun _ => c
  obtain rfl : f = f₁ := Option.some.inj (hf.symm.trans hf₁)
  obtain rfl : f = f₂ := Option.some.inj (hf.symm.trans hf₂)
  split at hone
  · next hin =>
    have hsame : pageSize * f + (gpa + i) % pageSize - (pageSize * pp + gpa % pageSize) = i := by
      by_contra hne
      rw [if_neg hne, if_pos rfl] at hone
      exact absurd hone (by decide)
    exact ⟨by omega, by omega⟩
  · next hout =>
    rw [if_neg hout] at hall
    exact absurd hall.symm hc

/-- The later pages are where the copy runs on. -/
theorem next (k : Nat) (hk : 0 < k) (hlt : pageSize * (gpa / pageSize + k) < gpa + length) :
    gpa / pageSize + k ∈ allPages ∧ frameOf s.mem g (gpa / pageSize + k) = some (pp + k) ∧
      pageSize * (gpa / pageSize + k) - gpa < u32 length := by
  obtain ⟨i, hi⟩ : ∃ i, i = pageSize * (gpa / pageSize + k) - gpa := ⟨_, rfl⟩
  have haddr : gpa + i = pageSize * (gpa / pageSize + k) := by
    unfold pageSize at *
    omega
  have hpage : (gpa + i) / pageSize = gpa / pageSize + k := by
    rw [haddr]
    exact Nat.mul_div_cancel_left _ (by decide)
  obtain ⟨h48, f, hf, hplace, hcopied⟩ :=
    placed h hbuf hwf hgpa hpp hen hst hinside (i := i) (by omega) (by omega)
  have hframe : f = pp + k := by
    rw [haddr] at hplace
    unfold pageSize at *
    omega
  have hmem := mem_allPages h48
  rw [hpage] at hmem hf
  exact ⟨hmem, hframe ▸ hf, hi ▸ hcopied⟩

theorem follows : Follows s g pp gpa length := by
  refine ⟨fun k hk hlt => ?_, fun k page hk hlt hmem hf => ?_⟩
  · obtain ⟨hpage, hf, -⟩ := next h hbuf hwf hgpa hpp hen hst hinside k hk hlt
    exact ⟨hpage, hf⟩
  by_contra hne
  obtain ⟨hne₀, hnek⟩ := not_or.mp hne
  obtain ⟨-, -, hcopied⟩ := next h hbuf hwf hgpa hpp hen hst hinside k hk hlt
  have hx : pageSize * page / pageSize = page := Nat.mul_div_cancel_left _ (by decide)
  have hmod : pageSize * page % pageSize = 0 := Nat.mul_mod_right _ _
  have h48 : pageSize * page < 2 ^ 48 := page_lt hmem
  -- the page is not one of the range: those are at other frames
  have hout : pageSize * page < gpa ∨ gpa + length ≤ pageSize * page := by
    by_contra hin
    obtain ⟨j, rfl⟩ : ∃ j, page = gpa / pageSize + j := ⟨page - gpa / pageSize, by
      unfold pageSize at *
      omega⟩
    obtain ⟨-, hf', -⟩ := next h hbuf hwf hgpa hpp hen hst hinside j (by omega) (by omega)
    have hsame := Option.some.inj (hf.symm.trans hf')
    omega
  obtain ⟨c, hc⟩ := exists_other (s.mem (pageSize * (pp + k)))
  obtain ⟨m, s', hm, hb, hrun, hns, hbyte⟩ :=
    hbuf.run hwf hgpa hpp hen hst hinside prot fun _ => c
  obtain ⟨-, hframe, -⟩ := hbuf.refill hwf hm
  have hbefore : guestByte (s.setMem m) g (pageSize * page) =
      some (s.mem (pageSize * (pp + k))) := by
    rw [guestByte, if_pos h48, hx, hmod, Mm.setMem_mem, hframe, hf, Option.map_some, Nat.add_zero]
    refine congrArg some (hm _ fun i hi heq => (hbuf.out i hi).2 ⟨page, hmem, ?_⟩)
    rw [← heq, Nat.mul_div_cancel_left _ (by decide : 0 < pageSize)]
    exact hf
  have hkept := (h m s' hm hrun hns).kept _ _ hout hbefore
  rw [hbyte, if_pos h48, guestAfter, hx, if_neg hne₀, Mm.setMem_mem, hframe, hf, Option.map_some,
    hmod, hbuf.leftByte hm hb (u32_le length) ⟨page, hmem, hf⟩ (by decide), if_pos ?_] at hkept
  · exact hc (Option.some.inj hkept)
  · unfold pageSize at *
    omega

end WritesAny

/-- The page of the address was blank if the call writes as it is meant to. -/
theorem WritesExactly.blank (h : WritesExactly s s' g pp gpa length pa) (hwf : WellFormed s g)
    (hgpa : gpa < 2 ^ 48) (hbuf : CallerBuffer s g addr length pa) (hpp : s.phead = some pp)
    (hrun : sysMmapMem (frameVa g) addr length gpa prot s = .ok 0 s') (hns : s'.starved = false) :
    PageBlank s g gpa length := by
  intro x b hx hout hb
  have hkept := h.kept x b hout hb
  have hle := u32_le length
  rw [sysMmapMem_reads hwf hgpa hbuf hpp h.inside hrun hns, if_pos (guestByte_some hb).1,
    guestAfter_page hx, if_neg (by omega)] at hkept
  exact (Option.some.inj hkept).symm

/-- MMAP: after a call that returns 0 the guest reads the caller's bytes and otherwise
what it read before, and the copy stayed in its frames, if the page of the address was
not mapped or its other bytes are nought, and the later pages of the range are where the
copy runs on. Without that the call goes wrong for some bytes in the buffer. -/
theorem mmap_mem_exact (hwf : WellFormed s g) (hgpa : gpa < 2 ^ 48)
    (hbuf : CallerBuffer s g addr length pa) (hpp : s.phead = some pp)
    (hrun : sysMmapMem (frameVa g) addr length gpa prot s = .ok 0 s') (hns : s'.starved = false) :
    (PageBlank s g gpa length ∧ Follows s g pp gpa length →
      WritesExactly s s' g pp gpa length pa) ∧
    (OwnBuffer s g addr length pa → s.Enough 4 → WritesAny s g addr length gpa pp prot pa →
      PageBlank s g gpa length ∧ Follows s g pp gpa length) := by
  refine ⟨fun ⟨hblank, hfollows⟩ => hfollows.writes hwf hgpa hbuf hpp hrun hns hblank,
    fun hown hen hany => ?_⟩
  have hwrites : WritesExactly s s' g pp gpa length pa := hany s.mem s' (fun _ _ => rfl) hrun hns
  have hst : s.starved = false := by
    by_contra hst
    have hstarves := sysMmapMem_starves (frameVa g) addr length gpa prot s (by simpa using hst)
    rw [hrun] at hstarves
    exact absurd (hns.symm.trans hstarves) (by decide)
  exact ⟨hwrites.blank hwf hgpa hbuf hpp hrun hns,
    hany.follows hown hwf hgpa hpp hen hst hwrites.inside⟩

end Call

/-! ## A page that is mapped twice -/

section Sample

/-- The frames from 8 on are free, frame 5 is a directory of nought, and frame 2 holds
the bytes to copy. -/
def sampleGuest : Mm := sampleFile.fs.mm.setMem fun x => if x / pageSize = 2 then 5 else 0

theorem sampleGuest_list : FreeList sampleGuest [8, 9, 10, 11, 12, 13, 14, 15] :=
  sampleFile_list.congr rfl rfl rfl

theorem sampleGuest_count (f : Nat) : sampleGuest.count f = if f < 8 then 1 else 0 := by
  show (if f < 8 then _ else _ : Page).count = _
  split <;> rfl

theorem sampleGuest_wellFormed : WellFormed sampleGuest 5 ∧
    (∀ f, IsTable 512 sampleGuest.mem (dir 5) f → f = 5) ∧
    ∀ page, frameOf sampleGuest.mem 5 page = none := by
  refine WellFormed.empty (by decide : 16 ≤ 2 ^ 19) ⟨_, sampleGuest_list⟩
    (fun f => by rw [sampleGuest_count]; split <;> decide) (by decide) fun i hi => ?_
  refine Mem.rd_zero fun x h1 h2 => ?_
  show (if x / pageSize = 2 then _ else _ : UInt8) = 0
  rw [if_neg]
  unfold pageSize at *
  omega

/-- A buffer in frame 2. -/
theorem buffer_two {s : Mm} {g length : Nat} (hlen : length ≤ pageSize) (hfree : ¬ s.Free 2)
    (hguest : ¬ GuestFrame s g 2) :
    CallerBuffer s g (frameVa 2) length fun i => pageSize * 2 + i := by
  refine ⟨fun m _ i hi => Mm.kpa_frameVa (by decide) (by omega), fun i hi => ?_⟩
  have hdiv : (pageSize * 2 + i) / pageSize = 2 := by
    unfold pageSize at *
    omega
  rw [hdiv]
  exact ⟨hfree, hguest⟩

theorem sampleGuest_used : ¬ sampleGuest.Free 2 := fun h => by
  have hcount := h.2
  rw [sampleGuest_count] at hcount
  exact absurd hcount (by decide)

theorem sampleGuest_buffer {length : Nat} (hlen : length ≤ pageSize) :
    CallerBuffer sampleGuest 5 (frameVa 2) length fun i => pageSize * 2 + i := by
  refine buffer_two hlen sampleGuest_used fun ⟨page, _, h⟩ => ?_
  rw [sampleGuest_wellFormed.2.2] at h
  cases h

/-- Two bytes are mapped at the start of the guest's memory. -/
theorem sampleGuest_first : ∃ s₁ l, sysMmapMem (frameVa 5) (frameVa 2) 2 0 7 sampleGuest = .ok 0 s₁ ∧
    WellFormed s₁ 5 ∧ FreeList s₁ l ∧ 4 ≤ l.length ∧ s₁.starved = false ∧
    guestByte s₁ 5 1 = some 5 ∧
    CallerBuffer s₁ 5 (frameVa 2) 1 fun i => pageSize * 2 + i := by
  obtain ⟨hwf, hone, hframe⟩ := sampleGuest_wellFormed
  have hbuf := sampleGuest_buffer (by decide : 2 ≤ pageSize)
  have hspends := sysMmapMem_served (frameVa 5) (frameVa 2) 2 0 7 sampleGuest_list
    (by decide : 16 ≤ 2 ^ 19) (by decide) rfl
  have hfit : FitsPage 0 2 := (by decide : 0 % pageSize + 2 ≤ pageSize)
  obtain ⟨s₁, hrun, hwf₁, hused, hframe₁, -, hbyte⟩ := @sysMmapMem_run _ _ _ _ _ _ 7 _ hwf (by decide) hbuf
    rfl hfit.follows.inside hspends.1
  rw [hrun] at hspends
  obtain ⟨hns, l, hl, hlen⟩ := hspends
  refine ⟨s₁, l, hrun, hwf₁, hl, ?_, hns, ?_, ?_⟩
  · rw [List.length_cons] at hlen
    simp only [List.length_cons, List.length_nil] at hlen
    omega
  · rw [hbyte, if_pos (by decide), guestAfter_page (by decide), if_pos (by decide)]
    rfl
  · refine buffer_two (by decide) (hused 2 sampleGuest_used) fun ⟨page, hpage, h⟩ => ?_
    rw [hframe₁ page hpage, hframe] at h
    split at h
    · exact absurd (Option.some.inj h) (by decide)
    · cases h

/-- The second byte is gone when one byte is mapped there again. -/
theorem mmap_mem_replaces : ¬ ∀ (s s' : Mm) (g addr length gpa pp : Nat) (prot : Int)
    (pa : Nat → Nat), WellFormed s g → gpa < 2 ^ 48 → CallerBuffer s g addr length pa →
    s.phead = some pp → sysMmapMem (frameVa g) addr length gpa prot s = .ok 0 s' →
    s'.starved = false → WritesExactly s s' g pp gpa length pa := by
  intro h
  obtain ⟨s₁, l, -, hwf, hl, hlen, hns, hbyte, hbuf⟩ := sampleGuest_first
  have hspends := sysMmapMem_served (frameVa 5) (frameVa 2) 1 0 7 hl hwf.tables.small hlen hns
  obtain ⟨pp, l', rfl⟩ := List.exists_cons_of_length_pos (Nat.lt_of_lt_of_le (by decide) hlen)
  have hpp : s₁.phead = some pp := hl.chain.of_cons.1
  have hfit : FitsPage 0 1 := (by decide : 0 % pageSize + 1 ≤ pageSize)
  obtain ⟨s₂, hrun, -, -, -, -, hafter⟩ := @sysMmapMem_run _ _ _ _ _ _ 7 _ hwf (by decide) hbuf hpp
    hfit.follows.inside hspends.1
  rw [hrun] at hspends
  have hkept := (h s₁ s₂ 5 (frameVa 2) 1 0 pp 7 _ hwf (by decide) hbuf hpp hrun hspends.1).kept 1 5
    (by decide) hbyte
  rw [hafter, if_pos (by decide), guestAfter_page (by decide), if_neg (by decide)] at hkept
  exact absurd (Option.some.inj hkept) (by decide)

/-- A call of two bytes for a guest without memory. -/
theorem mmap_mem_exact_first : ∃ s', sysMmapMem (frameVa 5) (frameVa 2) 2 0 7 sampleGuest = .ok 0 s' ∧
    WritesExactly sampleGuest s' 5 8 0 2 fun i => pageSize * 2 + i := by
  obtain ⟨hwf, -, hframe⟩ := sampleGuest_wellFormed
  obtain ⟨s₁, l, hrun, -, -, -, hns, -⟩ := sampleGuest_first
  have hfit : FitsPage 0 2 := (by decide : 0 % pageSize + 2 ≤ pageSize)
  have hblank : PageBlank sampleGuest 5 0 2 := by
    intro x b _ _ hb
    obtain ⟨-, f, hf, -⟩ := guestByte_some hb
    rw [hframe] at hf
    cases hf
  exact ⟨s₁, hrun, (mmap_mem_exact hwf (by decide) (sampleGuest_buffer (by decide)) rfl hrun
    hns).1 ⟨hblank, hfit.follows⟩⟩

end Sample

end Myos.Kernel
