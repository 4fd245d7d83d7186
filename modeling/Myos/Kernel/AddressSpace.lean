import Mathlib.Data.Finset.Prod
import Mathlib.Order.Interval.Finset.Nat
import Myos.Lib.Owners
import Myos.Kernel.Proc

/-!
# The address spaces of all processes

`Vm s root kdir held` ties the tables of every address space to the reference
counts. A frame a user page maps is counted once for each page that maps it
(`Owners.refs`), and once more while the code in progress holds a reference
of its own (`held`): a frame fresh from `alloc_page`, or one whose leaf has
just been cleared. So between the steps of the fault handler or of `sys_fork`
the discipline is the same as between system calls, and each step is one
lemma: a leaf is set (`Vm.setLeaf`), a reference let go (`Vm.free`) or taken
(`Vm.share`), a directory planted or dropped.

A leaf that can be written through is the only one of its frame (`single`).
That is all there is to copy on write.

`view` is the memory a process sees: nought where nothing is mapped.
-/

namespace Myos.Kernel

open Myos.Lib

/-- The addresses a process may use. -/
def UserVa (va : Nat) : Prop := utext ≤ va ∧ va < ustacktop

/-- The entries of the page directory the lower half takes. -/
def userTop : Nat := 256

/-- The pages of all processes. -/
def userKeys : Finset (Nat × Nat) :=
  Finset.range maxProc ×ˢ Finset.Ico (utext / pageSize) (ustacktop / pageSize)

/-- The frame a page of a process maps. -/
def userFrame (m : Mem) (root : Nat → Option Nat) (key : Nat × Nat) : Option Nat :=
  target (leaf m root key.1 (pageSize * key.2))

/-- The low bits of an entry but for Accessed and Dirty, which the processor sets. -/
def linkBits : Nat := 0xF9F

/-- An entry of a table: none, or a link made by the walk. -/
def UserEntry (e : Nat) : Prop := e = 0 ∨ e &&& linkBits = 7

theorem userEntry : Linkable UserEntry := by
  refine ⟨fun n => .inr ?_, .inl rfl⟩
  rw [land_low (by decide), tableEntry_eq, Nat.mul_add_mod]
  rfl

/-- One for a frame the code holds a reference to. -/
def hold (held : Finset Nat) (f : Nat) : Nat := if f ∈ held then 1 else 0

/-- The pages that map a frame. -/
def userRefs (m : Mem) (root : Nat → Option Nat) (f : Nat) : Nat :=
  Owners.refs userKeys (userFrame m root) f

/-- A frame that is in use. -/
def Mm.InUse (s : Mm) (f : Nat) : Prop := f < s.npages ∧ s.count f ≠ 0

theorem Mm.InUse.not_free {s : Mm} {f : Nat} (h : s.InUse f) : ¬ s.Free f := fun hf => h.2 hf.2

/-- The address spaces and the counts in step. -/
structure Vm (s : Mm) (root : Nat → Option Nat) (kdir : Nat) (held : Finset Nat) : Prop where
  tables : Tables UserEntry userTop s root
  pids : ∀ {p g}, root p = some g → p < maxProc
  tableCount : ∀ {g}, IsTable userTop s.mem root g → s.count g = 1
  kdirUse : kdir < s.npages ∧ s.count kdir ≠ 0
  kdirTable : ¬ IsTable userTop s.mem root kdir
  kdirLow : ∀ {i}, i < userTop → Mem.entry s.mem kdir i = 0
  data : ∀ {f}, 0 < userRefs s.mem root f + hold held f → f < s.npages ∧
    ¬ IsTable userTop s.mem root f ∧ f ≠ kdir ∧
    s.count f = (userRefs s.mem root f + hold held f : Nat)
  flags : ∀ {p va}, UserVa va → leaf s.mem root p va ≠ 0 →
    leaf s.mem root p va &&& pteP ≠ 0 ∧ leaf s.mem root p va &&& pteU ≠ 0
  single : ∀ {p va f}, UserVa va → target (leaf s.mem root p va) = some f →
    leaf s.mem root p va &&& pteW ≠ 0 → s.count f = 1
  outside : ∀ {p va f}, va < 2 ^ 47 → ¬ UserVa va → target (leaf s.mem root p va) = some f →
    s.InUse f ∧ ¬ IsTable userTop s.mem root f ∧ userRefs s.mem root f + hold held f = 0

/-- The byte a process sees at an address. -/
def view (m : Mem) (root : Nat → Option Nat) (p va : Nat) : UInt8 :=
  match target (leaf m root p va) with
  | some f => m (pageSize * f + va % pageSize)
  | none => 0

section Addresses

variable {m m' : Mem} {root root' : Nat → Option Nat} {p va va' f : Nat}

theorem UserVa.lt (h : UserVa va) : va < 2 ^ 47 := by
  unfold UserVa ustacktop pageSize at h
  omega

theorem pmlIndex_lt_userTop (h : va < 2 ^ 47) : pmlIndex va < userTop := by
  rw [pmlIndex_eq, userTop]
  omega

theorem UserVa.pml (h : UserVa va) : pmlIndex va < userTop := pmlIndex_lt_userTop h.lt

theorem lt_48_of_47 (h : va < 2 ^ 47) : va < 2 ^ 48 := by omega

/-- The whole page of a user address is user addresses. -/
theorem UserVa.page (h : va' / pageSize = va / pageSize) (hva : UserVa va) : UserVa va' := by
  unfold UserVa utext ustacktop pageSize at *
  omega

theorem userVa_of_page (h : UserVa va) : UserVa (va / pageSize * pageSize) :=
  UserVa.page (Nat.mul_div_cancel _ (by decide)) h

/-- The pages up to the next one. -/
theorem lt_next_page {addr : Nat} (hpage : addr % pageSize = 0) (va : Nat) :
    va < addr + pageSize ↔ va < addr ∨ va / pageSize = addr / pageSize := by
  unfold pageSize at *
  omega

theorem next_page_le {addr : Nat} (hpage : addr % pageSize = 0) (h : addr + pageSize ≤ va) :
    addr ≤ va ∧ va / pageSize ≠ addr / pageSize := by
  unfold pageSize at *
  omega

theorem mem_userKeys : (p, va / pageSize) ∈ userKeys ↔ p < maxProc ∧ UserVa va := by
  rw [userKeys, Finset.mem_product, Finset.mem_range, Finset.mem_Ico]
  unfold UserVa utext ustacktop pageSize
  constructor
  · rintro ⟨h1, h2, h3⟩
    exact ⟨h1, by omega, by omega⟩
  · rintro ⟨h1, h2, h3⟩
    exact ⟨h1, by omega, by omega⟩

theorem userKeys_card : userKeys.card < 2 ^ 20 := by
  rw [userKeys, Finset.card_product, Finset.card_range, Nat.card_Ico]
  unfold maxProc utext ustacktop pageSize
  omega

/-- Addresses of one page have one leaf. -/
theorem leaf_page {R : Type*} (m : Mem) (root : R → Option Nat) (r : R)
    (h : va' / pageSize = va / pageSize) : leaf m root r va' = leaf m root r va := by
  obtain ⟨h4, h3, h2, h1⟩ := indices_of_page_eq h
  unfold leaf pathTo
  rw [h4, h3, h2, h1]

theorem userFrame_page (m : Mem) (root : Nat → Option Nat) (p va : Nat) :
    userFrame m root (p, va / pageSize) = target (leaf m root p va) := by
  rw [userFrame, leaf_page m root p (Nat.mul_div_cancel_left (va / pageSize) (by decide))]

/-- A key names the page of an address. -/
theorem key_of_mem {k : Nat × Nat} (hk : k ∈ userKeys) :
    ∃ va, UserVa va ∧ k.1 < maxProc ∧ k.2 = va / pageSize := by
  have hpage : k.2 = pageSize * k.2 / pageSize :=
    (Nat.mul_div_cancel_left k.2 (by decide)).symm
  have hk' : (k.1, pageSize * k.2 / pageSize) ∈ userKeys := hpage ▸ hk
  obtain ⟨hp, hva⟩ := mem_userKeys.mp hk'
  exact ⟨pageSize * k.2, hva, hp, hpage⟩

/-- A frame is counted exactly if some user page maps it. -/
theorem userRefs_pos : 0 < userRefs m root f ↔
    ∃ p va, p < maxProc ∧ UserVa va ∧ target (leaf m root p va) = some f := by
  rw [userRefs, Owners.refs_pos]
  constructor
  · rintro ⟨⟨p, page⟩, hk, hf⟩
    obtain ⟨va, hva, hp, rfl⟩ := key_of_mem hk
    exact ⟨p, va, hp, hva, (userFrame_page m root p va).symm.trans hf⟩
  · rintro ⟨p, va, hp, hva, hf⟩
    exact ⟨(p, va / pageSize), mem_userKeys.mpr ⟨hp, hva⟩, (userFrame_page m root p va).trans hf⟩

/-- The counts depend on the leaves of the user pages. -/
theorem userRefs_congr
    (h : ∀ p va, p < maxProc → UserVa va → leaf m' root' p va = leaf m root p va) :
    userRefs m' root' f = userRefs m root f := by
  refine Owners.refs_congr fun k hk => ?_
  obtain ⟨va, hva, hp, hpage⟩ := key_of_mem hk
  obtain ⟨p, page⟩ := k
  subst hpage
  rw [userFrame_page, userFrame_page, h p va hp hva]

theorem userRefs_lt : userRefs m root f < 2 ^ 20 :=
  Nat.lt_of_le_of_lt Owners.refs_le userKeys_card

theorem view_eq (h : target (leaf m root p va) = some f) :
    view m root p va = m (pageSize * f + va % pageSize) := by
  rw [view, h]

theorem view_none (h : target (leaf m root p va) = none) : view m root p va = 0 := by
  rw [view, h]

end Addresses

section Hold

variable {held : Finset Nat} {f n : Nat}

theorem hold_le (held : Finset Nat) (f : Nat) : hold held f ≤ 1 := by
  unfold hold
  split <;> decide

theorem hold_of_mem (h : f ∈ held) : hold held f = 1 := if_pos h

theorem hold_of_not_mem (h : f ∉ held) : hold held f = 0 := if_neg h

theorem hold_insert (h : n ∉ held) :
    hold (insert n held) f = hold held f + if n = f then 1 else 0 := by
  unfold hold
  by_cases hf : n = f
  · subst hf
    rw [if_pos (Finset.mem_insert_self n held), if_neg h, if_pos rfl]
  · rw [if_neg hf, Nat.add_zero]
    simp only [Finset.mem_insert, Ne.symm hf, false_or]

theorem hold_erase (h : n ∈ held) :
    hold (held.erase n) f + (if n = f then 1 else 0) = hold held f := by
  unfold hold
  by_cases hf : n = f
  · subst hf
    rw [if_neg (Finset.notMem_erase n held), if_pos rfl, if_pos h]
  · rw [if_neg hf, Nat.add_zero]
    simp only [Finset.mem_erase, Ne.symm hf, ne_eq, not_false_eq_true, true_and]

end Hold

namespace Vm

variable {s s' : Mm} {root : Nat → Option Nat} {kdir : Nat} {held : Finset Nat}
variable {p p' va va' f g n : Nat}

/-- A process with a page mapped has a directory. -/
theorem root_of_target (hf : target (leaf s.mem root p va) = some f) : ∃ g, root p = some g := by
  have hne : leaf s.mem root p va ≠ 0 := fun h => by rw [h, target_zero] at hf; cases hf
  obtain ⟨h, hh⟩ := tableAt_of_leaf hne
  cases hr : root p with
  | none =>
    rw [tableAt, Radix.node, hr] at hh
    cases hh
  | some g => exact ⟨g, rfl⟩

/-- A frame a user page maps is in use, and is counted. -/
theorem refs_pos (h : Vm s root kdir held) (hva : UserVa va)
    (hf : target (leaf s.mem root p va) = some f) : 0 < userRefs s.mem root f := by
  obtain ⟨g, hg⟩ := root_of_target hf
  exact userRefs_pos.mpr ⟨p, va, h.pids hg, hva, hf⟩

/-- What a mapped frame is. -/
theorem mapped (h : Vm s root kdir held) (hva : UserVa va)
    (hf : target (leaf s.mem root p va) = some f) : f < s.npages ∧
      ¬ IsTable userTop s.mem root f ∧ f ≠ kdir ∧
      s.count f = (userRefs s.mem root f + hold held f : Nat) :=
  h.data (Nat.add_pos_left (h.refs_pos hva hf) _)

theorem mapped_not_free (h : Vm s root kdir held) (hva : UserVa va)
    (hf : target (leaf s.mem root p va) = some f) : ¬ s.Free f := by
  rintro ⟨-, hz⟩
  have hpos := h.refs_pos hva hf
  have hc := (h.mapped hva hf).2.2.2
  omega

/-- What a frame is that the code holds a reference to. -/
theorem held_frame (h : Vm s root kdir held) (hn : n ∈ held) : n < s.npages ∧
    ¬ IsTable userTop s.mem root n ∧ n ≠ kdir ∧
    s.count n = (userRefs s.mem root n + 1 : Nat) := by
  have hpos : 0 < userRefs s.mem root n + hold held n := by
    rw [hold_of_mem hn]
    exact Nat.succ_pos _
  have := h.data hpos
  rwa [hold_of_mem hn] at this

theorem held_not_free (h : Vm s root kdir held) (hn : n ∈ held) : ¬ s.Free n := by
  rintro ⟨-, hz⟩
  have hc := (h.held_frame hn).2.2.2
  omega

theorem kdir_not_free (h : Vm s root kdir held) : ¬ s.Free kdir := fun hf => h.kdirUse.2 hf.2

theorem frame_lt (h : Vm s root kdir held) (hf : f < s.npages) : f < 2 ^ 19 :=
  Nat.lt_of_lt_of_le hf h.tables.small

/-- A count is far from the end of an `int`. -/
theorem count_lt (h : Vm s root kdir held) (hpos : 0 < userRefs s.mem root f + hold held f) :
    1 ≤ s.count f ∧ s.count f < 2 ^ 31 := by
  have hc := (h.data hpos).2.2.2
  have hr : userRefs s.mem root f < 2 ^ 20 := userRefs_lt
  have hh := hold_le held f
  omega

/-! ### Tables are created -/

/-- GROW: creating tables keeps the address spaces. -/
theorem grown (h : Vm s root kdir held) (ht : Tables UserEntry userTop s' root)
    (hg : Grown userTop root s s') : Vm s' root kdir held := by
  have hrefs : ∀ f, userRefs s'.mem root f = userRefs s.mem root f := fun f =>
    userRefs_congr fun p va _ hva => hg.leaf hva.pml
  refine ⟨ht, h.pids, fun {g} hgt => ?_, ?_, ?_, fun {i} hi => ?_, fun {f} hpos => ?_,
    fun {p va} hva => ?_, fun {p va f} hva hf hw => ?_, fun {p va f} hva hu hf => ?_⟩
  · rcases hg.fresh hgt with hold | hfree
    · rw [hg.count (h.tables.not_free hold)]
      exact h.tableCount hold
    · exact (hg.taken hfree).resolve_left (ht.inUse hgt).2
  · rw [hg.npages, hg.count h.kdir_not_free]
    exact h.kdirUse
  · exact hg.not_table h.kdir_not_free h.kdirTable
  · rw [← h.kdirLow hi]
    exact Mem.entry_congr (Nat.lt_trans hi (by decide)) fun o ho =>
      hg.bytes h.kdir_not_free h.kdirTable ho
  · rw [hrefs] at hpos ⊢
    obtain ⟨hlt, hdata, hk, hc⟩ := h.data hpos
    have hfree : ¬ s.Free f := fun hf => by
      have := (h.count_lt hpos).1
      rw [hf.2] at this
      omega
    rw [hg.npages, hg.count hfree]
    exact ⟨hlt, hg.not_table hfree hdata, hk, hc⟩
  · rw [hg.leaf hva.pml]
    exact h.flags hva
  · rw [hg.leaf hva.pml] at hf hw
    rw [hg.count (h.mapped_not_free hva hf)]
    exact h.single hva hf hw
  · rw [hg.leaf (pmlIndex_lt_userTop hva)] at hf
    obtain ⟨huse, hdata, hz⟩ := h.outside hva hu hf
    rw [hrefs, Mm.InUse, hg.npages, hg.count huse.not_free]
    exact ⟨huse, hg.not_table huse.not_free hdata, hz⟩

/-- Creating tables leaves what the processes see. -/
theorem view_grown (h : Vm s root kdir held) (hg : Grown userTop root s s') (hva : UserVa va) :
    view s'.mem root p va = view s.mem root p va := by
  unfold view
  rw [hg.leaf hva.pml]
  cases hf : target (leaf s.mem root p va) with
  | none => rfl
  | some f =>
    exact hg.bytes (h.mapped_not_free hva hf) (h.mapped hva hf).2.1 (Nat.mod_lt _ (by decide))

/-! ### A leaf is set -/

/-- The pages of a frame after a leaf was set. -/
theorem refs_setLeaf (h : Vm s root kdir held) (hva : UserVa va) {v t : Nat}
    (ht : tableAt s.mem root p (pathTo va) = some t) (hv : v < 2 ^ 64) (f : Nat) :
    userRefs (s.setLeaf t va v).mem root f +
        (if target (leaf s.mem root p va) = some f then 1 else 0) =
      userRefs s.mem root f + if target v = some f then 1 else 0 := by
  have hp : p < maxProc := by
    cases hr : root p with
    | none => rw [tableAt, Radix.node, hr] at ht; cases ht
    | some g => exact h.pids hr
  have hnew : userFrame (s.setLeaf t va v).mem root (p, va / pageSize) = target v := by
    rw [userFrame_page, h.tables.leaf_setLeaf_same hva.pml ht hv rfl]
  have hupd := Owners.refs_update _ (userFrame s.mem root) f
    (mem_userKeys.mpr ⟨hp, hva⟩) hnew fun k hk hne => by
      obtain ⟨va', hva', -, hpage⟩ := key_of_mem hk
      obtain ⟨q, page⟩ := k
      subst hpage
      rw [userFrame_page, userFrame_page, h.tables.leaf_setLeaf_other hva.pml
        (lt_48_of_47 hva.lt) ht v hva'.pml (lt_48_of_47 hva'.lt)]
      rintro ⟨rfl, hsame⟩
      exact hne (by rw [hsame])
  rwa [userFrame_page] at hupd

/-- SET: a leaf changes, and what it mapped and maps from now on is made up
for by the references the code holds. -/
theorem setLeaf (h : Vm s root kdir held) (hva : UserVa va) {v t : Nat} {held' : Finset Nat}
    (ht : tableAt s.mem root p (pathTo va) = some t) (hv : v < 2 ^ 64)
    (hflags : v ≠ 0 → v &&& pteP ≠ 0 ∧ v &&& pteU ≠ 0)
    (hheld : ∀ f, hold held' f + (if target v = some f then 1 else 0) =
      hold held f + if target (leaf s.mem root p va) = some f then 1 else 0)
    (hw : ∀ f, target v = some f → v &&& pteW ≠ 0 → s.count f = 1) :
    Vm (s.setLeaf t va v) root kdir held' := by
  have hsum : ∀ f, userRefs (s.setLeaf t va v).mem root f + hold held' f =
      userRefs s.mem root f + hold held f := fun f => by
    have h1 := h.refs_setLeaf hva ht hv f
    have h2 := hheld f
    omega
  have htable := isTable_congr fun hq => h.tables.setLeaf_tableAt hva.pml ht v hq
  have hother := fun {p' va' : Nat} (hva' : va' < 2 ^ 47)
      (hne : ¬ (p' = p ∧ va' / pageSize = va / pageSize)) =>
    h.tables.leaf_setLeaf_other hva.pml (lt_48_of_47 hva.lt) ht v (pmlIndex_lt_userTop hva')
      (lt_48_of_47 hva') hne
  have hsame := fun {va' : Nat} (hpage : va' / pageSize = va / pageSize) =>
    h.tables.leaf_setLeaf_same hva.pml ht hv hpage
  have htt : IsTable userTop s.mem root t := ⟨p, _, tablePath_pathTo hva.pml, ht⟩
  refine ⟨h.tables.setLeaf hva.pml ht v, h.pids, fun {g} hgt => ?_, h.kdirUse, ?_,
    fun {i} hi => ?_, fun {f} hpos => ?_, fun {p' va'} hva' => ?_, fun {p' va' f} hva' hf hw' => ?_,
    fun {p' va' f} hva' hu hf => ?_⟩
  · exact h.tableCount ((htable g).mp hgt)
  · exact fun hk => h.kdirTable ((htable kdir).mp hk)
  · have hkt : kdir ≠ t := fun hk => h.kdirTable (hk ▸ htt)
    rw [setLeaf_entry (Nat.lt_trans hi (by decide)), if_neg fun hk => hkt hk.1]
    exact h.kdirLow hi
  · rw [hsum] at hpos ⊢
    obtain ⟨hlt, hdata, hk, hc⟩ := h.data hpos
    exact ⟨hlt, fun hf => hdata ((htable f).mp hf), hk, hc⟩
  · by_cases hk : p' = p ∧ va' / pageSize = va / pageSize
    · rw [hk.1, hsame hk.2]
      exact hflags
    · rw [hother hva'.lt hk]
      exact h.flags hva'
  · show s.count f = 1
    by_cases hk : p' = p ∧ va' / pageSize = va / pageSize
    · rw [hk.1, hsame hk.2] at hf hw'
      exact hw f hf hw'
    · rw [hother hva'.lt hk] at hf hw'
      exact h.single hva' hf hw'
  · have hk : ¬ (p' = p ∧ va' / pageSize = va / pageSize) := fun hk =>
      hu (UserVa.page hk.2 hva)
    rw [hother hva' hk] at hf
    obtain ⟨huse, hdata, hz⟩ := h.outside hva' hu hf
    rw [hsum]
    exact ⟨huse, fun hf => hdata ((htable f).mp hf), hz⟩

/-- What the processes see after a leaf was set: the page of the leaf shows the
frame it maps now, every other page what it did. -/
theorem view_setLeaf (h : Vm s root kdir held) (hva : UserVa va) {v t : Nat}
    (ht : tableAt s.mem root p (pathTo va) = some t) (hv : v < 2 ^ 64)
    (hdata : ∀ f, target v = some f → ¬ IsTable userTop s.mem root f) (hva' : UserVa va') :
    view (s.setLeaf t va v).mem root p' va' =
      if p' = p ∧ va' / pageSize = va / pageSize then
        match target v with
        | some f => s.mem (pageSize * f + va' % pageSize)
        | none => 0
      else view s.mem root p' va' := by
  have hmod : va' % pageSize < pageSize := Nat.mod_lt _ (by decide)
  have htt : IsTable userTop s.mem root t := ⟨p, _, tablePath_pathTo hva.pml, ht⟩
  by_cases hk : p' = p ∧ va' / pageSize = va / pageSize
  · rw [if_pos hk, view, hk.1, h.tables.leaf_setLeaf_same hva.pml ht hv hk.2]
    cases hf : target v with
    | none => rfl
    | some f =>
      have hne : f ≠ t := fun hft => hdata f hf (hft ▸ htt)
      exact setLeaf_bytes hmod hne
  · rw [if_neg hk, view, view, h.tables.leaf_setLeaf_other hva.pml (lt_48_of_47 hva.lt) ht v
      hva'.pml (lt_48_of_47 hva'.lt) hk]
    cases hf : target (leaf s.mem root p' va') with
    | none => rfl
    | some f =>
      have hne : f ≠ t := fun hft => (h.mapped hva' hf).2.1 (hft ▸ htt)
      exact setLeaf_bytes hmod hne

/-! ### References are taken and let go -/

/-- HOLD: a frame in use that nothing maps, with one reference, may be the code's. -/
theorem holding (h : Vm s root kdir held) (hn : n < s.npages)
    (hnt : ¬ IsTable userTop s.mem root n) (hk : n ≠ kdir) (hc : s.count n = 1)
    (hr : userRefs s.mem root n = 0) (hh : n ∉ held)
    (hout : ∀ p va, va < 2 ^ 47 → ¬ UserVa va → target (leaf s.mem root p va) ≠ some n) :
    Vm s root kdir (insert n held) := by
  refine ⟨h.tables, h.pids, h.tableCount, h.kdirUse, h.kdirTable, h.kdirLow, fun {f} hpos => ?_,
    h.flags, h.single, fun {p va f} hva hu hf => ?_⟩
  · rw [hold_insert hh] at hpos ⊢
    by_cases hf : n = f
    · subst hf
      rw [if_pos rfl, hold_of_not_mem hh, hr]
      exact ⟨hn, hnt, hk, hc⟩
    · rw [if_neg hf] at hpos ⊢
      exact h.data hpos
  · have hne : n ≠ f := fun hnf => hout p va hva hu (hnf ▸ hf)
    rw [hold_insert hh, if_neg hne]
    exact h.outside hva hu hf

/-- HOLD: the same for several frames. -/
theorem holding_all (h : Vm s root kdir ∅) (frames : Finset Nat)
    (hall : ∀ n ∈ frames, n < s.npages ∧ ¬ IsTable userTop s.mem root n ∧ n ≠ kdir ∧
      s.count n = 1 ∧ userRefs s.mem root n = 0 ∧
      ∀ p va, va < 2 ^ 47 → ¬ UserVa va → target (leaf s.mem root p va) ≠ some n) :
    Vm s root kdir frames := by
  induction frames using Finset.induction_on with
  | empty => exact h
  | insert n frames hn ih =>
    obtain ⟨hlt, hnt, hk, hc, hr, hout⟩ := hall n (Finset.mem_insert_self n frames)
    exact (ih fun k hk => hall k (Finset.mem_insert_of_mem hk)).holding hlt hnt hk hc hr hn hout

/-- LEAK: references to frames that nothing maps may be forgotten. -/
theorem forget (h : Vm s root kdir held) (hr : ∀ n ∈ held, userRefs s.mem root n = 0) :
    Vm s root kdir ∅ := by
  have hnone : ∀ {f}, hold ∅ f = 0 := hold_of_not_mem (Finset.notMem_empty _)
  refine ⟨h.tables, h.pids, h.tableCount, h.kdirUse, h.kdirTable, h.kdirLow, fun {f} hpos => ?_,
    h.flags, h.single, fun {p va f} hva hu hf => ?_⟩
  · rw [hnone, Nat.add_zero] at hpos ⊢
    have hf : f ∉ held := fun hf => by
      rw [hr f hf] at hpos
      exact Nat.lt_irrefl 0 hpos
    have := h.data (Nat.add_pos_left hpos (hold held f))
    rwa [hold_of_not_mem hf, Nat.add_zero] at this
  · obtain ⟨h1, h2, h3⟩ := h.outside hva hu hf
    rw [hnone]
    exact ⟨h1, h2, Nat.eq_zero_of_add_eq_zero_right h3⟩

/-- TAKE: a zeroed frame from the free list is the code's. -/
theorem taken (h : Vm s root kdir held) (hn : s.phead = some n) :
    Vm (s.taken pgzero n) root kdir (insert n held) ∧ Grown userTop root s (s.taken pgzero n) ∧
      n ∉ held ∧ userRefs (s.taken pgzero n).mem root n = 0 ∧ s.Free n ∧
      ∀ o, o < pageSize → (s.taken pgzero n).mem (pageSize * n + o) = 0 := by
  obtain ⟨hfree, -⟩ := h.tables.head hn
  obtain ⟨ht, hg, hc, hnt⟩ := h.tables.taken hn
  have hv := h.grown ht hg
  have hnh : n ∉ held := fun hm => h.held_not_free hm hfree
  have hr : userRefs (s.taken pgzero n).mem root n = 0 := by
    rw [userRefs_congr fun p va _ hva => hg.leaf (r := p) (UserVa.pml hva)]
    by_contra hne
    obtain ⟨p, va, -, hva, hf⟩ := userRefs_pos.mp (Nat.pos_of_ne_zero hne)
    exact h.mapped_not_free hva hf hfree
  refine ⟨hv.holding (by rw [hg.npages]; exact hfree.1) hnt ?_ hc hr hnh ?_, hg, hnh, hr, hfree,
    fun o ho => ?_⟩
  · rintro rfl
    exact h.kdir_not_free hfree
  · intro p va hva hu hf
    rw [hg.leaf (pmlIndex_lt_userTop hva)] at hf
    exact (h.outside hva hu hf).1.not_free hfree
  · rw [Mm.taken_mem_zeroed]
    exact Mem.overlay_in (by omega)

/-- FREE: the code lets a reference go. -/
theorem free (h : Vm s root kdir held) (hn : n ∈ held) :
    Vm (s.freed n) root kdir (held.erase n) := by
  obtain ⟨hlt, hnt, hk, hc⟩ := h.held_frame hn
  have hbound := h.count_lt (f := n) (by rw [hold_of_mem hn]; exact Nat.succ_pos _)
  have hcount := Mm.freed_count hbound.1 hbound.2
  refine ⟨h.tables.freed hlt hnt hbound.1 hbound.2, h.pids, fun {g} hg => ?_, ?_, ?_,
    fun {i} hi => ?_, fun {f} hpos => ?_, fun {p va} hva => ?_, fun {p va f} hva hf hw => ?_,
    fun {p va f} hva hu hf => ?_⟩
  · rw [Mm.freed_mem] at hg
    rw [hcount, if_neg fun hgn : g = n => hnt (hgn ▸ hg)]
    exact h.tableCount hg
  · rw [Mm.freed_npages, hcount, if_neg fun hkn => hk hkn.symm]
    exact h.kdirUse
  · rw [Mm.freed_mem]
    exact h.kdirTable
  · rw [Mm.freed_mem]
    exact h.kdirLow hi
  · rw [Mm.freed_mem] at hpos ⊢
    rw [Mm.freed_npages, hcount]
    have herase := hold_erase (f := f) hn
    have hpos' : 0 < userRefs s.mem root f + hold held f := by omega
    obtain ⟨hlt', hnt', hk', hc'⟩ := h.data hpos'
    refine ⟨hlt', hnt', hk', ?_⟩
    by_cases hf : f = n
    · subst hf
      rw [if_pos rfl] at herase ⊢
      omega
    · rw [if_neg hf, hc']
      rw [if_neg (Ne.symm hf)] at herase
      omega
  · rw [Mm.freed_mem]
    exact h.flags hva
  · rw [Mm.freed_mem] at hf hw
    have h1 := h.single hva hf hw
    have hpos := h.refs_pos hva hf
    rw [hcount, if_neg]
    · exact h1
    · rintro rfl
      omega
  · rw [Mm.freed_mem] at hf ⊢
    obtain ⟨huse, hdata, hz⟩ := h.outside hva hu hf
    have herase := hold_erase (f := f) hn
    have hfn : f ≠ n := by
      rintro rfl
      rw [hold_of_mem hn] at hz
      omega
    refine ⟨?_, hdata, by omega⟩
    rw [Mm.InUse, Mm.freed_npages, hcount, if_neg hfn]
    exact huse

/-- SHARE: the code takes a reference to a frame no page can be written through. -/
theorem share (h : Vm s root kdir held) (hn : n ∉ held) (hr : 0 < userRefs s.mem root n)
    (hro : ∀ p va, UserVa va → target (leaf s.mem root p va) = some n →
      ¬ (leaf s.mem root p va &&& pteW ≠ 0)) :
    Vm (s.setCount n (int32 (s.count n + 1))) root kdir (insert n held) := by
  have hpos : 0 < userRefs s.mem root n + hold held n := Nat.add_pos_left hr _
  obtain ⟨hlt, hnt, hk, hc⟩ := h.data hpos
  obtain ⟨h1, h2⟩ := h.count_lt hpos
  have hsmall : userRefs s.mem root n < 2 ^ 20 := userRefs_lt
  have hval : int32 (s.count n + 1) = s.count n + 1 := by
    have := hold_le held n
    exact int32_of_bounds (by omega) (by omega)
  have hcount : ∀ f, (s.setCount n (int32 (s.count n + 1))).count f =
      if f = n then s.count n + 1 else s.count f := fun f => by rw [Mm.setCount_count, hval]
  obtain ⟨l, hl⟩ := h.tables.list
  have htables : Tables UserEntry userTop (s.setCount n (int32 (s.count n + 1))) root := by
    refine h.tables.congr rfl ⟨l, hl.setCount (by omega) (by omega)⟩ (fun {g} hg => ?_)
      fun _ _ => rfl
    rw [hcount, if_neg fun hgn : g = n => hnt (hgn ▸ hg)]
    exact (h.tables.inUse hg).2
  refine ⟨htables, h.pids, fun {g} hg => ?_, ?_, h.kdirTable, h.kdirLow, fun {f} hpos' => ?_,
    h.flags, fun {p va f} hva hf hw => ?_, fun {p va f} hva hu hf => ?_⟩
  · rw [hcount, if_neg fun hgn : g = n => hnt (hgn ▸ hg)]
    exact h.tableCount hg
  · rw [hcount, if_neg fun hkn => hk hkn.symm]
    exact h.kdirUse
  · rw [Mm.setCount_mem, hold_insert hn] at hpos' ⊢
    rw [hcount]
    by_cases hf : f = n
    · subst hf
      rw [if_pos rfl, if_pos rfl]
      exact ⟨hlt, hnt, hk, by omega⟩
    · rw [if_neg (Ne.symm hf)] at hpos' ⊢
      rw [if_neg hf]
      exact h.data hpos'
  · rw [hcount, if_neg]
    · exact h.single hva hf hw
    · rintro rfl
      exact hro p va hva hf hw
  · obtain ⟨huse, hdata, hz⟩ := h.outside hva hu hf
    have hfn : f ≠ n := by
      rintro rfl
      have : 0 < userRefs s.mem root f := hr
      omega
    rw [Mm.setCount_mem, hold_insert hn, if_neg (Ne.symm hfn), Mm.InUse, hcount, if_neg hfn]
    exact ⟨huse, hdata, hz⟩

/-- The address spaces do not depend on which of them the processor uses. -/
theorem setCr3 (h : Vm s root kdir held) (cr3 : Nat) : Vm { s with cr3 := cr3 } root kdir held := by
  obtain ⟨l, hl⟩ := h.tables.list
  exact ⟨h.tables.congr rfl ⟨l, hl.congr rfl rfl rfl⟩ (fun hg => (h.tables.inUse hg).2)
    (fun _ _ => rfl), h.pids, h.tableCount, h.kdirUse, h.kdirTable, h.kdirLow, h.data, h.flags,
    h.single, h.outside⟩

/-! ### Bytes of a frame change -/

/-- The leaves depend on the entries of the tables. -/
theorem leaf_congr {m : Mem} (hm : ∀ {g i}, IsTable userTop s.mem root g → i < 512 →
      Mem.entry m g i = Mem.entry s.mem g i) (hva : va < 2 ^ 47) :
    leaf m root p va = leaf s.mem root p va := by
  have hpath := tablePath_pathTo (pmlIndex_lt_userTop hva)
  unfold leaf
  rw [tableAt_congr (m := s.mem) (fun hpi hg => hm ⟨_, _, hpi.init, hg⟩ hpi.last) hpath]
  cases hg : tableAt s.mem root p (pathTo va) with
  | none => rfl
  | some g => exact hm ⟨p, _, hpath, hg⟩ (pteIndex_lt va)

/-- CONGR: the address spaces stay in step with the counts as long as the tables,
the kernel's directory and the counts of the frames in use stay. -/
theorem congr (h : Vm s root kdir held) (hn : s'.npages = s.npages) (hl : ∃ l, FreeList s' l)
    (hc : ∀ {f}, s.count f ≠ 0 → s'.count f = s.count f)
    (hm : ∀ {g i}, IsTable userTop s.mem root g ∨ g = kdir → i < 512 →
      Mem.entry s'.mem g i = Mem.entry s.mem g i) : Vm s' root kdir held := by
  have hinner : ∀ {r p i g}, TablePath userTop (p ++ [i]) → tableAt s.mem root r p = some g →
      Mem.entry s'.mem g i = Mem.entry s.mem g i := fun hpi hg =>
    hm (.inl ⟨_, _, hpi.init, hg⟩) hpi.last
  have htable : ∀ g, IsTable userTop s'.mem root g ↔ IsTable userTop s.mem root g :=
    isTable_congr fun hp => tableAt_congr hinner hp
  have hleaf : ∀ {p va : Nat}, va < 2 ^ 47 → leaf s'.mem root p va = leaf s.mem root p va :=
    fun hva => leaf_congr (fun hg => hm (.inl hg)) hva
  have hrefs : ∀ f, userRefs s'.mem root f = userRefs s.mem root f := fun f =>
    userRefs_congr fun p va _ hva => hleaf hva.lt
  refine ⟨h.tables.congr hn hl (fun hg => ?_) hinner, h.pids, fun {g} hg => ?_, ?_,
    fun hkt => h.kdirTable ((htable kdir).mp hkt), fun {i} hi => ?_, fun {f} hpos => ?_,
    fun {p va} hva => ?_, fun {p va f} hva hf hw => ?_, fun {p va f} hva hu hf => ?_⟩
  · have huse := (h.tables.inUse hg).2
    rw [hc huse]
    exact huse
  · have hg' := (htable g).mp hg
    rw [hc (h.tables.inUse hg').2]
    exact h.tableCount hg'
  · rw [hn, hc h.kdirUse.2]
    exact h.kdirUse
  · rw [hm (.inr rfl) (Nat.lt_trans hi (by decide))]
    exact h.kdirLow hi
  · rw [hrefs] at hpos ⊢
    obtain ⟨h1, h2, h3, h4⟩ := h.data hpos
    rw [hn, hc (by omega)]
    exact ⟨h1, fun hf => h2 ((htable f).mp hf), h3, h4⟩
  · rw [hleaf hva.lt]
    exact h.flags hva
  · rw [hleaf hva.lt] at hf hw
    have hone := h.single hva hf hw
    rw [hc (by omega)]
    exact hone
  · rw [hleaf hva] at hf
    obtain ⟨h1, h2, h3⟩ := h.outside hva hu hf
    rw [hrefs, Mm.InUse, hn, hc h1.2]
    exact ⟨h1, fun hf => h2 ((htable f).mp hf), h3⟩

/-- Bytes that change in a frame that is no table change no leaf. -/
theorem leaf_bytes {m : Mem} (hn : ¬ IsTable userTop s.mem root n)
    (hm : ∀ f o, f ≠ n → o < pageSize → m (pageSize * f + o) = s.mem (pageSize * f + o))
    (hva : va < 2 ^ 47) : leaf m root p va = leaf s.mem root p va :=
  leaf_congr (fun hg hi => Mem.entry_congr hi fun o ho =>
    hm _ o (fun hgn : _ = n => hn (hgn ▸ hg)) ho) hva

/-- STORE: bytes change in a frame that is neither a table nor the kernel's directory. -/
theorem bytes (h : Vm s root kdir held) {m : Mem} (hn : ¬ IsTable userTop s.mem root n)
    (hk : n ≠ kdir)
    (hm : ∀ f o, f ≠ n → o < pageSize → m (pageSize * f + o) = s.mem (pageSize * f + o)) :
    Vm (s.setMem m) root kdir held := by
  obtain ⟨l, hl⟩ := h.tables.list
  refine h.congr rfl ⟨l, hl.congr rfl rfl rfl⟩ (fun _ => rfl) fun {g i} hg hi => ?_
  have hgn : g ≠ n := by
    rintro rfl
    rcases hg with hg | hg
    · exact hn hg
    · exact hk hg
  exact Mem.entry_congr hi fun o ho => hm g o hgn ho

/-- What the processes see when bytes of one frame change. -/
theorem view_bytes {m : Mem} (hn : ¬ IsTable userTop s.mem root n)
    (hm : ∀ f o, f ≠ n → o < pageSize → m (pageSize * f + o) = s.mem (pageSize * f + o))
    (hva : UserVa va) : view m root p va =
      if target (leaf s.mem root p va) = some n then m (pageSize * n + va % pageSize)
      else view s.mem root p va := by
  unfold view
  rw [leaf_bytes hn hm hva.lt]
  cases hf : target (leaf s.mem root p va) with
  | none => rfl
  | some f =>
    by_cases hfn : f = n
    · subst hfn
      rw [if_pos rfl]
    · rw [if_neg fun h => hfn (Option.some.inj h)]
      exact hm f _ hfn (Nat.mod_lt _ (by decide))

/-! ### Directories are planted and dropped -/

/-- The memory of a kernel that has no process yet: a frame is held, and nothing is
mapped. -/
theorem unrooted {l : List Nat} (hn : s.npages ≤ 2 ^ 19) (hl : FreeList s l)
    (hkdir : kdir < s.npages ∧ s.count kdir ≠ 0)
    (hlow : ∀ {i}, i < userTop → Mem.entry s.mem kdir i = 0) (hlt : n < s.npages)
    (hone : s.count n = 1) (hne : n ≠ kdir) :
    Vm s (fun _ => none) kdir {n} ∧ (∀ f, ¬ IsTable userTop s.mem (fun _ : Nat => none) f) ∧
      ∀ (p va : Nat), leaf s.mem (fun _ => none) p va = 0 := by
  have hno : ∀ (r : Nat) path, tableAt s.mem (fun _ => none) r path = none := fun _ _ => rfl
  have htable : ∀ f, ¬ IsTable userTop s.mem (fun _ : Nat => none) f := by
    rintro f ⟨r, path, -, hg⟩
    rw [hno] at hg
    cases hg
  have hleaf : ∀ (p va : Nat), leaf s.mem (fun _ => none) p va = 0 := fun _ _ => rfl
  have hrefs : ∀ f, userRefs s.mem (fun _ => none) f = 0 := fun f => by
    by_contra hne
    obtain ⟨p, va, -, -, hf⟩ := userRefs_pos.mp (Nat.pos_of_ne_zero hne)
    rw [hleaf, target_zero] at hf
    cases hf
  refine ⟨⟨⟨hn, ⟨l, hl⟩, fun hp hp' hg => ?_, fun hg => (htable _ hg).elim, fun hp hg => ?_⟩,
    fun hg => ?_, fun hg => (htable _ hg).elim, hkdir, htable kdir, hlow, fun {f} hpos => ?_,
    fun _ hne => (hne (hleaf _ _)).elim, fun _ hf => ?_, fun _ _ hf => ?_⟩, htable, hleaf⟩
  · rw [show Radix.node target (Mem.entry s.mem) _ _ _ = _ from hno _ _] at hg
    cases hg
  · cases hg
  · cases hg
  · rw [hrefs, Nat.zero_add, hold] at hpos ⊢
    by_cases hf : f ∈ ({n} : Finset Nat)
    · rw [if_pos hf, Finset.mem_singleton.mp hf]
      exact ⟨hlt, htable n, hne, hone⟩
    · rw [if_neg hf] at hpos
      exact absurd hpos (Nat.lt_irrefl 0)
  · rw [hleaf, target_zero] at hf
    cases hf
  · rw [hleaf, target_zero] at hf
    cases hf

/-- The tables after an empty directory was planted. -/
theorem tableAt_plant {q : Nat} (hempty : ∀ {i}, i < userTop → Mem.entry s.mem n i = 0)
    {q' : Nat} {path : List Nat} (hp : TablePath userTop path) :
    tableAt s.mem (Function.update root q (some n)) q' path =
      if q' = q then (if path = [] then some n else none) else tableAt s.mem root q' path :=
  Radix.node_plant TablePath.init (fun i hi => by
    rw [hempty (hi.2.2 i rfl)]
    exact target_zero) q' path hp

/-- The leaves after an empty directory was planted. -/
theorem leaf_plant {q : Nat} (hempty : ∀ {i}, i < userTop → Mem.entry s.mem n i = 0)
    (hva : va < 2 ^ 47) : leaf s.mem (Function.update root q (some n)) p va =
      if p = q then 0 else leaf s.mem root p va := by
  have hne : pathTo va ≠ [] := by simp [pathTo]
  unfold leaf
  rw [tableAt_plant hempty (tablePath_pathTo (pmlIndex_lt_userTop hva)), if_neg hne]
  by_cases hp : p = q
  · rw [if_pos hp, if_pos hp]
  · rw [if_neg hp, if_neg hp]

/-- PLANT: a held frame with nothing in its lower half becomes the directory
of a process that has none. -/
theorem plant (h : Vm s root kdir held) {q : Nat} (hn : n ∈ held) (hq : q < maxProc)
    (hroot : root q = none) (hr : userRefs s.mem root n = 0)
    (hempty : ∀ {i}, i < userTop → Mem.entry s.mem n i = 0) :
    Vm s (Function.update root q (some n)) kdir (held.erase n) := by
  obtain ⟨hlt, hnt, hk, hc⟩ := h.held_frame hn
  have htab : ∀ {r p}, TablePath userTop p → tableAt s.mem (Function.update root q (some n)) r p =
      if r = q then (if p = [] then some n else none) else tableAt s.mem root r p :=
    fun hp => tableAt_plant hempty hp
  have hrootless : ∀ va, leaf s.mem root q va = 0 := fun va => by
    rw [leaf, tableAt, Radix.node, hroot]
    rfl
  have hsame : ∀ p va, va < 2 ^ 47 →
      leaf s.mem (Function.update root q (some n)) p va = leaf s.mem root p va := fun p va hva => by
    rw [leaf_plant hempty hva]
    by_cases hp : p = q
    · rw [if_pos hp, hp, hrootless]
    · rw [if_neg hp]
  have hrefs : ∀ f, userRefs s.mem (Function.update root q (some n)) f = userRefs s.mem root f :=
    fun f => userRefs_congr fun p va _ hva => hsame p va hva.lt
  -- a table is the new directory or one of the old ones
  have hcases : ∀ {g}, IsTable userTop s.mem (Function.update root q (some n)) g →
      g = n ∨ IsTable userTop s.mem root g := by
    rintro g ⟨r, p, hp, hg⟩
    rw [htab hp] at hg
    split at hg
    · split at hg
      · exact .inl (Option.some.inj hg).symm
      · cases hg
    · exact .inr ⟨r, p, hp, hg⟩
  have hone : s.count n = 1 := by rw [hc, hr]; rfl
  refine ⟨⟨h.tables.small, h.tables.list, ?_, fun {g} hg => ?_, fun {r p i g} hpi hg => ?_⟩,
    fun {p g} hg => ?_, fun {g} hg => ?_, h.kdirUse, fun hkt => ?_, h.kdirLow, fun {f} hpos => ?_,
    fun {p va} hva => ?_, fun {p va f} hva => ?_, fun {p va f} hva hu hf => ?_⟩
  · exact Radix.Separated.plant TablePath.init h.tables.separated
      (fun r p hp hf => hnt ⟨r, p, hp, hf⟩) fun i hi => by
        rw [hempty (hi.2.2 i rfl)]
        exact target_zero
  · rcases hcases hg with rfl | hold
    · exact ⟨hlt, by rw [hone]; decide⟩
    · exact h.tables.inUse hold
  · rw [htab hpi.init] at hg
    split at hg
    · split at hg
      · next hnil =>
        cases hg
        subst hnil
        rw [hempty (hpi.2.2 i rfl)]
        exact .inl rfl
      · cases hg
    · exact h.tables.flags hpi hg
  · by_cases hp : p = q
    · exact hp ▸ hq
    · rw [Function.update_of_ne hp] at hg
      exact h.pids hg
  · rcases hcases hg with rfl | hold
    · exact hone
    · exact h.tableCount hold
  · rcases hcases hkt with hkn | hold
    · exact hk hkn.symm
    · exact h.kdirTable hold
  · have herase := hold_erase (f := f) hn
    rw [hrefs] at hpos ⊢
    have hfn : f ≠ n := by
      rintro rfl
      rw [hold_of_not_mem (Finset.notMem_erase f held)] at hpos
      omega
    rw [if_neg (Ne.symm hfn), Nat.add_zero] at herase
    rw [herase] at hpos ⊢
    obtain ⟨h1, h2, h3, h4⟩ := h.data hpos
    exact ⟨h1, fun hf => (hcases hf).elim hfn h2, h3, h4⟩
  · rw [hsame p va hva.lt]
    exact h.flags hva
  · rw [hsame p va hva.lt]
    exact h.single hva
  · rw [hsame p va hva] at hf
    obtain ⟨h1, h2, h3⟩ := h.outside hva hu hf
    have herase := hold_erase (f := f) hn
    have hfn : f ≠ n := by
      rintro rfl
      rw [hold_of_mem hn] at h3
      omega
    rw [if_neg (Ne.symm hfn), Nat.add_zero] at herase
    rw [hrefs, herase]
    exact ⟨h1, fun hf => (hcases hf).elim hfn h2, h3⟩

/-- What the processes see after a directory was planted. -/
theorem view_plant {q : Nat} (hempty : ∀ {i}, i < userTop → Mem.entry s.mem n i = 0)
    (hva : UserVa va) : view s.mem (Function.update root q (some n)) p va =
      if p = q then 0 else view s.mem root p va := by
  unfold view
  rw [leaf_plant hempty hva.lt]
  by_cases hp : p = q
  · rw [if_pos hp, if_pos hp, target_zero]
  · rw [if_neg hp, if_neg hp]

/-- The leaves after a directory was dropped. -/
theorem leaf_drop {q : Nat} (m : Mem) : leaf m (Function.update root q none) p va =
    if p = q then 0 else leaf m root p va := by
  unfold leaf
  rw [tableAt_drop]
  by_cases hp : p = q
  · rw [if_pos hp, if_pos hp]
  · rw [if_neg hp, if_neg hp]

/-- DROP: the directory of a process without user pages goes. -/
theorem drop (h : Vm s root kdir held) {q : Nat}
    (hclear : ∀ va, UserVa va → leaf s.mem root q va = 0) :
    Vm s (Function.update root q none) kdir held := by
  have hsub : ∀ r f, Function.update root q none r = some f → root r = some f := by
    intro r f hf
    by_cases hr : r = q
    · subst hr
      rw [Function.update_self] at hf
      cases hf
    · rwa [Function.update_of_ne hr] at hf
  have hnode : ∀ {r p g}, tableAt s.mem (Function.update root q none) r p = some g →
      tableAt s.mem root r p = some g := fun hg => Radix.node_of_roots hsub hg
  have htable : ∀ {g}, IsTable userTop s.mem (Function.update root q none) g →
      IsTable userTop s.mem root g := fun ⟨r, p, hp, hg⟩ => ⟨r, p, hp, hnode hg⟩
  have hleaf : ∀ p va, UserVa va →
      leaf s.mem (Function.update root q none) p va = leaf s.mem root p va := fun p va hva => by
    rw [leaf_drop]
    by_cases hp : p = q
    · rw [if_pos hp, hp, hclear va hva]
    · rw [if_neg hp]
  have hrefs : ∀ f, userRefs s.mem (Function.update root q none) f = userRefs s.mem root f :=
    fun f => userRefs_congr fun p va _ hva => hleaf p va hva
  refine ⟨⟨h.tables.small, h.tables.list, Radix.Separated.roots h.tables.separated hsub,
      fun hg => h.tables.inUse (htable hg), fun hpi hg => h.tables.flags hpi (hnode hg)⟩,
    fun hg => h.pids (hsub _ _ hg), fun hg => h.tableCount (htable hg), h.kdirUse,
    fun hk => h.kdirTable (htable hk), h.kdirLow, fun {f} hpos => ?_, fun {p va} hva => ?_,
    fun {p va f} hva => ?_, fun {p va f} hva hu hf => ?_⟩
  · rw [hrefs] at hpos ⊢
    obtain ⟨h1, h2, h3, h4⟩ := h.data hpos
    exact ⟨h1, fun hf => h2 (htable hf), h3, h4⟩
  · rw [hleaf p va hva]
    exact h.flags hva
  · rw [hleaf p va hva]
    exact h.single hva
  · rw [leaf_drop] at hf
    split at hf
    · rw [target_zero] at hf
      cases hf
    · rw [hrefs]
      obtain ⟨h1, h2, h3⟩ := h.outside hva hu hf
      exact ⟨h1, fun hf => h2 (htable hf), h3⟩

/-- What the other processes see after a directory was dropped. -/
theorem view_drop {q : Nat} (m : Mem) (hp : p ≠ q) :
    view m (Function.update root q none) p va = view m root p va := by
  unfold view
  rw [leaf_drop, if_neg hp]

end Vm

end Myos.Kernel
