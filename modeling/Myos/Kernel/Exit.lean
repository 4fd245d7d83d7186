import Myos.Kernel.Sweep

/-!
# The end of an address space

`destroy_vm` takes the user pages of a process away, then the tables of the
row they are in, then the page directory. With its last page gone the
directory is dropped from the forest (`Vm.drop`), and what is left of it is a
HUSK: frames that are no tables any more, to each of which the code holds the
one reference. `Husk` is the invariant of the loops of `free_pgtable`; every
entry they free lets one frame go.
-/

namespace Myos.Kernel

open Myos.Lib

namespace Vm

variable {s s₀ : Mm} {root : Nat → Option Nat} {kdir : Nat} {held : Finset Nat}
variable {p g addr : Nat}

/-! ## The pages -/

/-- The pages of `p` below `addr` are gone; for everyone else nothing changed
since `s₀`. -/
structure RemovedTo (root : Nat → Option Nat) (kdir p : Nat) (s₀ s : Mm) (addr : Nat) : Prop where
  vm : Vm s root kdir ∅
  cr3 : s.cr3 = s₀.cr3
  starved : s.starved = s₀.starved
  leaf : ∀ {p' va}, p' ≠ p → UserVa va →
    leaf s.mem root p' va = Myos.Kernel.leaf s₀.mem root p' va
  view : ∀ {p' va}, p' ≠ p → UserVa va →
    view s.mem root p' va = Myos.Kernel.view s₀.mem root p' va
  below : ∀ {va}, UserVa va → va < addr → Myos.Kernel.leaf s.mem root p va = 0

/-- One turn of the loop over a page without an entry. -/
theorem RemovedTo.skip (h : RemovedTo root kdir p s₀ s addr) (hpage : addr % pageSize = 0)
    (hz : Myos.Kernel.leaf s.mem root p addr = 0) :
    RemovedTo root kdir p s₀ s (addr + pageSize) := by
  refine ⟨h.vm, h.cr3, h.starved, h.leaf, h.view, fun {va} hva hlt => ?_⟩
  rcases (lt_next_page hpage va).mp hlt with hbelow | hsame
  · exact h.below hva hbelow
  · rw [leaf_page s.mem root p hsame, hz]

/-- One turn of the loop: the page had no frame, or loses it. -/
theorem RemovedTo.step (h : RemovedTo root kdir p s₀ s addr) (hroot : root p = some g)
    (hva : UserVa addr) (hpage : addr % pageSize = 0) :
    ∃ r s', removePage (frameVa g) addr s = .ok r s' ∧
      RemovedTo root kdir p s₀ s' (addr + pageSize) ∧
      (s' = s ∨ ∃ f, target (Myos.Kernel.leaf s.mem root p addr) = some f) := by
  have hpml := hva.pml
  cases ht : tableAt s.mem root p (pathTo addr) with
  | none =>
    have hz : Myos.Kernel.leaf s.mem root p addr = 0 := by rw [Myos.Kernel.leaf, ht]
    exact ⟨_, s, removePage_missing h.vm.tables hpml hroot ht, h.skip hpage hz, .inl rfl⟩
  | some t =>
    cases hf : target (Myos.Kernel.leaf s.mem root p addr) with
    | none =>
      -- a leaf that is not present is nought, and clearing it changes nothing
      have hz : Myos.Kernel.leaf s.mem root p addr = 0 := by
        by_contra hne
        exact target_eq_none.mp hf (h.vm.flags hva hne).1
      have hsame : s.setLeaf t addr 0 = s := by
        rw [leaf_of_tableAt ht] at hz
        rw [Mm.setLeaf, Mem.wr_same hz, Mm.setMem_self]
      have hrun := removePage_absent h.vm.tables hpml hroot ht hf
      rw [hsame] at hrun
      exact ⟨_, s, hrun, h.skip hpage hz, .inl rfl⟩
    | some f =>
      obtain ⟨s', hrun, hvm, hcr3, hst, hleaf, hview, -⟩ :=
        h.vm.remove hroot hva hf (Finset.notMem_empty f)
      refine ⟨_, s', hrun, ⟨hvm, hcr3.trans h.cr3, hst.trans h.starved, fun {p' va} hp' hva' => ?_,
        fun {p' va} hp' hva' => ?_, fun {va} hva' hlt => ?_⟩, .inr ⟨f, rfl⟩⟩
      · rw [hleaf p' va hva'.lt, if_neg fun hk => hp' hk.1, h.leaf hp' hva']
      · rw [hview p' va hva', if_neg fun hk => hp' hk.1, h.view hp' hva']
      · rw [hleaf p va hva'.lt]
        rcases (lt_next_page hpage va).mp hlt with hbelow | hsame
        · rw [h.below hva' hbelow, ite_self]
        · rw [if_pos ⟨rfl, hsame⟩]

/-- RUN: the loop takes away every page up to its end. What holds of every page
that is taken away, and may be strung together, holds of all of them. -/
theorem removePages_along {r : Mm → Mm → Prop} (hrefl : ∀ s, r s s)
    (htrans : ∀ {a b c}, r a b → r b c → r a c) (hroot : root p = some g)
    (hremove : ∀ {s s' : Mm} {va f : Nat} {o : Int}, Vm s root kdir ∅ → UserVa va →
      target (leaf s.mem root p va) = some f → removePage (frameVa g) va s = .ok o s' → r s s')
    {turns : Nat} (h : RemovedTo root kdir p s₀ s addr) (hpage : addr % pageSize = 0)
    (hlo : utext ≤ addr) (hhi : addr + pageSize * turns ≤ ustacktop) :
    ∃ s', removePages (frameVa g) turns addr s = .ok () s' ∧
      RemovedTo root kdir p s₀ s' (addr + pageSize * turns) ∧ r s s' := by
  induction turns generalizing s addr with
  | zero => exact ⟨s, rfl, h, hrefl s⟩
  | succ turns ih =>
    have hva : UserVa addr := by
      refine ⟨hlo, ?_⟩
      unfold pageSize at hhi
      omega
    have hnext : (addr + pageSize) % pageSize = 0 := by rw [Nat.add_mod_right, hpage]
    have hsum : addr + pageSize + pageSize * turns = addr + pageSize * (turns + 1) := by
      rw [Nat.mul_succ]
      omega
    have hhi' : addr + pageSize + pageSize * turns ≤ ustacktop := by
      rw [hsum]
      exact hhi
    obtain ⟨o, s₁, hrun, h₁, hone⟩ := h.step hroot hva hpage
    have hr : r s s₁ := by
      rcases hone with rfl | ⟨f, hf⟩
      · exact hrefl _
      · exact hremove h.vm hva hf hrun
    obtain ⟨s', hrun', h', hr'⟩ := ih h₁ hnext (Nat.le_add_right_of_le hlo) hhi'
    refine ⟨s', ?_, by rw [← hsum]; exact h', htrans hr hr'⟩
    unfold removePages
    rw [Act.bind_ok hrun]
    exact hrun'

theorem removePages_run (hroot : root p = some g) {turns : Nat}
    (h : RemovedTo root kdir p s₀ s addr) (hpage : addr % pageSize = 0) (hlo : utext ≤ addr)
    (hhi : addr + pageSize * turns ≤ ustacktop) :
    ∃ s', removePages (frameVa g) turns addr s = .ok () s' ∧
      RemovedTo root kdir p s₀ s' (addr + pageSize * turns) := by
  obtain ⟨s', hrun, h', -⟩ := removePages_along (r := fun _ _ => True) (fun _ => trivial)
    (fun _ _ => trivial) hroot (fun _ _ _ _ => trivial) h hpage hlo hhi
  exact ⟨s', hrun, h'⟩

/-- Pages were taken away: no table went, and a frame lost a count for each page
it lost. -/
structure Unmaps (root : Nat → Option Nat) (s s' : Mm) : Prop where
  npages : s'.npages = s.npages
  table : ∀ f, IsTable userTop s'.mem root f ↔ IsTable userTop s.mem root f
  count : ∀ f, s'.count f + userRefs s.mem root f = s.count f + userRefs s'.mem root f

theorem Unmaps.refl (s : Mm) : Unmaps root s s := ⟨rfl, fun _ => Iff.rfl, fun _ => rfl⟩

theorem Unmaps.trans {a b c : Mm} (h : Unmaps root a b) (h' : Unmaps root b c) :
    Unmaps root a c :=
  ⟨h'.npages.trans h.npages, fun f => (h'.table f).trans (h.table f), fun f => by
    have h1 := h.count f
    have h2 := h'.count f
    omega⟩

/-- A page is taken away. -/
theorem removePage_unmaps {va f : Nat} {o : Int} {s' : Mm} (h : Vm s root kdir ∅)
    (hroot : root p = some g) (hva : UserVa va) (hf : target (leaf s.mem root p va) = some f)
    (hrun : removePage (frameVa g) va s = .ok o s') : Unmaps root s s' := by
  have hne : leaf s.mem root p va ≠ 0 := fun hz => by rw [hz, target_zero] at hf; cases hf
  obtain ⟨t, ht⟩ := tableAt_of_leaf hne
  obtain ⟨h1, h2⟩ := h.count_lt (Nat.add_pos_left (h.refs_pos hva hf) _)
  obtain ⟨s₁, hrun₁, -, -, -, -, -, hrefs, -⟩ := h.remove hroot hva hf (Finset.notMem_empty f)
  have hrun₂ := removePage_present h.tables hva.pml hroot ht hf h1 h2
  have hs' : s' = s₁ := by
    rw [hrun] at hrun₁
    injection hrun₁
  have hs₁ : s₁ = (s.freed f).setLeaf t va 0 := by
    rw [hrun₁] at hrun₂
    injection hrun₂
  subst hs'
  refine ⟨by rw [hs₁]; exact Mm.freed_npages s f, fun k => ?_, fun k => ?_⟩
  · have htable : IsTable userTop (s.setLeaf t va 0).mem root k ↔ IsTable userTop s.mem root k :=
      isTable_congr (fun hq => h.tables.setLeaf_tableAt hva.pml ht 0 hq) k
    rw [hs₁, ← htable, Mm.setLeaf, Mm.setLeaf, Mm.freed_mem]
    rfl
  · have hpos := h.refs_pos hva hf
    rw [hrefs, hs₁, Mm.setLeaf, Mm.setMem_count, Mm.freed_count h1 h2]
    by_cases hk : k = f
    · subst hk
      rw [if_pos rfl, if_pos rfl]
      omega
    · rw [if_neg hk, if_neg hk]
      omega

/-! ## The tables -/

/-- What is left of the address space of `p` in `s₀` once its directory was
dropped: but for the tables at the paths in `gone`, the code holds every
table, and every entry that leads to one is as it was. Nothing the others
have changed. -/
structure Husk (root : Nat → Option Nat) (kdir p : Nat) (s₀ : Mm) (gone : Set (List Nat))
    (s : Mm) (held : Finset Nat) : Prop where
  vm : Vm s (Function.update root p none) kdir held
  unmapped : ∀ {n}, n ∈ held → userRefs s.mem (Function.update root p none) n = 0
  table : ∀ {path n}, TablePath userTop path → tableAt s₀.mem root p path = some n →
    path ∉ gone → n ∈ held
  entry : ∀ {path n i}, TablePath userTop (path ++ [i]) → tableAt s₀.mem root p path = some n →
    path ∉ gone → path ++ [i] ∉ gone → Mem.entry s.mem n i = Mem.entry s₀.mem n i
  cr3 : s.cr3 = s₀.cr3
  starved : s.starved = s₀.starved
  leaf : ∀ {p' va}, p' ≠ p → UserVa va →
    leaf s.mem (Function.update root p none) p' va = Myos.Kernel.leaf s₀.mem root p' va
  view : ∀ {p' va}, p' ≠ p → UserVa va →
    view s.mem (Function.update root p none) p' va = Myos.Kernel.view s₀.mem root p' va

theorem Husk.mono {gone gone' : Set (List Nat)} (h : Husk root kdir p s₀ gone s held)
    (hsub : gone ⊆ gone') : Husk root kdir p s₀ gone' s held :=
  ⟨h.vm, h.unmapped, fun hp hn hg => h.table hp hn fun h => hg (hsub h),
    fun hpi hn hg hgi => h.entry hpi hn (fun h => hg (hsub h)) fun h => hgi (hsub h),
    h.cr3, h.starved, h.leaf, h.view⟩

/-- A directory without user pages is dropped, and all its tables are held. -/
theorem Husk.start (h : Vm s₀ root kdir ∅)
    (hclear : ∀ va, UserVa va → Myos.Kernel.leaf s₀.mem root p va = 0) :
    ∃ held, Husk root kdir p s₀ ∅ s₀ held := by
  classical
  have hleaf : ∀ {p' va}, p' ≠ p →
      Myos.Kernel.leaf s₀.mem (Function.update root p none) p' va =
        Myos.Kernel.leaf s₀.mem root p' va := fun hp' => by rw [leaf_drop, if_neg hp']
  -- under the roots that stay, `p` maps nothing
  have hother : ∀ {p' va f},
      target (Myos.Kernel.leaf s₀.mem (Function.update root p none) p' va) = some f →
        target (Myos.Kernel.leaf s₀.mem root p' va) = some f := by
    intro p' va f hf
    by_cases hp' : p' = p
    · rw [leaf_drop, if_pos hp', target_zero] at hf
      cases hf
    · rwa [hleaf hp'] at hf
  let frames := (Finset.range s₀.npages).filter fun n =>
    ∃ path, TablePath userTop path ∧ tableAt s₀.mem root p path = some n
  have hframes : ∀ n, n ∈ frames ↔
      ∃ path, TablePath userTop path ∧ tableAt s₀.mem root p path = some n := by
    intro n
    refine Finset.mem_filter.trans (and_iff_right_of_imp ?_)
    rintro ⟨path, hp, hn⟩
    exact Finset.mem_range.mpr (h.tables.inUse ⟨p, path, hp, hn⟩).1
  have hzero : ∀ n ∈ frames, userRefs s₀.mem (Function.update root p none) n = 0 := by
    intro n hn
    obtain ⟨path, hp, hn⟩ := (hframes n).mp hn
    by_contra hne
    obtain ⟨p', va, -, hva, hf⟩ := userRefs_pos.mp (Nat.pos_of_ne_zero hne)
    exact (h.mapped hva (hother hf)).2.1 ⟨p, path, hp, hn⟩
  refine ⟨frames, (h.drop hclear).holding_all frames fun n hn => ?_, fun {n} hn => hzero n hn,
    fun hp hn _ => (hframes _).mpr ⟨_, hp, hn⟩, fun _ _ _ _ => rfl, rfl, rfl,
    fun hp' _ => hleaf hp', fun hp' _ => view_drop s₀.mem hp'⟩
  obtain ⟨path, hp, hn'⟩ := (hframes n).mp hn
  have htab : IsTable userTop s₀.mem root n := ⟨p, path, hp, hn'⟩
  refine ⟨(h.tables.inUse htab).1, ?_, fun hk => h.kdirTable (hk ▸ htab), h.tableCount htab,
    hzero n hn, fun p' va hva hu hf => (h.outside hva hu (hother hf)).2.1 htab⟩
  rintro ⟨p', path', hp', hn₂⟩
  rw [tableAt_drop] at hn₂
  split at hn₂
  · cases hn₂
  · next hne => exact hne (h.tables.separated hp' hp hn₂ hn').1

section Step

variable {gone : Set (List Nat)} {path : List Nat} {i t : Nat}

/-- The entries that are left still read as they did. -/
theorem Husk.load (h : Husk root kdir p s₀ gone s held) (h₀ : Vm s₀ root kdir ∅)
    (hpi : TablePath userTop (path ++ [i])) (ht : tableAt s₀.mem root p path = some t)
    (hg : path ∉ gone) (hgi : path ++ [i] ∉ gone) :
    load 8 (frameVa t + 8 * i) s = .ok (Mem.entry s₀.mem t i) s := by
  rw [load_entry (h₀.tables.small_of_table ⟨p, path, hpi.init, ht⟩) hpi.last,
    h.entry hpi ht hg hgi]

/-- STEP: an entry is freed, and the frame it led to is let go. -/
theorem Husk.freeEntry (h : Husk root kdir p s₀ gone s held) (h₀ : Vm s₀ root kdir ∅)
    (hpi : TablePath userTop (path ++ [i])) (ht : tableAt s₀.mem root p path = some t)
    (hg : path ∉ gone) (hgi : path ++ [i] ∉ gone) (he : Mem.entry s₀.mem t i ≠ 0) :
    ∃ s' held', freeEntry (frameVa t + 8 * i) s = .ok () s' ∧
      Husk root kdir p s₀ (Insert.insert (path ++ [i]) gone) s' held' := by
  have ht' := h₀.tables.small_of_table ⟨p, path, hpi.init, ht⟩
  obtain ⟨n, -, -, hshift, hn⟩ := table_of_entry h₀.tables hpi ht he
  have hheld := h.table hpi hn hgi
  obtain ⟨-, -, -, hc⟩ := h.vm.held_frame hheld
  rw [h.unmapped hheld] at hc
  have hfree : freePage (some n) s = .ok () (s.freed n) :=
    freePage_ok (by rw [hc]; decide) (by rw [hc]; decide)
  obtain ⟨-, htt, htk, -⟩ := h.vm.held_frame (h.table hpi.init ht hg)
  have hfreed := h.vm.free hheld
  have htt' : ¬ IsTable userTop (s.freed n).mem (Function.update root p none) t := by
    rwa [Mm.freed_mem]
  have hother : ∀ f o, f ≠ t → o < pageSize →
      Mem.wr 8 (s.freed n).mem (pageSize * t + 8 * i) 0 (pageSize * f + o) =
        (s.freed n).mem (pageSize * f + o) :=
    fun f o hf ho => Mem.wr_entry_out _ 0 hpi.last ho hf
  have hleaf : ∀ {p' va}, UserVa va →
      Myos.Kernel.leaf (Mem.wr 8 (s.freed n).mem (pageSize * t + 8 * i) 0)
        (Function.update root p none) p' va =
      Myos.Kernel.leaf s.mem (Function.update root p none) p' va := fun hva => by
    rw [leaf_bytes htt' hother hva.lt, Mm.freed_mem]
  refine ⟨(s.freed n).setMem (Mem.wr 8 (s.freed n).mem (pageSize * t + 8 * i) 0), held.erase n,
    ?_, hfreed.bytes htt' htk hother, fun {k} hk => ?_, fun {path' k} hp hk hgk => ?_,
    fun {path' k j} hpj hk hgk hgj => ?_, (Mm.freed_cr3 s n).trans h.cr3,
    (Mm.freed_starved s n).trans h.starved, fun {p' va} hp' hva => ?_, fun {p' va} hp' hva => ?_⟩
  · unfold Myos.Kernel.freeEntry
    rw [Act.bind_ok (h.load h₀ hpi ht hg hgi), hshift, Act.bind_ok hfree]
    exact store_entry ht' hpi.last
  · rw [Mm.setMem_mem, userRefs_congr fun p' va _ hva => hleaf hva]
    exact h.unmapped (Finset.mem_of_mem_erase hk)
  · rw [Set.mem_insert_iff, not_or] at hgk
    refine Finset.mem_erase.mpr ⟨?_, h.table hp hk hgk.2⟩
    rintro rfl
    exact hgk.1 (h₀.tables.separated hp hpi hk hn).2
  · rw [Set.mem_insert_iff, not_or] at hgk hgj
    rw [Mm.setMem_mem, Mem.entry_wr _ 0 hpj.last hpi.last, if_neg, Mm.freed_mem]
    · exact h.entry hpj hk hgk.2 hgj.2
    · rintro ⟨rfl, rfl⟩
      exact hgj.1 (by rw [(h₀.tables.separated hpj.init hpi.init hk ht).2])
  · rw [Mm.setMem_mem, hleaf hva, h.leaf hp' hva]
  · rw [Mm.setMem_mem, view_bytes htt' hother hva, if_neg, Mm.freed_mem, h.view hp' hva]
    rw [Mm.freed_mem]
    intro hmap
    have hpos := h.vm.refs_pos hva hmap
    rw [h.unmapped (h.table hpi.init ht hg)] at hpos
    exact Nat.lt_irrefl 0 hpos

end Step

/-- The loops of `free_pgtable` keep a husk. -/
theorem Husk.sweeper (h₀ : Vm s₀ root kdir ∅) : Sweeper (Myos.Kernel.load 8) Myos.Kernel.freeEntry
    s₀ root p fun gone s => ∃ held, Husk root kdir p s₀ gone s held := by
  refine ⟨?_, ?_⟩
  · rintro gone s path i t ⟨held, h⟩ hway ht hg hgi
    exact ⟨s, h.load h₀ hway.tablePath ht hg hgi, held, h⟩
  · rintro gone s path i t ⟨held, h⟩ hway ht hg hgi he
    obtain ⟨s', held', hrun, h'⟩ := h.freeEntry h₀ hway.tablePath ht hg hgi he
    exact ⟨s', hrun, held', h'⟩

/-! ## `destroy_vm` -/

theorem va2page_frameVa (hg : g < 2 ^ 19) : va2page (frameVa g) = g := by
  unfold va2page kva2pa u64 frameVa pteShift
  rw [Nat.shiftRight_eq_div_pow]
  unfold kbase pageSize
  omega

/-- `destroy_vm` takes the address space of a process away. The others keep theirs. -/
theorem destroyVm_run (h : Vm s root kdir ∅) (hroot : root p = some g) :
    ∃ s', destroyVm (frameVa g) s = .ok () s' ∧ Vm s' (Function.update root p none) kdir ∅ ∧
      s'.cr3 = s.cr3 ∧ s'.starved = s.starved ∧
      (∀ p' va, p' ≠ p → UserVa va →
        leaf s'.mem (Function.update root p none) p' va = leaf s.mem root p' va) ∧
      ∀ p' va, p' ≠ p → UserVa va →
        view s'.mem (Function.update root p none) p' va = view s.mem root p' va := by
  have hstart : RemovedTo root kdir p s s utext := ⟨h, rfl, rfl, fun _ _ => rfl, fun _ _ => rfl,
    fun {va} hva hlt => absurd hva.1 (Nat.not_le_of_lt hlt)⟩
  have hturns : utext + pageSize * turns utext ustacktop = ustacktop := by decide
  obtain ⟨s₁, hrun₁, h₁⟩ := removePages_run hroot hstart (by decide) (Nat.le_refl _)
    (Nat.le_of_eq hturns)
  rw [hturns] at h₁
  obtain ⟨held, hhusk⟩ := Husk.start h₁.vm fun va hva => h₁.below hva hva.2
  obtain ⟨s₂, hrun₂, held₂, h₂⟩ := (Husk.sweeper h₁.vm).run h₁.vm.tables hroot ⟨held, hhusk⟩ 511
  rw [← freePmls_eq] at hrun₂
  have hg : tableAt s₁.mem root p [] = some g := by rw [tableAt, Radix.node_nil, hroot]
  have hheld := h₂.table tablePath_nil hg fun hin => hin.1 rfl
  obtain ⟨hlt, -, -, hc⟩ := h₂.vm.held_frame hheld
  rw [h₂.unmapped hheld] at hc
  have hrun₃ : freePage (some (va2page (frameVa g))) s₂ = .ok () (s₂.freed g) := by
    rw [va2page_frameVa (h₂.vm.frame_lt hlt)]
    exact freePage_ok (by rw [hc]; decide) (by rw [hc]; decide)
  refine ⟨s₂.freed g, ?_, (h₂.vm.free hheld).forget fun n hn => ?_, ?_, ?_,
    fun p' va hp' hva => ?_, fun p' va hp' hva => ?_⟩
  · have hrun₂' : freePgtable (frameVa g) s₁ = .ok () s₂ := hrun₂
    unfold destroyVm
    rw [Act.bind_ok hrun₁, Act.bind_ok hrun₂', hrun₃]
  · rw [Mm.freed_mem]
    exact h₂.unmapped (Finset.mem_of_mem_erase hn)
  · rw [Mm.freed_cr3, h₂.cr3, h₁.cr3]
  · rw [Mm.freed_starved, h₂.starved, h₁.starved]
  · rw [Mm.freed_mem, h₂.leaf hp' hva, h₁.leaf hp' hva]
  · rw [Mm.freed_mem, h₂.view hp' hva, h₁.view hp' hva]

end Vm

end Myos.Kernel
