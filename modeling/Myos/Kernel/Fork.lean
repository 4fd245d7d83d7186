import Myos.Kernel.Fault

/-!
# The address space of a new process

The three parts `sys_fork` makes it from: a directory (`allocVm`), the pages
below the stack, shared read-only with the caller (`sharePages`), and a stack
page of its own (`copyStack`). After the three the new process sees what the
caller sees, and nobody sees a change.
-/

namespace Myos.Kernel

open Myos.Lib

/-- Leaves of different tables are set in either order. -/
theorem setLeaf_comm {s : Mm} {t t' va va' v v' f : Nat} {c : Int} (h : t ≠ t') :
    ((s.setLeaf t va v).setCount f c).setLeaf t' va' v' =
      ((s.setLeaf t' va' v').setCount f c).setLeaf t va v := by
  have hmem : Mem.wr 8 (Mem.wr 8 s.mem (pageSize * t + 8 * pteIndex va) v)
        (pageSize * t' + 8 * pteIndex va') v' =
      Mem.wr 8 (Mem.wr 8 s.mem (pageSize * t' + 8 * pteIndex va') v')
        (pageSize * t + 8 * pteIndex va) v := by
    have h1 := pteIndex_lt va
    have h2 := pteIndex_lt va'
    refine Mem.overlay_comm ?_
    unfold pageSize
    omega
  unfold Mm.setLeaf Mm.setCount Mm.setPage Mm.setMem
  simp only [hmem]

/-! ## The parts of `sys_fork` -/

/-- The page of the stack. -/
def stackPage : Nat := ustacktop - pageSize

theorem userVa_stackPage : UserVa stackPage := by
  unfold UserVa stackPage utext ustacktop pageSize
  omega

theorem sharePages_starves (pgdir child : Nat) (n addr : Nat) :
    Act.Within Mm.Starves (sharePages pgdir child n addr) := by
  induction n generalizing addr with
  | zero => exact Starves.pure _
  | succ n ih =>
    refine Starves.bind (walkPage_starves pgdir addr 0) fun o => ?_
    cases o with
    | none => exact ih _
    | some pte =>
      refine Starves.bind (Starves.load 8 pte) fun e => ?_
      show Act.Within Mm.Starves (if _ then _ else _)
      split
      · exact ih _
      · refine Starves.bind (insertPage_starves child addr _ _) fun r => ?_
        show Act.Within Mm.Starves (if _ then _ else _)
        split
        · exact Starves.pure r
        · exact Starves.bind (Starves.modify fun s => Starves.refl s) fun _ =>
            Starves.bind (Starves.load 8 pte) fun e => Starves.bind (Starves.store 8 pte _) fun _ =>
              ih _

theorem copyStack_starves (child : Nat) : Act.Within Mm.Starves (copyStack child) :=
  Starves.bind (Starves.allocPage 1) fun pp => Starves.bind (Starves.gets _) fun va =>
    Starves.bind (Starves.memcpy va _ _) fun _ =>
      Starves.bind (insertPage_starves child _ pp _) fun _ => Starves.pure ()

namespace Vm

variable {s s₀ : Mm} {root : Nat → Option Nat} {kdir : Nat} {held : Finset Nat}
variable {p q p' g gc va va' f n addr : Nat}

/-- A page that can be written through is the only one of its frame. -/
theorem page_of_writable (h : Vm s root kdir held) (hva : UserVa va) (hva' : UserVa va')
    (hf : target (leaf s.mem root p va) = some f) (hw : leaf s.mem root p va &&& pteW ≠ 0)
    (hf' : target (leaf s.mem root p' va') = some f) :
    p = p' ∧ va / pageSize = va' / pageSize := by
  have hone := h.single hva hf hw
  have hc := (h.mapped hva hf).2.2.2
  have hpos := h.refs_pos hva hf
  have hr : Owners.refs userKeys (userFrame s.mem root) f = 1 := by
    show userRefs s.mem root f = 1
    omega
  obtain ⟨g, hg⟩ := root_of_target hf
  obtain ⟨g', hg'⟩ := root_of_target hf'
  have := Owners.refs_eq_one hr (mem_userKeys.mpr ⟨h.pids hg, hva⟩)
    (mem_userKeys.mpr ⟨h.pids hg', hva'⟩) ((userFrame_page s.mem root p va).trans hf)
    ((userFrame_page s.mem root p' va').trans hf')
  exact ⟨congrArg Prod.fst this, congrArg Prod.snd this⟩

/-- The flags of a shared page. -/
theorem shareFlags : (pteU ||| pteP ||| pteCow) < pageSize ∧
    (pteU ||| pteP ||| pteCow) &&& pteP ≠ 0 ∧ (pteU ||| pteP ||| pteCow) &&& pteU ≠ 0 ∧
    (pteU ||| pteP ||| pteCow) &&& pteW = 0 := by decide

/-- SHARE A PAGE: the caller's leaf loses its write bit, and the new process
gets the same one. The order is not that of the code, but comes to the same. -/
theorem shareLeaf (h : Vm s root kdir ∅) (hva : UserVa va) (hpq : p ≠ q) {t tc : Nat}
    (ht : tableAt s.mem root p (pathTo va) = some t)
    (htc : tableAt s.mem root q (pathTo va) = some tc)
    (hf : target (leaf s.mem root p va) = some f)
    (habs : target (leaf s.mem root q va) = none) {v : Nat}
    (hv : v = f <<< pteShift ||| (pteU ||| pteP ||| pteCow)) :
    let s' := ((s.setLeaf t va v).setCount f (int32 (s.count f + 1))).setLeaf tc va v
    Vm s' root kdir ∅ ∧
      (∀ p' va', UserVa va' → leaf s'.mem root p' va' =
        if (p' = p ∨ p' = q) ∧ va' / pageSize = va / pageSize then v
        else leaf s.mem root p' va') ∧
      ∀ p' va', UserVa va' → view s'.mem root p' va' =
        if p' = q ∧ va' / pageSize = va / pageSize then view s.mem root p va'
        else view s.mem root p' va' := by
  obtain ⟨hflag, hp, hu, hw⟩ := shareFlags
  obtain ⟨hlt, hnt, -, -⟩ := h.mapped hva hf
  have htarget : target v = some f := hv ▸ target_leafEntry hflag hp
  have h64 : v < 2 ^ 64 := hv ▸ leafEntry_lt hflag (h.frame_lt hlt)
  have hro : v &&& pteW = 0 := by rw [hv, land_leafEntry hflag (by decide)]; exact hw
  have hflags : v ≠ 0 → v &&& pteP ≠ 0 ∧ v &&& pteU ≠ 0 := fun _ => by
    rw [hv, land_leafEntry hflag (by decide), land_leafEntry hflag (by decide)]
    exact ⟨hp, hu⟩
  have hnow : ∀ (c : Nat → Int) k, target v = some k → v &&& pteW ≠ 0 → c k = 1 :=
    fun _ _ _ hne => absurd hro hne
  have htable : ∀ {r path}, TablePath userTop path →
      tableAt (s.setLeaf t va v).mem root r path = tableAt s.mem root r path :=
    fun hq => h.tables.setLeaf_tableAt hva.pml ht v hq
  -- the caller's leaf becomes read-only
  have hA : Vm (s.setLeaf t va v) root kdir ∅ :=
    h.setLeaf hva ht h64 hflags (fun k => by rw [htarget, hf]) (hnow _)
  have hmapA : target (leaf (s.setLeaf t va v).mem root p va) = some f := by
    rw [h.tables.leaf_setLeaf_same hva.pml ht h64 rfl, htarget]
  have hleafA : ∀ {p' va'}, UserVa va' → ¬ (p' = p ∧ va' / pageSize = va / pageSize) →
      leaf (s.setLeaf t va v).mem root p' va' = leaf s.mem root p' va' := fun hva' hne =>
    h.tables.leaf_setLeaf_other hva.pml (lt_48_of_47 hva.lt) ht v hva'.pml
      (lt_48_of_47 hva'.lt) hne
  have habsA : target (leaf (s.setLeaf t va v).mem root q va) = none := by
    rw [hleafA hva fun hk => hpq hk.1.symm, habs]
  -- a reference is taken for the new process
  have hB : Vm ((s.setLeaf t va v).setCount f (int32 (s.count f + 1))) root kdir
      (Insert.insert f ∅) := by
    refine hA.share (Finset.notMem_empty f) (hA.refs_pos hva hmapA) fun p' va' hva' hf' hw' => ?_
    obtain ⟨rfl, hpage⟩ := hA.page_of_writable hva' hva hf' hw' hmapA
    rw [h.tables.leaf_setLeaf_same hva.pml ht h64 hpage] at hw'
    exact hw' hro
  -- and becomes its leaf
  have htcB : tableAt ((s.setLeaf t va v).setCount f (int32 (s.count f + 1))).mem root q
      (pathTo va) = some tc := by
    rw [Mm.setCount_mem, htable (tablePath_pathTo hva.pml), htc]
  have hC : Vm (((s.setLeaf t va v).setCount f (int32 (s.count f + 1))).setLeaf tc va v)
      root kdir ∅ := by
    refine hB.setLeaf hva htcB h64 hflags (fun k => ?_) (hnow _)
    rw [hold_insert (Finset.notMem_empty f), Mm.setCount_mem, htarget, habsA]
    simp only [reduceCtorEq, if_false, Option.some.injEq, Nat.add_zero]
  have hntA : ¬ IsTable userTop (s.setLeaf t va v).mem root f := (hA.mapped hva hmapA).2.1
  refine ⟨hC, fun p' va' hva' => ?_, fun p' va' hva' => ?_⟩
  · by_cases hkc : p' = q ∧ va' / pageSize = va / pageSize
    · rw [hkc.1, hB.tables.leaf_setLeaf_same hva.pml htcB h64 hkc.2, if_pos ⟨.inr rfl, hkc.2⟩]
    · rw [hB.tables.leaf_setLeaf_other hva.pml (lt_48_of_47 hva.lt) htcB v hva'.pml
        (lt_48_of_47 hva'.lt) hkc, Mm.setCount_mem]
      by_cases hk : p' = p ∧ va' / pageSize = va / pageSize
      · rw [hk.1, h.tables.leaf_setLeaf_same hva.pml ht h64 hk.2, if_pos ⟨.inl rfl, hk.2⟩]
      · rw [hleafA hva' hk, if_neg]
        rintro ⟨rfl | rfl, hpage⟩
        · exact hk ⟨rfl, hpage⟩
        · exact hkc ⟨rfl, hpage⟩
  · have hviewA : ∀ {p' va'}, UserVa va' →
        view (s.setLeaf t va v).mem root p' va' = view s.mem root p' va' := fun {p' va'} hva' => by
      rw [h.view_setLeaf hva ht h64 (fun k hk => by rw [htarget] at hk; cases hk; exact hnt) hva',
        htarget]
      split
      · next hk =>
        rw [hk.1, view_eq (by rw [leaf_page s.mem root p hk.2, hf])]
      · rfl
    rw [hB.view_setLeaf hva htcB h64 (fun k hk => by rw [htarget] at hk; cases hk; exact hntA) hva',
      htarget, Mm.setCount_mem, hviewA hva']
    by_cases hk : p' = q ∧ va' / pageSize = va / pageSize
    · rw [if_pos hk, if_pos hk]
      have hmap : target (leaf (s.setLeaf t va v).mem root p va') = some f := by
        rw [leaf_page _ root p hk.2, hmapA]
      rw [← hviewA hva', view_eq hmap]
    · rw [if_neg hk, if_neg hk]

/-! ## The pages below the stack -/

/-- A leaf that leads nowhere is nought. -/
theorem leaf_zero (h : Vm s root kdir held) (hva : UserVa va)
    (habs : target (leaf s.mem root p va) = none) : leaf s.mem root p va = 0 := by
  by_contra hne
  exact target_eq_none.mp habs (h.flags hva hne).1

/-- The new process `q` has the pages of `p` below `addr`, read-only, and none above;
for everyone else nothing changed since `s₀`. -/
structure SharedTo (root : Nat → Option Nat) (kdir p q : Nat) (s₀ s : Mm) (addr : Nat) : Prop where
  vm : Vm s root kdir ∅
  cr3 : s.cr3 = s₀.cr3
  view : ∀ {p' va}, p' ≠ q → UserVa va → view s.mem root p' va = Myos.Kernel.view s₀.mem root p' va
  below : ∀ {va}, UserVa va → va < addr →
    Myos.Kernel.view s.mem root q va = Myos.Kernel.view s₀.mem root p va
  shared : ∀ {va}, UserVa va → va < addr → leaf s.mem root q va &&& pteW = 0
  above : ∀ {va}, UserVa va → addr ≤ va → target (leaf s.mem root q va) = none
  mapped : ∀ {p' va}, p' ≠ q → UserVa va →
    (target (leaf s.mem root p' va) = none ↔ target (leaf s₀.mem root p' va) = none)

/-- Before the first turn the new process has nothing. -/
theorem SharedTo.start (h : Vm s root kdir ∅) (hq : ∀ va, UserVa va → leaf s.mem root q va = 0) :
    SharedTo root kdir p q s s utext :=
  ⟨h, rfl, fun _ _ => rfl, fun hva hlt => absurd hva.1 (Nat.not_le_of_lt hlt),
    fun hva hlt => absurd hva.1 (Nat.not_le_of_lt hlt),
    fun {va} hva _ => by rw [hq va hva, target_zero], fun _ _ => Iff.rfl⟩

/-- One turn of the loop over a page that is not mapped. -/
theorem SharedTo.skip (h : SharedTo root kdir p q s₀ s addr) (hpq : p ≠ q)
    (hpage : addr % pageSize = 0) (habs : target (leaf s.mem root p addr) = none) :
    SharedTo root kdir p q s₀ s (addr + pageSize) := by
  refine ⟨h.vm, h.cr3, h.view, fun {va} hva hlt => ?_, fun {va} hva hlt => ?_,
    fun {va} hva hle => h.above hva (next_page_le hpage hle).1, h.mapped⟩
  · by_cases hbelow : va < addr
    · exact h.below hva hbelow
    · have hsame := ((lt_next_page hpage va).mp hlt).resolve_left hbelow
      rw [← h.view hpq hva, view_none (h.above hva (Nat.le_of_not_lt hbelow)),
        view_none (by rw [leaf_page s.mem root p hsame, habs])]
  · by_cases hbelow : va < addr
    · exact h.shared hva hbelow
    · rw [h.vm.leaf_zero hva (h.above hva (Nat.le_of_not_lt hbelow)), Nat.zero_and]

/-- One turn of the loop over a mapped page. -/
theorem SharedTo.step (h : SharedTo root kdir p q s₀ s addr) (hpq : p ≠ q)
    (hrootq : root q = some gc) (hva : UserVa addr)
    (hpage : addr % pageSize = 0) {t : Nat} (ht : tableAt s.mem root p (pathTo addr) = some t)
    (hf : target (leaf s.mem root p addr) = some f)
    (hns : (insertPage (frameVa gc) addr (some f) (pteU ||| pteP ||| pteCow) s).state.starved
      = false) :
    ∃ (s₁ : Mm) (tc : Nat), insertPage (frameVa gc) addr (some f) (pteU ||| pteP ||| pteCow) s =
        .ok 0 (s₁.setLeaf tc addr (f <<< pteShift ||| (pteU ||| pteP ||| pteCow))) ∧
      t ≠ tc ∧ tableAt s₁.mem root p (pathTo addr) = some t ∧
      leaf s₁.mem root p addr = leaf s.mem root p addr ∧ s₁.count f ≠ 0 ∧
      SharedTo root kdir p q s₀
        (((s₁.setLeaf tc addr (f <<< pteShift ||| (pteU ||| pteP ||| pteCow))).setCount f
          (int32 (s₁.count f + 1))).setLeaf t addr
            (f <<< pteShift ||| (pteU ||| pteP ||| pteCow))) (addr + pageSize) := by
  obtain ⟨s₁, tc, ht₁, hgrown, halong, htc, hrun⟩ :=
    insertPage_run h.vm.tables userEntry hva.pml hrootq hns
  have hpath := tablePath_pathTo hva.pml
  have htp := hgrown.tables hpath ht
  have hne : t ≠ tc := by
    rintro rfl
    exact hpq (ht₁.separated hpath hpath htp htc).1
  have h₁ := h.vm.grown ht₁ hgrown
  have hleaf₁ : ∀ {p' va}, UserVa va → leaf s₁.mem root p' va = leaf s.mem root p' va :=
    fun hva => hgrown.leaf hva.pml
  have hf₁ : target (leaf s₁.mem root p addr) = some f := by rw [hleaf₁ hva, hf]
  have habs := h.above hva (Nat.le_refl addr)
  obtain ⟨hflag, hpres, -, hro⟩ := shareFlags
  obtain ⟨hvm, hleaf, hview⟩ := h₁.shareLeaf hva hpq htp htc hf₁ (by rw [hleaf₁ hva, habs]) rfl
  refine ⟨s₁, tc, hrun, hne, htp, hleaf₁ hva,
    fun hz => h₁.mapped_not_free hva hf₁ ⟨(h₁.mapped hva hf₁).1, hz⟩, ?_⟩
  rw [setLeaf_comm (Ne.symm hne)]
  refine ⟨hvm, hgrown.cr3.trans h.cr3, fun {p' va} hp' hva' => ?_, fun {va} hva' hlt => ?_,
    fun {va} hva' hlt => ?_, fun {va} hva' hle => ?_, fun {p' va} hp' hva' => ?_⟩
  · rw [hview p' va hva', if_neg fun hk => hp' hk.1, h.vm.view_grown hgrown hva', h.view hp' hva']
  · rw [hview q va hva']
    by_cases hsame : va / pageSize = addr / pageSize
    · rw [if_pos ⟨rfl, hsame⟩, h.vm.view_grown hgrown hva', h.view hpq hva']
    · rw [if_neg fun hk => hsame hk.2, h.vm.view_grown hgrown hva']
      exact h.below hva' (((lt_next_page hpage va).mp hlt).resolve_right hsame)
  · rw [hleaf q va hva']
    by_cases hsame : va / pageSize = addr / pageSize
    · rw [if_pos ⟨.inr rfl, hsame⟩, land_leafEntry hflag (by decide), hro]
    · rw [if_neg fun hk => hsame hk.2, hleaf₁ hva']
      exact h.shared hva' (((lt_next_page hpage va).mp hlt).resolve_right hsame)
  · obtain ⟨hle', hsame⟩ := next_page_le hpage hle
    rw [hleaf q va hva', if_neg fun hk => hsame hk.2, hleaf₁ hva']
    exact h.above hva' hle'
  · rw [hleaf p' va hva', ← h.mapped hp' hva']
    split
    · next hk =>
      -- the page was mapped, and still is
      have hp : p' = p := hk.1.resolve_right hp'
      rw [hp, target_leafEntry hflag hpres, leaf_page s.mem root p hk.2, hf]
    · rw [hleaf₁ hva']

/-- The loop passes over a page that is not mapped. -/
theorem SharedTo.turn_absent (h : SharedTo root kdir p q s₀ s addr) (hroot : root p = some g)
    (hva : UserVa addr)
    (habs : target (leaf s.mem root p addr) = none) (n : Nat) :
    sharePages (frameVa g) (frameVa gc) (n + 1) addr s =
      sharePages (frameVa g) (frameVa gc) n (addr + pageSize) s := by
  have hz := h.vm.leaf_zero hva habs
  have hlookup := walkPage_lookup h.vm.tables hva.pml hroot
  rw [sharePages, Act.bind_ok hlookup]
  cases ht : tableAt s.mem root p (pathTo addr) with
  | none => rfl
  | some t =>
    have ht' : t < 2 ^ 19 := h.vm.tables.small_of_table ⟨p, _, tablePath_pathTo hva.pml, ht⟩
    simp only [Option.map_some]
    rw [Act.bind_ok (load_leaf ht'), ← leaf_of_tableAt ht, if_pos hz]

/-- At a mapped page it comes to `insert_page`. -/
theorem SharedTo.turn_insert (h : SharedTo root kdir p q s₀ s addr) (hroot : root p = some g)
    (hva : UserVa addr) (hf : target (leaf s.mem root p addr) = some f) (gc n : Nat) :
    ∃ rest : Int → Act Mm Int, (∀ r, Act.Within Mm.Starves (rest r)) ∧
      sharePages (frameVa g) (frameVa gc) (n + 1) addr s =
        (insertPage (frameVa gc) addr (some f) (pteU ||| pteP ||| pteCow) >>= rest) s ∧
      ∀ {t s₁}, tableAt s.mem root p (pathTo addr) = some t →
        Mem.entry s₁.mem t (pteIndex addr) = leaf s.mem root p addr →
        rest 0 s₁ = sharePages (frameVa g) (frameVa gc) n (addr + pageSize)
          ((s₁.setCount f (int32 (s₁.count f + 1))).setLeaf t addr
            (f <<< pteShift ||| (pteU ||| pteP ||| pteCow))) := by
  have hne : leaf s.mem root p addr ≠ 0 := fun hz => by rw [hz, target_zero] at hf; cases hf
  obtain ⟨t, ht⟩ := tableAt_of_leaf hne
  have ht' : t < 2 ^ 19 := h.vm.tables.small_of_table ⟨p, _, tablePath_pathTo hva.pml, ht⟩
  have hshift : leaf s.mem root p addr >>> pteShift = leaf s.mem root p addr / pageSize :=
    Nat.shiftRight_eq_div_pow _ _
  have hframe : leaf s.mem root p addr >>> pteShift = f := by
    rw [target, if_pos (h.vm.flags hva hne).1] at hf
    rw [hshift]
    exact Option.some.inj hf
  have hback : leaf s.mem root p addr / pageSize * pageSize ||| pteU ||| pteP ||| pteCow =
      f <<< pteShift ||| (pteU ||| pteP ||| pteCow) := by
    rw [Nat.or_assoc, Nat.or_assoc, ← hshift, hframe, Nat.shiftLeft_eq, ← Nat.or_assoc pteU pteP]
    rfl
  refine ⟨fun r => if r < 0 then pure r else do
      sharePage f
      let e ← load 8 (leafVa t addr)
      store 8 (leafVa t addr) (e / pageSize * pageSize ||| pteU ||| pteP ||| pteCow)
      sharePages (frameVa g) (frameVa gc) n (addr + pageSize), fun r => ?_, ?_,
    fun {t' s₁} htab hentry => ?_⟩
  · show Act.Within Mm.Starves (if _ then _ else _)
    split
    · exact Starves.pure r
    · exact Starves.bind (Starves.modify fun s => Starves.refl s) fun _ =>
        Starves.bind (Starves.load 8 _) fun e =>
          Starves.bind (Starves.store 8 _ _) fun _ => sharePages_starves _ _ _ _
  · rw [sharePages, Act.bind_ok (walkPage_lookup h.vm.tables hva.pml hroot), ht]
    simp only [Option.map_some]
    rw [Act.bind_ok (load_leaf ht'), ← leaf_of_tableAt ht, if_neg hne, hframe]
  · rw [ht] at htab
    cases htab
    have hload : load 8 (leafVa t addr) (s₁.setCount f (int32 (s₁.count f + 1))) =
        .ok (leaf s.mem root p addr) (s₁.setCount f (int32 (s₁.count f + 1))) := by
      rw [load_leaf ht', Mm.setCount_mem, hentry]
    simp only [if_neg (show ¬ (0 : Int) < 0 by decide), sharePage, Act.modify_bind_apply]
    rw [Act.bind_ok hload, Act.bind_ok (store_leaf ht'), hback]

/-- TURN: a mapped page is shared, and the loop goes on with the next. Only
`insert_page` takes frames. -/
theorem SharedTo.turn (h : SharedTo root kdir p q s₀ s addr) (hpq : p ≠ q)
    (hroot : root p = some g) (hrootq : root q = some gc) (hva : UserVa addr)
    (hpage : addr % pageSize = 0) (hf : target (leaf s.mem root p addr) = some f)
    (hns : (insertPage (frameVa gc) addr (some f) (pteU ||| pteP ||| pteCow) s).state.starved
      = false) (n : Nat) :
    ∃ s₁ s', insertPage (frameVa gc) addr (some f) (pteU ||| pteP ||| pteCow) s = .ok 0 s₁ ∧
      sharePages (frameVa g) (frameVa gc) (n + 1) addr s =
        sharePages (frameVa g) (frameVa gc) n (addr + pageSize) s' ∧
      SharedTo root kdir p q s₀ s' (addr + pageSize) ∧ s'.starved = s₁.starved ∧
      ∀ k, s₁.Free k → s'.Free k := by
  have hne : leaf s.mem root p addr ≠ 0 := fun hz => by rw [hz, target_zero] at hf; cases hf
  obtain ⟨t, ht⟩ := tableAt_of_leaf hne
  obtain ⟨s₁, tc, hrun, htc, htp, hsame, hcount, hstep⟩ := h.step hpq hrootq hva hpage ht hf hns
  obtain ⟨rest, -, heq, hrest⟩ := h.turn_insert hroot hva hf gc n
  refine ⟨_, _, hrun, ?_, hstep, rfl, fun k hk => ⟨hk.1, ?_⟩⟩
  · rw [heq, Act.bind_ok hrun]
    refine hrest ht ?_
    rw [setLeaf_entry (pteIndex_lt addr), if_neg fun hk => htc hk.1, ← leaf_of_tableAt htp, hsame]
  · have hkf : k ≠ f := by
      rintro rfl
      exact hcount hk.2
    show (Mm.setCount _ f _).count k = 0
    rw [Mm.setCount_count, if_neg hkf]
    exact hk.2

/-- RUN: the loop shares every page up to its end. -/
theorem sharePages_run (hpq : p ≠ q) (hroot : root p = some g) (hrootq : root q = some gc)
    {turns : Nat} (h : SharedTo root kdir p q s₀ s addr) (hpage : addr % pageSize = 0)
    (hlo : utext ≤ addr) (hhi : addr + pageSize * turns ≤ ustacktop)
    (hns : (sharePages (frameVa g) (frameVa gc) turns addr s).state.starved = false) :
    ∃ s', sharePages (frameVa g) (frameVa gc) turns addr s = .ok 0 s' ∧
      SharedTo root kdir p q s₀ s' (addr + pageSize * turns) := by
  induction turns generalizing s addr with
  | zero => exact ⟨s, rfl, h⟩
  | succ turns ih =>
    have hva : UserVa addr := by
      refine ⟨hlo, ?_⟩
      unfold pageSize at hhi
      omega
    have hnext : (addr + pageSize) % pageSize = 0 := by rw [Nat.add_mod_right, hpage]
    have hlo' : utext ≤ addr + pageSize := Nat.le_add_right_of_le hlo
    have hsum : addr + pageSize + pageSize * turns = addr + pageSize * (turns + 1) := by
      rw [Nat.mul_succ]
      omega
    have hhi' : addr + pageSize + pageSize * turns ≤ ustacktop := by
      rw [hsum]
      exact hhi
    rw [← hsum]
    cases hf : target (leaf s.mem root p addr) with
    | none =>
      rw [h.turn_absent hroot hva hf] at hns ⊢
      exact ih (h.skip hpq hpage hf) hnext hlo' hhi' hns
    | some f =>
      obtain ⟨rest, hrest, heq, -⟩ := h.turn_insert hroot hva hf gc turns
      rw [heq] at hns
      obtain ⟨s₁, s', -, hturn, h', -⟩ := h.turn hpq hroot hrootq hva hpage hf
        (Starves.of_bind hrest hns) turns
      rw [← heq, hturn] at hns
      rw [hturn]
      exact ih h' hnext hlo' hhi' hns

/-! ## The directory -/

/-- `alloc_vm` gives a process without a directory an empty one. -/
theorem allocVm_run (h : Vm s root kdir ∅) (hq : q < maxProc) (hrootq : root q = none)
    (hns : (allocVm (frameVa kdir) s).state.starved = false) :
    ∃ n s', allocVm (frameVa kdir) s = .ok (frameVa n) s' ∧
      Vm s' (Function.update root q (some n)) kdir ∅ ∧ s'.cr3 = s.cr3 ∧
      (∀ p' va, UserVa va → view s'.mem (Function.update root q (some n)) p' va =
        if p' = q then 0 else view s.mem root p' va) ∧
      ∀ p' va, UserVa va → leaf s'.mem (Function.update root q (some n)) p' va =
        if p' = q then 0 else leaf s.mem root p' va := by
  unfold allocVm at hns ⊢
  obtain ⟨n, hn⟩ := Starves.head_of_allocPage (Starves.of_bind (fun o => by
    cases o with
    | none => exact Starves.pure _
    | some p =>
      exact Starves.bind (Starves.gets _) fun dir =>
        Starves.bind (Starves.memcpy dir _ _) fun _ => Starves.pure dir) hns)
  have hn' := (h.tables.head hn).2
  have halloc : allocPage 1 s = .ok (some n) (s.taken pgzero n) := allocPage_some hn hn'
  obtain ⟨h₁, hgrown, hnh, hr, hfree, -⟩ := h.taken hn
  have hmem := Finset.mem_insert_self n (∅ : Finset Nat)
  obtain ⟨hlt, hnt, hk, -⟩ := h₁.held_frame hmem
  obtain ⟨m, hcopy, hother, hbytes⟩ := memcpy_frame (s := s.taken pgzero n) hn'
    (h₁.frame_lt h₁.kdirUse.1) (Ne.symm hk)
  -- the new directory is the copy; its lower half is empty, as the kernel's is
  have h₂ := h₁.bytes hnt hk hother
  have hempty : ∀ {i}, i < userTop → Mem.entry m n i = 0 := by
    intro i hi
    rw [← h₁.kdirLow hi]
    refine Mem.rd_shift fun j hj => ?_
    have hin : 8 * i + j < pageSize := by
      unfold userTop at hi
      unfold pageSize
      omega
    rw [Nat.add_assoc, Nat.add_assoc, hbytes _ hin]
  have hleaf₂ : ∀ {p' va}, UserVa va → leaf m root p' va = leaf s.mem root p' va := fun hva => by
    rw [leaf_bytes hnt hother hva.lt, hgrown.leaf hva.pml]
  have hr₂ : userRefs m root n = 0 := by
    rw [userRefs_congr fun p' va _ hva => leaf_bytes hnt hother (UserVa.lt hva), hr]
  have h₃ := h₂.plant hmem hq hrootq hr₂ hempty
  rw [Finset.erase_insert hnh] at h₃
  rw [Act.bind_ok halloc]
  simp only [Act.gets_bind_apply, Mm.page2va_some hn']
  rw [Act.bind_ok hcopy]
  refine ⟨n, _, rfl, h₃, hgrown.cr3, fun p' va hva => ?_, fun p' va hva => ?_⟩
  · rw [view_plant (s := (s.taken pgzero n).setMem m) hempty hva, Mm.setMem_mem]
    by_cases hp : p' = q
    · rw [if_pos hp, if_pos hp]
    · rw [if_neg hp, if_neg hp, view_bytes hnt hother hva, if_neg, h.view_grown hgrown hva]
      intro hmap
      have := h₁.refs_pos hva hmap
      omega
  · rw [leaf_plant (s := (s.taken pgzero n).setMem m) hempty hva.lt, Mm.setMem_mem]
    by_cases hp : p' = q
    · rw [if_pos hp, if_pos hp]
    · rw [if_neg hp, if_neg hp, hleaf₂ hva]

/-! ## The stack -/

/-- `sys_fork`'s stack page: the new process gets a frame with the bytes of the
caller's stack page. -/
theorem copyStack_run (h : Vm s root kdir ∅) (hroot : root p = some g) (hrootq : root q = some gc)
    (hcr3 : s.cr3 = pageSize * g) (hf : target (leaf s.mem root p stackPage) = some f)
    (habs : target (leaf s.mem root q stackPage) = none)
    (hns : (copyStack (frameVa gc) s).state.starved = false) :
    ∃ s', copyStack (frameVa gc) s = .ok () s' ∧ Vm s' root kdir ∅ ∧ s'.cr3 = s.cr3 ∧
      (∀ p' va, UserVa va → view s'.mem root p' va =
        if p' = q ∧ va / pageSize = stackPage / pageSize then view s.mem root p va
        else view s.mem root p' va) ∧
      target (leaf s'.mem root q stackPage) ≠ none ∧
      ∀ p' va, UserVa va → ¬ (p' = q ∧ va / pageSize = stackPage / pageSize) →
        leaf s'.mem root p' va = leaf s.mem root p' va := by
  have hva := userVa_stackPage
  have hflags : (pteU ||| pteW ||| pteP) < pageSize ∧ (pteU ||| pteW ||| pteP) &&& pteP ≠ 0 ∧
    (pteU ||| pteW ||| pteP) &&& pteU ≠ 0 := by decide
  obtain ⟨hflag, hp, hu⟩ := hflags
  unfold copyStack at hns ⊢
  obtain ⟨n, hn⟩ := Starves.head_of_allocPage (Starves.of_bind (fun pp => by
    exact Starves.bind (Starves.gets _) fun va => Starves.bind (Starves.memcpy va _ _) fun _ =>
      Starves.bind (insertPage_starves _ _ pp _) fun _ => Starves.pure ()) hns)
  have hn' := (h.tables.head hn).2
  have halloc : allocPage 1 s = .ok (some n) (s.taken pgzero n) := allocPage_some hn hn'
  obtain ⟨h₁, hgrown, hnh, hr, hfree, -⟩ := h.taken hn
  have hleaf₁ : ∀ {p' va}, UserVa va → leaf (s.taken pgzero n).mem root p' va =
      leaf s.mem root p' va := fun hva => hgrown.leaf (UserVa.pml hva)
  have hmem := Finset.mem_insert_self n (∅ : Finset Nat)
  obtain ⟨s₂, hcopy, h₂, hcr3₂, -, hleaf₂, hview₂, hbytes₂⟩ := h₁.memcpy_page hroot
    (hgrown.cr3.trans hcr3) (by decide) hva (by rw [hleaf₁ hva, hf]) hmem hr
  have hcopy' : memcpy (frameVa n) (ustacktop - pageSize) 4096 (s.taken pgzero n) =
      .ok () s₂ := hcopy
  have hr₂ : userRefs s₂.mem root n = 0 := by
    rw [userRefs_congr fun p' va _ hva => hleaf₂ p' va (UserVa.lt hva), hr]
  rw [Act.bind_ok halloc, Act.gets_bind_apply, Mm.page2va_some hn', Act.bind_ok hcopy'] at hns ⊢
  obtain ⟨s', hrun, h', hcr3', hleaf, hview⟩ := h₂.insert hmem hrootq hva
    (by rw [hleaf₂ q _ hva.lt, hleaf₁ hva, habs]) hflag hp hu (fun _ => hr₂)
    (Starves.of_bind (fun _ => Starves.pure ()) hns)
  have hrun' : insertPage (frameVa gc) (ustacktop - pageSize) (some n) (pteU ||| pteW ||| pteP) s₂ =
      .ok 0 s' := hrun
  rw [Act.bind_ok hrun']
  rw [Finset.erase_insert hnh] at h'
  refine ⟨s', rfl, h', by rw [hcr3', hcr3₂, hgrown.cr3], fun p' va hva' => ?_, ?_,
    fun p' va hva' hne => ?_⟩
  · rw [hview p' va hva', hview₂ p' va hva', h.view_grown hgrown hva']
    by_cases hk : p' = q ∧ va / pageSize = stackPage / pageSize
    · have hadd : stackPage + va % pageSize = va := by
        have h2 := hk.2
        unfold stackPage ustacktop pageSize at *
        omega
      rw [if_pos hk, if_pos hk, hbytes₂ _ (Nat.mod_lt _ (by decide)), hadd,
        h.view_grown hgrown hva']
    · rw [if_neg hk, if_neg hk]
  · rw [hleaf q _ hva, if_pos ⟨rfl, rfl⟩, target_leafEntry hflag hp]
    exact Option.some_ne_none n
  · have hleaf' : leaf s'.mem root p' va = leaf s₂.mem root p' va :=
      (hleaf p' va hva').trans (if_neg hne)
    rw [hleaf', hleaf₂ p' va hva'.lt, hleaf₁ hva']

end Vm

end Myos.Kernel
