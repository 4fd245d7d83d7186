import Myos.Kernel.Access

/-!
# Page faults

The page-fault case of `do_trap` (`kernel/amd64/trap.c`), and what it does
to the address spaces: a page that is not present gets a zeroed frame, a
page that may not be written gets a frame of its own with the bytes of the
one it mapped. What the processes see stays as it was.
-/

namespace Myos.Kernel

open Myos.Lib

def pfecU : Nat := 0x4
def pfecW : Nat := 0x2
def pfecP : Nat := 0x1

/-- `case 14` of `do_trap`, for a fault in user mode; `pgdir` is that of
`current`, if there is one. -/
def pageFault (pgdir : Option Nat) (cr2 errCode : Nat) : Act Mm Unit := do
  let cr2 := cr2 / pageSize * pageSize
  if errCode &&& pfecP = 0 then do
    let pp ← allocPage 1
    let dir ← Act.deref pgdir
    let _ ← insertPage dir cr2 pp (pteU ||| pteP ||| pteW)
    return ()
  else if errCode &&& pfecW ≠ 0 then do
    let pp ← allocPage 1
    let va ← Act.gets fun s => s.page2va pp
    memcpy va cr2 4096
    let dir ← Act.deref pgdir
    let _ ← removePage dir cr2
    let _ ← insertPage dir cr2 pp (pteU ||| pteP ||| pteW)
    return ()
  else return ()

/-- The error code the processor pushes for a fault in user mode. -/
def faultCode (w : Bool) : Xlate → Option Nat
  | .ok _ => none
  | .notPresent => some (pfecU ||| if w then pfecW else 0)
  | .denied => some (pfecU ||| (if w then pfecW else 0) ||| pfecP)

/-! ## A page inserted, a page removed -/

section Entry

variable {n flag : Nat}

/-- The entry that `insert_page` stores. -/
theorem leafEntry_eq (hflag : flag < pageSize) :
    n <<< pteShift ||| flag = pageSize * n + flag := by
  rw [← Nat.shiftLeft_add_eq_or_of_lt hflag, Nat.shiftLeft_eq]
  unfold pteShift pageSize
  omega

theorem land_leafEntry (hflag : flag < pageSize) {k : Nat} (hk : k < pageSize) :
    (n <<< pteShift ||| flag) &&& k = flag &&& k := by
  rw [leafEntry_eq hflag, land_low hk, Nat.mul_add_mod, Nat.mod_eq_of_lt hflag]

theorem target_leafEntry (hflag : flag < pageSize) (hp : flag &&& pteP ≠ 0) :
    target (n <<< pteShift ||| flag) = some n := by
  have hp' : (n <<< pteShift ||| flag) &&& pteP ≠ 0 := by
    rwa [land_leafEntry hflag (by decide)]
  rw [target, if_pos hp', leafEntry_eq hflag]
  unfold pageSize at *
  congr 1
  omega

theorem leafEntry_lt (hflag : flag < pageSize) (hn : n < 2 ^ 19) :
    n <<< pteShift ||| flag < 2 ^ 64 := by
  rw [leafEntry_eq hflag]
  unfold pageSize at *
  omega

end Entry

namespace Vm

variable {s : Mm} {root : Nat → Option Nat} {kdir : Nat} {held : Finset Nat}
variable {p g va f n flag : Nat}

/-- INSERT: a held frame is mapped at a page that has none. -/
theorem insert (h : Vm s root kdir held) (hn : n ∈ held) (hroot : root p = some g)
    (hva : UserVa va) (habs : target (leaf s.mem root p va) = none) (hflag : flag < pageSize)
    (hp : flag &&& pteP ≠ 0) (hu : flag &&& pteU ≠ 0)
    (hw : flag &&& pteW ≠ 0 → userRefs s.mem root n = 0)
    (hns : (insertPage (frameVa g) va (some n) flag s).state.starved = false) :
    ∃ s', insertPage (frameVa g) va (some n) flag s = .ok 0 s' ∧
      Vm s' root kdir (held.erase n) ∧ s'.cr3 = s.cr3 ∧
      (∀ p' va', UserVa va' → leaf s'.mem root p' va' =
        if p' = p ∧ va' / pageSize = va / pageSize then n <<< pteShift ||| flag
        else leaf s.mem root p' va') ∧
      ∀ p' va', UserVa va' → view s'.mem root p' va' =
        if p' = p ∧ va' / pageSize = va / pageSize then s.mem (pageSize * n + va' % pageSize)
        else view s.mem root p' va' := by
  obtain ⟨s₁, t, ht, hgrown, halong, htt, hrun⟩ := insertPage_run h.tables userEntry hva.pml hroot hns
  have h₁ := h.grown ht hgrown
  obtain ⟨hlt, hnt, -, hc⟩ := h.held_frame hn
  obtain ⟨-, hnt₁, -, hc₁⟩ := h₁.held_frame hn
  have hfree := h.held_not_free hn
  have htarget := target_leafEntry (n := n) hflag hp
  have he := leafEntry_lt hflag (h.frame_lt hlt)
  have hleaf₁ : ∀ {p' va'}, UserVa va' → leaf s₁.mem root p' va' = leaf s.mem root p' va' :=
    fun hva' => hgrown.leaf hva'.pml
  have hset : Vm (s₁.setLeaf t va (n <<< pteShift ||| flag)) root kdir (held.erase n) := by
    refine h₁.setLeaf hva htt he (fun _ => ?_) (fun k => ?_) fun k hk hkw => ?_
    · rw [land_leafEntry hflag (by decide), land_leafEntry hflag (by decide)]
      exact ⟨hp, hu⟩
    · rw [htarget, hleaf₁ hva, habs]
      simp only [reduceCtorEq, if_false, Option.some.injEq, Nat.add_zero]
      exact hold_erase hn
    · rw [htarget] at hk
      cases hk
      rw [land_leafEntry hflag (by decide)] at hkw
      have hz := hw hkw
      rw [hc₁, userRefs_congr fun p va _ hva => (hleaf₁ hva : leaf s₁.mem root p va = _), hz]
      rfl
  refine ⟨_, hrun, hset, hgrown.cr3, fun p' va' hva' => ?_, fun p' va' hva' => ?_⟩
  · by_cases hk : p' = p ∧ va' / pageSize = va / pageSize
    · rw [if_pos hk, hk.1, ht.leaf_setLeaf_same hva.pml htt he hk.2]
    · rw [if_neg hk, ht.leaf_setLeaf_other hva.pml (lt_48_of_47 hva.lt) htt _ hva'.pml
        (lt_48_of_47 hva'.lt) hk, hleaf₁ hva']
  · rw [h₁.view_setLeaf hva htt he (fun k hk => by rw [htarget] at hk; cases hk; exact hnt₁) hva',
      htarget]
    by_cases hk : p' = p ∧ va' / pageSize = va / pageSize
    · rw [if_pos hk, if_pos hk]
      exact hgrown.bytes hfree hnt (Nat.mod_lt _ (by decide))
    · rw [if_neg hk, if_neg hk, h.view_grown hgrown hva']

/-- REMOVE: a mapped page loses its frame, and the frame one reference. -/
theorem remove (h : Vm s root kdir held) (hroot : root p = some g) (hva : UserVa va)
    (hf : target (leaf s.mem root p va) = some f) (hfh : f ∉ held) :
    ∃ s', removePage (frameVa g) va s = .ok 0 s' ∧ Vm s' root kdir held ∧
      s'.cr3 = s.cr3 ∧ s'.starved = s.starved ∧
      (∀ p' va', va' < 2 ^ 47 → leaf s'.mem root p' va' =
        if p' = p ∧ va' / pageSize = va / pageSize then 0 else leaf s.mem root p' va') ∧
      (∀ p' va', UserVa va' → view s'.mem root p' va' =
        if p' = p ∧ va' / pageSize = va / pageSize then 0 else view s.mem root p' va') ∧
      (∀ k, userRefs s'.mem root k = userRefs s.mem root k - if k = f then 1 else 0) ∧
      ∀ k o, ¬ IsTable userTop s.mem root k → o < pageSize →
        s'.mem (pageSize * k + o) = s.mem (pageSize * k + o) := by
  have hne : leaf s.mem root p va ≠ 0 := fun hz => by rw [hz, target_zero] at hf; cases hf
  obtain ⟨t, ht⟩ := tableAt_of_leaf hne
  have hpos : 0 < userRefs s.mem root f + hold held f := Nat.add_pos_left (h.refs_pos hva hf) _
  obtain ⟨h1, h2⟩ := h.count_lt hpos
  have hrun := removePage_present h.tables hva.pml hroot ht hf h1 h2
  have hz : (0 : Nat) < 2 ^ 64 := Nat.two_pow_pos 64
  -- the leaf is cleared first, and the code holds the reference it frees next
  have hset : Vm (s.setLeaf t va 0) root kdir (held ∪ {f}) := by
    have hunion : held ∪ {f} = Insert.insert f held := by
      rw [Finset.union_comm, Finset.insert_eq]
    rw [hunion]
    refine h.setLeaf hva ht hz (fun hne => absurd rfl hne) (fun k => ?_) fun k hk => by
      rw [target_zero] at hk; cases hk
    rw [hold_insert hfh, target_zero, hf]
    simp only [reduceCtorEq, if_false, Option.some.injEq, Nat.add_zero]
  have hmem : f ∈ held ∪ {f} := Finset.mem_union_right _ (Finset.mem_singleton_self f)
  have hfree := hset.free hmem
  have herase : (held ∪ {f}).erase f = held := by
    rw [Finset.union_comm, ← Finset.insert_eq, Finset.erase_insert hfh]
  rw [herase] at hfree
  have hcomm : (s.setLeaf t va 0).freed f = (s.freed f).setLeaf t va 0 := by
    rw [Mm.setLeaf, Mm.freed_setMem, Mm.setLeaf, Mm.freed_mem]
  have hmem' : ((s.freed f).setLeaf t va 0).mem = (s.setLeaf t va 0).mem := by
    rw [← hcomm, Mm.freed_mem]
  rw [hcomm] at hfree
  refine ⟨_, hrun, hfree, Mm.freed_cr3 s f, Mm.freed_starved s f, fun p' va' hva' => ?_,
    fun p' va' hva' => ?_, fun k => ?_, fun k o hk ho => ?_⟩
  · rw [hmem']
    by_cases hk : p' = p ∧ va' / pageSize = va / pageSize
    · rw [if_pos hk, hk.1, h.tables.leaf_setLeaf_same hva.pml ht hz hk.2]
    · rw [if_neg hk, h.tables.leaf_setLeaf_other hva.pml (lt_48_of_47 hva.lt) ht _
        (pmlIndex_lt_userTop hva') (lt_48_of_47 hva') hk]
  · rw [hmem', h.view_setLeaf hva ht hz (fun k hk => by rw [target_zero] at hk; cases hk) hva',
      target_zero]
  · have hupd := h.refs_setLeaf hva ht hz k
    rw [target_zero, hf] at hupd
    simp only [reduceCtorEq, if_false, Option.some.injEq, Nat.add_zero] at hupd
    rw [hmem']
    by_cases hk : k = f
    · rw [if_pos hk.symm] at hupd
      rw [if_pos hk]
      omega
    · rw [if_neg (Ne.symm hk)] at hupd
      rw [if_neg hk]
      omega
  · rw [hmem']
    exact setLeaf_bytes ho fun hkt => hk (hkt ▸ ⟨p, _, tablePath_pathTo hva.pml, ht⟩)

/-- And a frame that was free stays so. -/
theorem remove_free (h : Vm s root kdir held) (hroot : root p = some g) (hva : UserVa va)
    (hf : target (leaf s.mem root p va) = some f) {r : Int} {s' : Mm}
    (hrun : removePage (frameVa g) va s = .ok r s') {k : Nat} (hk : s.Free k) : s'.Free k := by
  have hne : leaf s.mem root p va ≠ 0 := fun hz => by rw [hz, target_zero] at hf; cases hf
  obtain ⟨t, ht⟩ := tableAt_of_leaf hne
  obtain ⟨h1, h2⟩ := h.count_lt (Nat.add_pos_left (h.refs_pos hva hf) _)
  rw [removePage_present h.tables hva.pml hroot ht hf h1 h2] at hrun
  cases hrun
  refine ⟨hk.1.trans_eq (Mm.freed_npages s f).symm, ?_⟩
  show (s.freed f).count k = 0
  rw [Mm.freed_count h1 h2, if_neg, hk.2]
  rintro rfl
  exact h.mapped_not_free hva hf hk

/-- A copy of a mapped page of the running process into a held frame. -/
theorem memcpy_page (h : Vm s root kdir held) (hroot : root p = some g)
    (hcr3 : s.cr3 = pageSize * g) (hpage : va % pageSize = 0) (hva : UserVa va)
    (hf : target (leaf s.mem root p va) = some f) (hn : n ∈ held)
    (hr : userRefs s.mem root n = 0) :
    ∃ s', memcpy (frameVa n) va pageSize s = .ok () s' ∧ Vm s' root kdir held ∧
      s'.cr3 = s.cr3 ∧ s'.starved = s.starved ∧
      (∀ p' va', va' < 2 ^ 47 → leaf s'.mem root p' va' = leaf s.mem root p' va') ∧
      (∀ p' va', UserVa va' → view s'.mem root p' va' = view s.mem root p' va') ∧
      ∀ o, o < pageSize → s'.mem (pageSize * n + o) = view s.mem root p (va + o) := by
  obtain ⟨hlt, hnt, hk, -⟩ := h.held_frame hn
  have hfn : f ≠ n := by
    rintro rfl
    have := h.refs_pos hva hf
    omega
  have hoff : ∀ o, o < pageSize → UserVa (va + o) ∧ (va + o) / pageSize = va / pageSize ∧
      (va + o) % pageSize = o := by
    intro o ho
    have hsame : (va + o) / pageSize = va / pageSize := by
      unfold pageSize at *
      omega
    refine ⟨UserVa.page hsame hva, hsame, ?_⟩
    unfold pageSize at *
    omega
  -- the bytes stored are in a frame that is no table, so no translation moves
  have hother : ∀ {m : Mem}, (∀ x, x < pageSize * n ∨ pageSize * n + pageSize ≤ x →
      m x = s.mem x) → ∀ k o, k ≠ n → o < pageSize →
        m (pageSize * k + o) = s.mem (pageSize * k + o) := by
    intro m hm k o hkn ho
    refine hm _ ?_
    unfold pageSize at *
    omega
  have hkpa : ∀ m : Mem, (∀ x, x < pageSize * n ∨ pageSize * n + pageSize ≤ x → m x = s.mem x) →
      ∀ o, o < pageSize → (s.setMem m).kpa (frameVa n + o) = some (pageSize * n + o) ∧
        (s.setMem m).kpa (va + o) = some (pageSize * f + o) := by
    intro m hm o ho
    obtain ⟨huser, hsame, hmod⟩ := hoff o ho
    have hm' := hother hm
    have hset := h.bytes hnt hk hm'
    refine ⟨Mm.kpa_frameVa (h.frame_lt hlt) ho, ?_⟩
    have hleaf : target (leaf (s.setMem m).mem root p (va + o)) = some f := by
      rw [Mm.setMem_mem, leaf_bytes hnt hm' huser.lt, leaf_page s.mem root p hsame, hf]
    have := hset.kpa_user hroot hcr3 huser hleaf
    rwa [hmod] at this
  have hdisj : pageSize * f + pageSize ≤ pageSize * n ∨ pageSize * n + pageSize ≤ pageSize * f := by
    unfold pageSize
    omega
  have hcopy := hother (m := s.mem.overlay (pageSize * n) pageSize fun i =>
    s.mem (pageSize * f + i)) fun x hx => Mem.overlay_out hx
  refine ⟨_, memcpy_ok hkpa hdisj, h.bytes hnt hk hcopy, rfl, rfl, fun p' va' hva' => ?_,
    fun p' va' hva' => ?_, fun o ho => ?_⟩
  · exact leaf_bytes hnt hcopy hva'
  · rw [Mm.setMem_mem, view_bytes hnt hcopy hva', if_neg]
    intro hmap
    have := h.refs_pos hva' hmap
    omega
  · obtain ⟨huser, hsame, hmod⟩ := hoff o ho
    have hleaf : target (leaf s.mem root p (va + o)) = some f := by
      rw [leaf_page s.mem root p hsame, hf]
    rw [view_eq hleaf, hmod, Mm.setMem_mem, Mem.overlay_in (by omega), Nat.add_sub_cancel_left]

/-! ## The handler -/

/-- What a handled fault comes to: the address spaces are in order, every
process sees what it saw, and the access that faulted goes through. -/
structure Handled (root : Nat → Option Nat) (kdir g va : Nat) (w : Bool) (s s' : Mm) : Prop where
  vm : Vm s' root kdir ∅
  cr3 : s'.cr3 = s.cr3
  view : ∀ {p va}, UserVa va → view s'.mem root p va = Myos.Kernel.view s.mem root p va
  kept : ∀ {p va}, UserVa va → target (leaf s.mem root p va) ≠ none →
    target (leaf s'.mem root p va) ≠ none
  other : ∀ {p va'}, UserVa va' → root p ≠ some g ∨ va' / pageSize ≠ va / pageSize →
    leaf s'.mem root p va' = leaf s.mem root p va'
  done : ∃ pa, mmu s'.mem (pageSize * g) va ⟨true, w⟩ = .ok pa

/-- A user page mapped writable lets the user through. -/
theorem mmu_writable (h : Vm s root kdir held) (hroot : root p = some g) (hva : UserVa va)
    (hf : target (leaf s.mem root p va) = some f) (hw : leaf s.mem root p va &&& pteW ≠ 0)
    (w : Bool) : ∃ pa, mmu s.mem (pageSize * g) va ⟨true, w⟩ = .ok pa := by
  refine ⟨pageSize * f + va % pageSize, ?_⟩
  rw [h.mmu_user hroot hva, hf]
  exact if_pos ((h.permits_user hva hf).mpr fun _ => hw)

/-- The flags of a page the handler maps. -/
theorem faultFlags : (pteU ||| pteP ||| pteW) < pageSize ∧ (pteU ||| pteP ||| pteW) &&& pteP ≠ 0 ∧
    (pteU ||| pteP ||| pteW) &&& pteU ≠ 0 ∧ (pteU ||| pteP ||| pteW) &&& pteW ≠ 0 := by decide

theorem other_page (hroot : root p = some g) {cr2 p' va' : Nat}
    (hsame : cr2 / pageSize = va / pageSize)
    (hne : root p' ≠ some g ∨ va' / pageSize ≠ va / pageSize) :
    ¬ (p' = p ∧ va' / pageSize = cr2 / pageSize) := by
  rintro ⟨rfl, hpage⟩
  exact hne.elim (fun h => h hroot) fun h => h (hpage.trans hsame)

/-- DEMAND ZERO: a page that was not present is mapped to a zeroed frame. -/
theorem pageFault_absent (h : Vm s root kdir ∅) (hroot : root p = some g) (hva : UserVa va)
    (habs : target (leaf s.mem root p va) = none) {errCode : Nat} (herr : errCode &&& pfecP = 0)
    (w : Bool) (hns : (pageFault (some (frameVa g)) va errCode s).state.starved = false) :
    ∃ s', pageFault (some (frameVa g)) va errCode s = .ok () s' ∧
      Handled root kdir g va w s s' := by
  have hcr2 := userVa_of_page hva
  have hsame : va / pageSize * pageSize / pageSize = va / pageSize :=
    Nat.mul_div_cancel _ (by decide)
  obtain ⟨hflag, hp, hu, hw⟩ := faultFlags
  unfold pageFault at hns ⊢
  simp only [if_pos herr] at hns ⊢
  obtain ⟨n, hn⟩ := Starves.head_of_allocPage (Starves.of_bind (fun pp => by
    exact Starves.bind (fun s => Starves.refl s) fun dir =>
      Starves.bind (insertPage_starves dir _ pp _) fun _ => Starves.pure ()) hns)
  have halloc : allocPage 1 s = .ok (some n) (s.taken pgzero n) :=
    allocPage_some hn (h.tables.head hn).2
  obtain ⟨h₁, hgrown, hnh, hr, hfree, hzero⟩ := h.taken hn
  rw [Act.bind_ok halloc, Act.deref_bind_apply] at hns ⊢
  have hleaf₁ : leaf (s.taken pgzero n).mem root p (va / pageSize * pageSize) =
      leaf s.mem root p va := by
    rw [hgrown.leaf hcr2.pml, leaf_page s.mem root p hsame]
  obtain ⟨s', hrun, h', hcr3, hleaf, hview⟩ := h₁.insert (Finset.mem_insert_self n ∅) hroot hcr2
    (by rw [hleaf₁, habs]) hflag hp hu (fun _ => hr)
    (Starves.of_bind (fun _ => Starves.pure ()) hns)
  rw [Act.bind_ok hrun]
  have hheld : (Insert.insert n ∅ : Finset Nat).erase n = ∅ := Finset.erase_insert hnh
  rw [hheld] at h'
  have hnew : leaf s'.mem root p va = n <<< pteShift ||| (pteU ||| pteP ||| pteW) := by
    rw [hleaf p va hva, if_pos ⟨rfl, hsame.symm⟩]
  refine ⟨s', rfl, h', hcr3.trans hgrown.cr3, fun {p' va'} hva' => ?_, fun {p' va'} hva' hm => ?_,
    fun {p' va'} hva' hne => ?_, h'.mmu_writable hroot hva (hnew ▸ target_leafEntry hflag hp)
      (by rw [hnew, land_leafEntry hflag (by decide)]; exact hw) w⟩
  · rw [hview p' va' hva', h.view_grown hgrown hva']
    split
    · next hk =>
      rw [hk.1, view_none (by rw [leaf_page s.mem root p (hk.2.trans hsame), habs])]
      exact hzero _ (Nat.mod_lt _ (by decide))
    · rfl
  · rw [hleaf p' va' hva']
    split
    · rw [target_leafEntry hflag hp]
      exact Option.some_ne_none n
    · rwa [hgrown.leaf hva'.pml]
  · rw [hleaf p' va' hva', if_neg (other_page hroot hsame hne), hgrown.leaf hva'.pml]

/-- What the handler has done when it comes to map the frame `n` instead: the
page is mapped no more, and the frame holds what it showed. -/
structure Detached (root : Nat → Option Nat) (kdir p va n : Nat) (s s' : Mm) : Prop where
  vm : Vm s' root kdir {n}
  cr3 : s'.cr3 = s.cr3
  starved : s'.starved = s.starved
  refs : userRefs s'.mem root n = 0
  leaf : ∀ {p' va'}, UserVa va' → leaf s'.mem root p' va' =
    if p' = p ∧ va' / pageSize = va / pageSize then 0 else Myos.Kernel.leaf s.mem root p' va'
  view : ∀ {p' va'}, UserVa va' → ¬ (p' = p ∧ va' / pageSize = va / pageSize) →
    view s'.mem root p' va' = Myos.Kernel.view s.mem root p' va'
  bytes : ∀ {va'}, UserVa va' → va' / pageSize = va / pageSize →
    s'.mem (pageSize * n + va' % pageSize) = Myos.Kernel.view s.mem root p va'
  free : ∀ {k}, k ≠ n → s.Free k → s'.Free k

theorem pageFault_detaches (h : Vm s root kdir ∅) (hroot : root p = some g)
    (hcr3 : s.cr3 = pageSize * g) (hva : UserVa va)
    (hf : target (leaf s.mem root p va) = some f) {errCode : Nat} (herr : errCode &&& pfecP ≠ 0)
    (herr' : errCode &&& pfecW ≠ 0) (hn : s.phead = some n) :
    ∃ s', pageFault (some (frameVa g)) va errCode s =
        (insertPage (frameVa g) (va / pageSize * pageSize) (some n) (pteU ||| pteP ||| pteW) >>=
          fun _ => pure ()) s' ∧
      Detached root kdir p va n s s' := by
  have hcr2 := userVa_of_page hva
  have hsame : va / pageSize * pageSize / pageSize = va / pageSize :=
    Nat.mul_div_cancel _ (by decide)
  have hn' := (h.tables.head hn).2
  have halloc : allocPage 1 s = .ok (some n) (s.taken pgzero n) := allocPage_some hn hn'
  obtain ⟨h₁, hgrown, hnh, hr, hfree, -⟩ := h.taken hn
  have hleaf₁ : leaf (s.taken pgzero n).mem root p (va / pageSize * pageSize) =
      leaf s.mem root p va := by
    rw [hgrown.leaf hcr2.pml, leaf_page s.mem root p hsame]
  have hmem := Finset.mem_insert_self n (∅ : Finset Nat)
  have hfn : f ≠ n := by
    rintro rfl
    exact h.mapped_not_free hva hf hfree
  -- the frame is filled with what the page shows
  obtain ⟨s₂, hcopy, h₂, hcr3₂, hst₂, hleaf₂, hview₂, hbytes₂⟩ := h₁.memcpy_page hroot
    (hgrown.cr3.trans hcr3) (Nat.mul_mod_left _ _) hcr2 (by rw [hleaf₁, hf]) hmem hr
  have hcopy' : memcpy (frameVa n) (va / pageSize * pageSize) 4096 (s.taken pgzero n) =
      .ok () s₂ := hcopy
  have hmap₂ : target (leaf s₂.mem root p (va / pageSize * pageSize)) = some f := by
    rw [hleaf₂ p _ hcr2.lt, hleaf₁, hf]
  have hr₂ : userRefs s₂.mem root n = 0 := by
    rw [userRefs_congr fun p va _ hva => hleaf₂ p va (UserVa.lt hva), hr]
  have hfree₂ : ∀ {k}, k ≠ n → s.Free k → s₂.Free k := fun {k} hkn hk => by
    obtain ⟨m, hm⟩ := memcpy_state (frameVa n) (va / pageSize * pageSize) 4096 (s.taken pgzero n)
    have hs₂ : s₂ = (s.taken pgzero n).setMem m := by
      rw [← hm, hcopy']
      rfl
    rw [hs₂]
    refine ⟨hk.1.trans_eq (Mm.taken_npages s pgzero n).symm, ?_⟩
    rw [Mm.setMem_count, Mm.taken_count, if_neg hkn]
    exact hk.2
  -- the page lets go of the shared frame
  obtain ⟨s₃, hremove, h₃, hcr3₃, hst₃, hleaf₃, hview₃, hrefs₃, hbytes₃⟩ := h₂.remove hroot hcr2
    hmap₂ (by simpa using hfn)
  refine ⟨s₃, ?_, h₃, by rw [hcr3₃, hcr3₂, hgrown.cr3], by rw [hst₃, hst₂, hgrown.starved],
    by rw [hrefs₃, hr₂, Nat.zero_sub], fun {p' va'} hva' => ?_, fun {p' va'} hva' hk => ?_,
    fun {va'} hva' hpage => ?_,
    fun {k} hkn hk => h₂.remove_free hroot hcr2 hmap₂ hremove (hfree₂ hkn hk)⟩
  · unfold pageFault
    simp only [if_neg herr, if_pos herr']
    rw [Act.bind_ok halloc, Act.gets_bind_apply, Mm.page2va_some hn', Act.bind_ok hcopy',
      Act.deref_bind_apply, Act.bind_ok hremove]
  · rw [hleaf₃ p' va' hva'.lt, hsame, hleaf₂ p' va' hva'.lt, hgrown.leaf hva'.pml]
  · rw [hview₃ p' va' hva', hsame, if_neg hk, hview₂ p' va' hva', h.view_grown hgrown hva']
  · have hadd : va / pageSize * pageSize + va' % pageSize = va' := by
      unfold pageSize at *
      omega
    have hmod : va' % pageSize < pageSize := Nat.mod_lt _ (by decide)
    rw [hbytes₃ n _ (h₂.held_frame hmem).2.1 hmod, hbytes₂ _ hmod, hadd, h.view_grown hgrown hva']

/-- COPY: a page that may not be written is mapped to a frame of its own. -/
theorem pageFault_cow (h : Vm s root kdir ∅) (hroot : root p = some g)
    (hcr3 : s.cr3 = pageSize * g) (hva : UserVa va)
    (hf : target (leaf s.mem root p va) = some f) {errCode : Nat} (herr : errCode &&& pfecP ≠ 0)
    (herr' : errCode &&& pfecW ≠ 0) (w : Bool)
    (hns : (pageFault (some (frameVa g)) va errCode s).state.starved = false) :
    ∃ s', pageFault (some (frameVa g)) va errCode s = .ok () s' ∧
      Handled root kdir g va w s s' := by
  have hcr2 := userVa_of_page hva
  have hsame : va / pageSize * pageSize / pageSize = va / pageSize :=
    Nat.mul_div_cancel _ (by decide)
  obtain ⟨hflag, hp, hu, hw⟩ := faultFlags
  obtain ⟨n, hn⟩ : ∃ n, s.phead = some n := by
    unfold pageFault at hns
    simp only [if_neg herr, if_pos herr'] at hns
    exact Starves.head_of_allocPage (Starves.of_bind (fun pp => by
      exact Starves.bind (Starves.gets _) fun va' => Starves.bind (Starves.memcpy va' _ 4096) fun _ =>
        Starves.bind (fun s => Starves.refl s) fun dir =>
          Starves.bind (removePage_starves dir _) fun _ =>
            Starves.bind (insertPage_starves dir _ pp _) fun _ => Starves.pure ()) hns)
  obtain ⟨s₁, heq, h₁⟩ := h.pageFault_detaches hroot hcr3 hva hf herr herr' hn
  rw [heq] at hns ⊢
  obtain ⟨s', hrun, h', hcr3', hleaf, hview⟩ := h₁.vm.insert (Finset.mem_singleton_self n) hroot hcr2
    (by rw [h₁.leaf hcr2, if_pos ⟨rfl, hsame⟩, target_zero]) hflag hp hu (fun _ => h₁.refs)
    (Starves.of_bind (fun _ => Starves.pure ()) hns)
  rw [Act.bind_ok hrun]
  rw [Finset.erase_singleton] at h'
  rw [hsame] at hleaf hview
  have hnew : leaf s'.mem root p va = n <<< pteShift ||| (pteU ||| pteP ||| pteW) := by
    rw [hleaf p va hva, if_pos ⟨rfl, rfl⟩]
  refine ⟨s', rfl, h', by rw [hcr3', h₁.cr3], fun {p' va'} hva' => ?_,
    fun {p' va'} hva' hm => ?_, fun {p' va'} hva' hne => ?_,
    h'.mmu_writable hroot hva (hnew ▸ target_leafEntry hflag hp)
      (by rw [hnew, land_leafEntry hflag (by decide)]; exact hw) w⟩
  · rw [hview p' va' hva']
    by_cases hk : p' = p ∧ va' / pageSize = va / pageSize
    · rw [if_pos hk, h₁.bytes hva' hk.2, hk.1]
    · rw [if_neg hk, h₁.view hva' hk]
  · rw [hleaf p' va' hva']
    split
    · rw [target_leafEntry hflag hp]
      exact Option.some_ne_none n
    · next hk => rwa [h₁.leaf hva', if_neg hk]
  · have hk := other_page hroot rfl hne
    rw [hleaf p' va' hva', if_neg hk, h₁.leaf hva', if_neg hk]

/-- FAULT: an access of the running process that faults is handled. -/
theorem pageFault_handled (h : Vm s root kdir ∅) (hroot : root p = some g)
    (hcr3 : s.cr3 = pageSize * g) (hva : UserVa va) {w : Bool} {errCode : Nat}
    (hcode : faultCode w (mmu s.mem (pageSize * g) va ⟨true, w⟩) = some errCode)
    (hns : (pageFault (some (frameVa g)) va errCode s).state.starved = false) :
    ∃ s', pageFault (some (frameVa g)) va errCode s = .ok () s' ∧
      Handled root kdir g va w s s' := by
  rw [h.mmu_user hroot hva] at hcode
  cases hf : target (leaf s.mem root p va) with
  | none =>
    rw [hf] at hcode
    cases hcode
    refine h.pageFault_absent hroot hva hf ?_ w hns
    cases w <;> decide
  | some f =>
    rw [hf] at hcode
    by_cases hper : Access.permits ⟨true, w⟩ (leaf s.mem root p va) = true
    · simp only [hper, if_true] at hcode
      cases hcode
    · have hw : w = true := by
        rw [h.permits_user hva hf] at hper
        cases w with
        | true => rfl
        | false => exact absurd (fun h => by cases h) hper
      subst hw
      simp only [hper] at hcode
      cases hcode
      exact h.pageFault_cow hroot hcr3 hva hf (by decide) (by decide) true hns

end Vm

end Myos.Kernel
