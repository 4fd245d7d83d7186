import Myos.Kernel.Access
import Myos.Kernel.Blocks
import Myos.Kernel.Fork

/-!
# Pages for a program

What `create_proc` and `sys_execve` do to the address space they fill: a frame
is taken and mapped at a page that had none, and bytes are copied to user
addresses through the tables of the process.

Neither touches a frame that is in use but no table and no page of a process
(`Plain`): what the kernel keeps there, the image of a program among it, stays
(`Spared`).
-/

namespace Myos.Kernel

open Myos.Lib

/-! ## The kernel's own frames -/

/-- A frame in use that is no table and no page of a process. -/
structure Mm.Plain (s : Mm) (root : Nat → Option Nat) (f : Nat) : Prop where
  used : ¬ s.Free f
  table : ¬ IsTable userTop s.mem root f
  refs : userRefs s.mem root f = 0

/-- The kernel's own frames stay as they are. -/
def Spared (root : Nat → Option Nat) (s s' : Mm) : Prop :=
  ∀ f, s.Plain root f → s'.Plain root f ∧
    ∀ o, o < pageSize → s'.mem (pageSize * f + o) = s.mem (pageSize * f + o)

namespace Spared

variable {root : Nat → Option Nat} {a b c : Mm}

theorem refl (s : Mm) : Spared root s s := fun _ h => ⟨h, fun _ _ => rfl⟩

theorem trans (h : Spared root a b) (h' : Spared root b c) : Spared root a c := fun f hf => by
  obtain ⟨hb, hbytes⟩ := h f hf
  obtain ⟨hc, hbytes'⟩ := h' f hb
  exact ⟨hc, fun o ho => (hbytes' o ho).trans (hbytes o ho)⟩

/-- A byte of such a frame. -/
theorem byte (h : Spared root a b) {x : Nat} (hx : a.Plain root (x / pageSize)) :
    b.mem x = a.mem x := by
  have hbyte := (h _ hx).2 (x % pageSize) (Nat.mod_lt _ (by decide))
  rwa [Nat.div_add_mod] at hbyte

end Spared

/-- What a program's page may be done with. -/
def pageFlags : Nat := pteU ||| pteW ||| pteP

/-- A page of a process that no other page shares. -/
def Own (m : Mem) (root : Nat → Option Nat) (p va : Nat) : Prop :=
  ∃ f, target (leaf m root p va) = some f ∧ leaf m root p va &&& pteW ≠ 0

/-- Taking a frame changes bytes of this frame only. -/
theorem Mm.taken_bytes (s : Mm) (flags : Nat) {n k o : Nat} (hk : k ≠ n) (ho : o < pageSize) :
    (s.taken flags n).mem (pageSize * k + o) = s.mem (pageSize * k + o) := by
  have hmem : (s.taken flags n).mem =
      if flags &&& pgzero ≠ 0 then s.mem.fill (pageSize * n) pageSize 0 else s.mem := by
    unfold Mm.taken
    split <;> rfl
  rw [hmem]
  split
  · rw [Mem.fill, Mem.overlay_out]
    unfold pageSize at *
    omega
  · rfl

namespace Mm.Plain

variable {s : Mm} {root : Nat → Option Nat} {f k n q : Nat}

/-- Bytes of a frame change that is no table. -/
theorem bytes (hk : s.Plain root k) {m : Mem} (hnt : ¬ IsTable userTop s.mem root f)
    (hm : ∀ k o, k ≠ f → o < pageSize → m (pageSize * k + o) = s.mem (pageSize * k + o)) :
    (s.setMem m).Plain root k := by
  have htable : ∀ f, IsTable userTop m root f ↔ IsTable userTop s.mem root f := isTable_congr fun hq =>
    tableAt_congr (fun hpi hg => Mem.entry_congr hpi.last fun o ho =>
      hm _ o (fun hgf => hnt (hgf ▸ ⟨_, _, hpi.init, hg⟩)) ho) hq
  refine ⟨hk.used, fun ht => hk.table ((htable k).mp ht), ?_⟩
  rw [← hk.refs]
  exact userRefs_congr fun p va _ hva => Vm.leaf_bytes hnt hm hva.lt

/-- An empty directory is planted. -/
theorem plant (hk : s.Plain root k) (hkn : k ≠ n) (hroot : root q = none)
    (hempty : ∀ {i}, i < userTop → Mem.entry s.mem n i = 0) :
    s.Plain (Function.update root q (some n)) k := by
  refine ⟨hk.used, ?_, ?_⟩
  · rintro ⟨r, path, hpath, hg⟩
    rw [Vm.tableAt_plant hempty hpath] at hg
    split at hg
    · split at hg
      · exact hkn (Option.some.inj hg).symm
      · cases hg
    · exact hk.table ⟨r, path, hpath, hg⟩
  · rw [← hk.refs]
    refine userRefs_congr fun p va _ hva => ?_
    rw [Vm.leaf_plant hempty hva.lt]
    split
    · next hp =>
      subst hp
      rw [leaf, tableAt, Radix.node, hroot]
      rfl
    · rfl

end Mm.Plain

namespace Vm

variable {s s' : Mm} {root : Nat → Option Nat} {kdir : Nat} {held : Finset Nat}
variable {p g va f n flag : Nat}

/-! ## A frame is taken and mapped -/

/-- TAKE: a frame from the list is the code's, zeroed or not. -/
theorem takenAny (h : Vm s root kdir held) (hn : s.phead = some n) (flags : Nat) :
    Vm (s.taken flags n) root kdir (Insert.insert n held) ∧ n ∉ held ∧ s.Free n ∧
      userRefs (s.taken flags n).mem root n = 0 := by
  obtain ⟨hvm, hgrown, hnh, hrefs, hfree, -⟩ := h.taken hn
  have hheld := hvm.held_frame (Finset.mem_insert_self n held)
  have hmem : ∀ k o, k ≠ n → o < pageSize →
      (s.taken flags n).mem (pageSize * k + o) = (s.taken pgzero n).mem (pageSize * k + o) :=
    fun k o hk ho => (s.taken_bytes flags hk ho).trans (s.taken_bytes pgzero hk ho).symm
  have hset := hvm.bytes hheld.2.1 hheld.2.2.1 hmem
  obtain ⟨l, hl⟩ := h.tables.list
  obtain ⟨l', rfl, -⟩ := hl.phead_some hn
  refine ⟨hset.congr ?_ ⟨l', hl.taken⟩ (fun {f} _ => ?_) fun _ _ => rfl, hnh, hfree, ?_⟩
  · rw [Mm.setMem_npages, Mm.taken_npages, Mm.taken_npages]
  · rw [Mm.setMem_count, Mm.taken_count, Mm.taken_count]
  · rw [← hrefs]
    exact userRefs_congr fun p va _ hva => leaf_bytes hheld.2.1 hmem hva.lt

/-- Taking a frame spares the others. -/
theorem spared_taken (h : Vm s root kdir held) (hn : s.phead = some n) (flags : Nat) :
    ∀ k, s.Plain root k → k ≠ n ∧ (s.taken flags n).Plain root k ∧
      ∀ o, o < pageSize → (s.taken flags n).mem (pageSize * k + o) = s.mem (pageSize * k + o) := by
  intro k hk
  have hfree := (h.tables.head hn).1
  have hkn : k ≠ n := fun hkn => hk.used (hkn ▸ hfree)
  have hentry : ∀ {f i}, IsTable userTop s.mem root f → i < 512 →
      Mem.entry (s.taken flags n).mem f i = Mem.entry s.mem f i := fun {f i} hf hi =>
    Mem.entry_congr hi fun o ho =>
      s.taken_bytes flags (fun hfn => h.tables.not_free hf (hfn ▸ hfree)) ho
  have htable : ∀ f, IsTable userTop (s.taken flags n).mem root f ↔ IsTable userTop s.mem root f :=
    isTable_congr fun hq => tableAt_congr (fun hpi hg => hentry ⟨_, _, hpi.init, hg⟩ hpi.last) hq
  refine ⟨hkn, ⟨fun hf => hk.used ⟨?_, ?_⟩, fun ht => hk.table ((htable k).mp ht), ?_⟩,
    fun o ho => s.taken_bytes flags hkn ho⟩
  · have := hf.1
    rwa [Mm.taken_npages] at this
  · have := hf.2
    rwa [Mm.taken_count, if_neg hkn] at this
  · rw [← hk.refs]
    exact userRefs_congr fun p va _ hva => leaf_congr (fun hg hi => hentry hg hi) hva.lt

/-- Mapping a held frame spares the others. -/
theorem spared_insert (h : Vm s root kdir held) (hroot : root p = some g)
    (hva : UserVa va) (hflag : flag < pageSize) (hp : flag &&& pteP ≠ 0)
    (hrun : insertPage (frameVa g) va (some n) flag s = .ok 0 s')
    (hns : s'.starved = false)
    (hleaf : ∀ p' va', UserVa va' → leaf s'.mem root p' va' =
      if p' = p ∧ va' / pageSize = va / pageSize then n <<< pteShift ||| flag
      else leaf s.mem root p' va') :
    ∀ k, k ≠ n → s.Plain root k → s'.Plain root k ∧
      ∀ o, o < pageSize → s'.mem (pageSize * k + o) = s.mem (pageSize * k + o) := by
  intro k hkn hk
  have hns' : (insertPage (frameVa g) va (some n) flag s).state.starved = false := by
    rw [hrun]
    exact hns
  obtain ⟨s₁, t, ht, hgrown, -, htt, hrun'⟩ := insertPage_run h.tables userEntry hva.pml hroot hns'
  have hs' : s' = s₁.setLeaf t va (n <<< pteShift ||| flag) := by
    rw [hrun] at hrun'
    injection hrun'
  have hkt : k ≠ t := fun hkt => hgrown.not_table hk.used hk.table
    (hkt ▸ ⟨p, _, tablePath_pathTo hva.pml, htt⟩)
  have htable : ∀ f, IsTable userTop s'.mem root f ↔ IsTable userTop s₁.mem root f :=
    isTable_congr fun hq => by
      rw [hs']
      exact ht.setLeaf_tableAt hva.pml htt _ hq
  refine ⟨⟨fun hf => hgrown.not_free hk.used ?_, fun hkt' =>
    hgrown.not_table hk.used hk.table ((htable k).mp hkt'), ?_⟩, fun o ho => ?_⟩
  · rw [hs'] at hf
    exact hf
  · by_contra hne
    obtain ⟨p', va', hp', hva', hf⟩ := userRefs_pos.mp (Nat.pos_of_ne_zero hne)
    rw [hleaf p' va' hva'] at hf
    split at hf
    · rw [target_leafEntry hflag hp] at hf
      exact hkn (Option.some.inj hf).symm
    · have hpos := userRefs_pos.mpr ⟨p', va', hp', hva', hf⟩
      rw [hk.refs] at hpos
      exact Nat.lt_irrefl 0 hpos
  · rw [hs', setLeaf_bytes ho hkt]
    exact hgrown.bytes hk.used hk.table ho

/-- A frame was taken from the list, and perhaps filled. -/
structure InHand (root : Nat → Option Nat) (kdir q : Nat) (s s' : Mm) : Prop where
  vm : Vm s' root kdir (Insert.insert q ∅)
  cr3 : s'.cr3 = s.cr3
  free : s.Free q
  refs : userRefs s'.mem root q = 0
  spared : ∀ k, s.Plain root k → k ≠ q ∧ s'.Plain root k ∧
    ∀ o, o < pageSize → s'.mem (pageSize * k + o) = s.mem (pageSize * k + o)
  leaf : ∀ {p va}, UserVa va → leaf s'.mem root p va = Myos.Kernel.leaf s.mem root p va
  view : ∀ {p va}, UserVa va → view s'.mem root p va = Myos.Kernel.view s.mem root p va

theorem inHand_taken (h : Vm s root kdir ∅) {q : Nat} (hq : s.phead = some q) (flags : Nat) :
    InHand root kdir q s (s.taken flags q) := by
  obtain ⟨hvm, -, hfree, hrefs⟩ := h.takenAny hq flags
  have hqt : ¬ IsTable userTop s.mem root q := fun ht => h.tables.not_free ht hfree
  have hbytes : ∀ k o, k ≠ q → o < pageSize →
      (s.taken flags q).mem (pageSize * k + o) = s.mem (pageSize * k + o) :=
    fun k o hk ho => s.taken_bytes flags hk ho
  refine ⟨hvm, Mm.taken_cr3 s flags q, hfree, hrefs, h.spared_taken hq flags,
    fun hva => leaf_bytes hqt hbytes hva.lt, fun hva => ?_⟩
  rw [view_bytes hqt hbytes hva, if_neg fun hf => h.mapped_not_free hva hf hfree]

/-- A frame, taken from the list and filled with `data`, is mapped at a page. -/
structure MapsPage (root : Nat → Option Nat) (kdir p va q : Nat) (data : Nat → UInt8)
    (s s' : Mm) : Prop where
  vm : Vm s' root kdir ∅
  cr3 : s'.cr3 = s.cr3
  spared : Spared root s s'
  free : s.Free q
  leaf : ∀ {p' va'}, UserVa va' → leaf s'.mem root p' va' =
    if p' = p ∧ va' / pageSize = va / pageSize then q <<< pteShift ||| pageFlags
    else Myos.Kernel.leaf s.mem root p' va'
  view : ∀ {p' va'}, UserVa va' → view s'.mem root p' va' =
    if p' = p ∧ va' / pageSize = va / pageSize then data (va' % pageSize)
    else Myos.Kernel.view s.mem root p' va'

/-- MAP: the frame is mapped at a page that has none. -/
theorem InHand.map {s₁ : Mm} {q : Nat} (h : InHand root kdir q s s₁) (hroot : root p = some g)
    (hva : UserVa va) (habs : Myos.Kernel.leaf s.mem root p va = 0)
    (hns : (insertPage (frameVa g) va (some q) pageFlags s₁).state.starved = false) :
    ∃ s', insertPage (frameVa g) va (some q) pageFlags s₁ = .ok 0 s' ∧
      MapsPage root kdir p va q (fun o => s₁.mem (pageSize * q + o)) s s' := by
  obtain ⟨s', hrun, hvm', hcr3, hleaf, hview⟩ := h.vm.insert (Finset.mem_insert_self q ∅) hroot
    hva (by rw [h.leaf hva, habs, target_zero]) (by decide) (by decide) (by decide)
    (fun _ => h.refs) hns
  rw [hrun] at hns
  rw [Finset.erase_insert (Finset.notMem_empty q)] at hvm'
  refine ⟨s', hrun, hvm', hcr3.trans h.cr3, fun k hk => ?_, h.free, fun {p' va'} hva' => ?_,
    fun {p' va'} hva' => ?_⟩
  · obtain ⟨hkq, hk', hbytes⟩ := h.spared k hk
    obtain ⟨hk'', hbytes'⟩ := h.vm.spared_insert hroot hva (by decide) (by decide) hrun hns hleaf
      k hkq hk'
    exact ⟨hk'', fun o ho => (hbytes' o ho).trans (hbytes o ho)⟩
  · rw [hleaf p' va' hva', h.leaf hva']
  · rw [hview p' va' hva', h.view hva']

/-- `alloc_page`, and `insert_page` of its frame at a page that has none. -/
theorem mapPage (h : Vm s root kdir ∅) (hroot : root p = some g) (hva : UserVa va)
    (habs : Myos.Kernel.leaf s.mem root p va = 0) (flags : Nat)
    (hns : ((allocPage flags >>= fun pp => insertPage (frameVa g) va pp pageFlags) s).state.starved
      = false) :
    ∃ q s', allocPage flags s = .ok (some q) (s.taken flags q) ∧
      insertPage (frameVa g) va (some q) pageFlags (s.taken flags q) = .ok 0 s' ∧
      MapsPage root kdir p va q (fun o => (s.taken flags q).mem (pageSize * q + o)) s s' := by
  obtain ⟨q, hq⟩ := Starves.head_of_allocPage
    (Starves.of_bind (fun pp => insertPage_starves (frameVa g) va pp pageFlags) hns)
  have hhand := h.inHand_taken hq flags
  have halloc : allocPage flags s = .ok (some q) (s.taken flags q) :=
    allocPage_some hq (h.frame_lt hhand.free.1)
  rw [Act.bind_ok halloc] at hns
  obtain ⟨s', hrun, hmaps⟩ := hhand.map hroot hva habs hns
  exact ⟨q, s', halloc, hrun, hmaps⟩

/-! ## Bytes are copied to user addresses -/

/-- Bytes of `p` at user addresses were stored, `data va` for those of `B`. -/
structure Copied (root : Nat → Option Nat) (kdir p : Nat) (B : Nat → Prop) (data : Nat → UInt8)
    (s s' : Mm) : Prop where
  vm : Vm s' root kdir ∅
  cr3 : s'.cr3 = s.cr3
  starved : s'.starved = s.starved
  spared : Spared root s s'
  leaf : ∀ {p' va}, va < 2 ^ 47 → leaf s'.mem root p' va = Myos.Kernel.leaf s.mem root p' va
  inside : ∀ {va}, UserVa va → B va → view s'.mem root p va = data va
  outside : ∀ {p' va}, UserVa va → ¬ (p' = p ∧ B va) →
    view s'.mem root p' va = Myos.Kernel.view s.mem root p' va

/-- STORE: the kernel stores a byte at an address of the running process. -/
theorem storeUser (h : Vm s root kdir ∅) (hroot : root p = some g) (hcr3 : s.cr3 = pageSize * g)
    (hva : UserVa va) (hown : Own s.mem root p va) (b : UInt8) :
    ∃ s', store 1 va b.toNat s = .ok () s' ∧
      Copied root kdir p (fun x => x = va) (fun _ => b) s s' := by
  obtain ⟨f, hf, hw⟩ := hown
  obtain ⟨-, hnt, hk, -⟩ := h.mapped hva hf
  have hmod : va % pageSize < pageSize := Nat.mod_lt _ (by decide)
  have hother : ∀ k o, k ≠ f → o < pageSize →
      Mem.wr 1 s.mem (pageSize * f + va % pageSize) b.toNat (pageSize * k + o) =
        s.mem (pageSize * k + o) := by
    intro k o hk ho
    refine Mem.wr_out ?_
    unfold pageSize at *
    omega
  have hstore : Mem.wr 1 s.mem (pageSize * f + va % pageSize) b.toNat (pageSize * f + va % pageSize)
      = b := by
    rw [wr_one, Mem.overlay_in ⟨Nat.le_refl _, Nat.lt_succ_self _⟩]
  refine ⟨_, store_ok (h.kpa_user hroot hcr3 hva hf), h.bytes hnt hk hother, rfl, rfl,
    fun k hplain => ?_, fun hva' => leaf_bytes hnt hother hva', fun {va'} hva' hB => ?_,
    fun {p' va'} hva' hB => ?_⟩
  · have hkf : k ≠ f := by
      rintro rfl
      have hpos := h.refs_pos hva hf
      rw [hplain.refs] at hpos
      exact Nat.lt_irrefl 0 hpos
    exact ⟨hplain.bytes hnt hother, fun o ho => hother k o hkf ho⟩
  · have hva'' : va' = va := hB
    subst hva''
    rw [Mm.setMem_mem, view_eq ((congrArg target (leaf_bytes hnt hother hva'.lt)).trans hf), hstore]
  · rw [Mm.setMem_mem, view_bytes hnt hother hva']
    by_cases hf' : target (Myos.Kernel.leaf s.mem root p' va') = some f
    · -- the frame has one page only, so this is another byte of it
      obtain ⟨rfl, hpage⟩ := h.page_of_writable hva hva' hf hw hf'
      have hne : va' ≠ va := fun heq => hB ⟨rfl, heq⟩
      rw [if_pos hf', view_eq hf']
      refine Mem.wr_out ?_
      unfold pageSize at *
      omega
    · rw [if_neg hf']

theorem Copied.own {B : Nat → Prop} {data : Nat → UInt8} (h : Copied root kdir p B data s s')
    (hva : UserVa va) : Own s'.mem root p va ↔ Own s.mem root p va := by
  unfold Own
  rw [h.leaf hva.lt]

/-- COPY: bytes of the kernel's own are copied to pages of the running process. -/
theorem memcpy_user (h : Vm s root kdir ∅) (hroot : root p = some g) (hcr3 : s.cr3 = pageSize * g)
    {ps n : Nat} (hps : ps + n ≤ 2 ^ 31)
    (hsrc : ∀ x, ps ≤ x → x < ps + n → s.Plain root (x / pageSize))
    (hva : ∀ x, va ≤ x → x < va + n → UserVa x)
    (hown : ∀ x, va ≤ x → x < va + n → Own s.mem root p x) :
    ∃ s', memcpy va (kbase + ps) n s = .ok () s' ∧
      Copied root kdir p (fun x => va ≤ x ∧ x < va + n) (fun x => s.mem (ps + (x - va))) s s' := by
  induction n generalizing s va ps with
  | zero =>
    refine ⟨s, rfl, h, rfl, rfl, Spared.refl s, fun _ => rfl, fun _ hB => ?_, fun _ _ => rfl⟩
    exact absurd hB.2 (by omega)
  | succ n ih =>
    obtain ⟨s₁, hstore, h₁⟩ := h.storeUser hroot hcr3 (hva va (Nat.le_refl va) (by omega))
      (hown va (Nat.le_refl va) (by omega)) (s.mem ps)
    have hsrc₁ : ∀ x, ps ≤ x → x < ps + (n + 1) → s₁.mem x = s.mem x := fun x h1 h2 =>
      h₁.spared.byte (hsrc x h1 h2)
    obtain ⟨s', hrun, h'⟩ := ih h₁.vm (h₁.cr3.trans hcr3) (by omega : ps + 1 + n ≤ 2 ^ 31)
      (fun x h1 h2 => (h₁.spared _ (hsrc x (by omega) (by omega))).1)
      (fun x (h1 : va + 1 ≤ x) h2 => hva x (by omega) (by omega))
      (fun x h1 h2 => (h₁.own (hva x (by omega) (by omega))).mpr (hown x (by omega) (by omega)))
    refine ⟨s', ?_, h'.vm, h'.cr3.trans h₁.cr3, h'.starved.trans h₁.starved,
      h₁.spared.trans h'.spared, fun hx => (h'.leaf hx).trans (h₁.leaf hx), fun {x} hx hB => ?_,
      fun {q x} hx hB => ?_⟩
    · have hload : load 1 (kbase + ps) s = .ok (s.mem ps).toNat s := by
        rw [load_ok (s.kpa_direct (by omega : ps < 2 ^ 31)), rd_one]
      rw [memcpy, Act.bind_ok hload, Act.bind_ok hstore, Nat.add_assoc]
      exact hrun
    · by_cases hfirst : x = va
      · subst hfirst
        rw [h'.outside hx (by omega), h₁.inside hx rfl, Nat.sub_self, Nat.add_zero]
      · rw [h'.inside hx (by omega), hsrc₁ _ (by omega) (by omega)]
        congr 1
        omega
    · rw [h'.outside hx (fun hq => hB ⟨hq.1, by omega⟩),
        h₁.outside hx (fun hq => hB ⟨hq.1, by have := hq.2; omega⟩)]

/-- The copy stops at the first byte that is not mapped. -/
theorem memcpy_user_fault (h : Vm s root kdir ∅) (hroot : root p = some g)
    (hcr3 : s.cr3 = pageSize * g) {ps n : Nat} (hps : ps + n ≤ 2 ^ 31)
    (hva : ∀ x, va ≤ x → x < va + n → UserVa x)
    (hown : ∀ x, va ≤ x → x < va + n → Own s.mem root p x ∨ Myos.Kernel.leaf s.mem root p x = 0)
    (hnone : ∃ x, va ≤ x ∧ x < va + n ∧ Myos.Kernel.leaf s.mem root p x = 0) :
    ∃ s', memcpy va (kbase + ps) n s = .fault s' := by
  induction n generalizing s va ps with
  | zero =>
    obtain ⟨x, h1, h2, -⟩ := hnone
    exact absurd h2 (by omega)
  | succ n ih =>
    have hload : load 1 (kbase + ps) s = .ok (s.mem ps).toNat s := by
      rw [load_ok (s.kpa_direct (by omega : ps < 2 ^ 31)), rd_one]
    have hva₀ := hva va (Nat.le_refl va) (by omega)
    rcases hown va (Nat.le_refl va) (by omega) with hmap | hz
    · obtain ⟨s₁, hstore, h₁⟩ := h.storeUser hroot hcr3 hva₀ hmap (s.mem ps)
      have hne : Myos.Kernel.leaf s.mem root p va ≠ 0 := fun hz => by
        obtain ⟨f, hf, -⟩ := hmap
        rw [hz, target_zero] at hf
        cases hf
      obtain ⟨s', hrun⟩ := ih h₁.vm (h₁.cr3.trans hcr3) (by omega : ps + 1 + n ≤ 2 ^ 31)
        (fun x (h1 : va + 1 ≤ x) h2 => hva x (by omega) (by omega))
        (fun x h1 h2 => (hown x (by omega) (by omega)).imp
          (h₁.own (hva x (by omega) (by omega))).mpr
          fun hz => (h₁.leaf (hva x (by omega) (by omega)).lt).trans hz) (by
            obtain ⟨x, h1, h2, hx⟩ := hnone
            have hxv : x ≠ va := fun hxv => hne (hxv ▸ hx)
            exact ⟨x, by omega, by omega, (h₁.leaf (hva x h1 h2).lt).trans hx⟩)
      refine ⟨s', ?_⟩
      rw [memcpy, Act.bind_ok hload, Act.bind_ok hstore, Nat.add_assoc]
      exact hrun
    · refine ⟨s, ?_⟩
      rw [memcpy, Act.bind_ok hload]
      exact Act.bind_fault (by rw [store, h.kpa_missing hroot hcr3 hva₀ hz])

end Vm

/-! ## The frames this takes -/

namespace Spends

theorem allocPage (flags : Nat) : Spends id 1 (allocPage flags) := by
  intro s l hl hle hlen hst
  cases l with
  | nil => exact absurd hlen (by decide)
  | cons q l =>
    obtain ⟨hq, -⟩ := (hl.mem q).mp List.mem_cons_self
    have hrun : Myos.Kernel.allocPage flags s = .ok (some q) (s.taken flags q) :=
      allocPage_some hl.chain.of_cons.1 (Nat.lt_of_lt_of_le hq hle)
    rw [hrun]
    exact ⟨(Mm.taken_starved s flags q).trans hst, (s.taken_npages flags q).trans_le hle, l, hl.taken,
      Nat.le_refl _⟩

theorem newTable (slot : Nat) : Spends id 1 (newTable slot) :=
  bind (allocPage 1) fun _ => next (gets _) fun _ => next (store 8 slot _) fun _ => gets _

theorem walkDir (pdpt va create : Nat) : Spends id 1 (walkDir pdpt va create) := by
  refine next (load 8 _) fun e => ?_
  split
  · exact (pure _).mono (Nat.zero_le 1)
  · split
    · exact bind (newTable _) fun _ => pure _
    · exact (pure _).mono (Nat.zero_le 1)

/-- A walk makes three tables at most. -/
theorem walkPage (pgdir va create : Nat) : Spends id 3 (walkPage pgdir va create) := by
  refine next (load 8 _) fun e => ?_
  dsimp only
  split
  · refine next (load 8 _) fun e => ?_
    split
    · exact (walkDir _ _ _).mono (by decide)
    · split
      · exact (pure _).mono (Nat.zero_le 3)
      · exact (bind (newTable _) fun _ => walkDir _ _ _).mono (by decide)
  · split
    · exact (pure _).mono (Nat.zero_le 3)
    · exact bind (newTable _) fun _ => bind (newTable _) fun _ => walkDir _ _ _

theorem insertPage (pgdir va : Nat) (pp : Option Nat) (flag : Nat) :
    Spends id 3 (insertPage pgdir va pp flag) := by
  cases pp with
  | none => exact (pure _).mono (Nat.zero_le 3)
  | some p =>
    refine bind (k := 0) (walkPage pgdir va 1) fun o => ?_
    cases o with
    | none => exact pure _
    | some pte => exact next (gets _) fun _ => next (store 8 pte _) fun _ => pure _

end Spends

/-! ## An address space that is filled -/

/-- The address space of `p` in the course of loading, which began in `s₀`: the
pages in `done` are its own, and there are no others. -/
structure Loading (root : Nat → Option Nat) (kdir p g : Nat) (s₀ s : Mm) (done : Nat → Prop) :
    Prop where
  vm : Vm s root kdir ∅
  cr3 : s.cr3 = pageSize * g
  spared : Spared root s₀ s
  own : ∀ {va}, UserVa va → done (va / pageSize) → Own s.mem root p va
  empty : ∀ {va}, UserVa va → ¬ done (va / pageSize) → leaf s.mem root p va = 0

namespace Loading

variable {root : Nat → Option Nat} {kdir p g va : Nat} {s₀ s s' : Mm} {done : Nat → Prop}

/-- The pages that are done show what they did. -/
def Keeps (root : Nat → Option Nat) (p : Nat) (done : Nat → Prop) (s s' : Mm) : Prop :=
  ∀ va, UserVa va → done (va / pageSize) → view s'.mem root p va = view s.mem root p va

/-- STEP: a page is added. -/
theorem maps {q : Nat} {data : Nat → UInt8} (h : Loading root kdir p g s₀ s done)
    (hnew : ¬ done (va / pageSize)) (hmaps : Vm.MapsPage root kdir p va q data s s') :
    Loading root kdir p g s₀ s' (fun x => done x ∨ x = va / pageSize) ∧
      Keeps root p done s s' := by
  refine ⟨⟨hmaps.vm, hmaps.cr3.trans h.cr3, h.spared.trans hmaps.spared, fun {va'} hva' hd => ?_,
    fun {va'} hva' hd => ?_⟩, fun va' hva' hd => ?_⟩
  · by_cases hsame : va' / pageSize = va / pageSize
    · unfold Own
      rw [hmaps.leaf hva', if_pos ⟨rfl, hsame⟩]
      exact ⟨q, target_leafEntry (by decide) (by decide), by
        rw [land_leafEntry (by decide) (by decide)]; decide⟩
    · unfold Own
      rw [hmaps.leaf hva', if_neg fun hk => hsame hk.2]
      exact h.own hva' (hd.resolve_right hsame)
  · rw [hmaps.leaf hva', if_neg fun hk => hd (.inr hk.2)]
    exact h.empty hva' fun hdone => hd (.inl hdone)
  · rw [hmaps.view hva', if_neg]
    rintro ⟨-, hsame⟩
    exact hnew (hsame ▸ hd)

/-- A page is added that was just taken. -/
theorem page (h : Loading root kdir p g s₀ s done) (hroot : root p = some g) (hva : UserVa va)
    (hnew : ¬ done (va / pageSize)) (flags : Nat)
    (hns : ((allocPage flags >>= fun pp => insertPage (frameVa g) va pp pageFlags) s).state.starved
      = false) :
    ∃ q s', (allocPage flags >>= fun pp => insertPage (frameVa g) va pp pageFlags) s = .ok 0 s' ∧
      Vm.MapsPage root kdir p va q (fun o => (s.taken flags q).mem (pageSize * q + o)) s s' ∧
      Loading root kdir p g s₀ s' (fun x => done x ∨ x = va / pageSize) ∧
      Keeps root p done s s' := by
  obtain ⟨q, s', halloc, hrun, hmaps⟩ := h.vm.mapPage hroot hva (h.empty hva hnew) flags hns
  exact ⟨q, s', by rw [Act.bind_ok halloc, hrun], hmaps, h.maps hnew hmaps⟩

/-- Bytes are copied into pages that are done. -/
theorem copied {B : Nat → Prop} {data : Nat → UInt8} (h : Loading root kdir p g s₀ s done)
    (hc : Vm.Copied root kdir p B data s s') : Loading root kdir p g s₀ s' done :=
  ⟨hc.vm, hc.cr3.trans h.cr3, h.spared.trans hc.spared,
    fun hva hd => (hc.own hva).mpr (h.own hva hd),
    fun hva hd => (hc.leaf hva.lt).trans (h.empty hva hd)⟩

theorem congr {done' : Nat → Prop} (h : Loading root kdir p g s₀ s done)
    (heq : ∀ q, done' q ↔ done q) : Loading root kdir p g s₀ s done' :=
  ⟨h.vm, h.cr3, h.spared, fun hva hd => h.own hva ((heq _).mp hd),
    fun hva hd => h.empty hva fun hdone => hd ((heq _).mpr hdone)⟩

end Loading

end Myos.Kernel
