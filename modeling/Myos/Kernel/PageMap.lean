import Myos.Lib.Owners
import Myos.Kernel.PageTable

/-!
# The page tables implement a map

One page directory, all of the 48-bit space: `translation` is what the code's
own walk finds for an address, and `WellFormed` is a tree of tables together
with the frames it maps. A mapped frame is not a table, and it has at least
as many references as there are pages it is mapped at; that is what makes
`free_page` on the way out of a mapping right.

`page_tables_map` says that `insert_page` and `remove_page` are the update
and the deletion of the map, whatever frame is inserted. The deletion always
leaves the tree well formed. The update does so exactly for a frame that is
`Spare`: `insert_page` does not look at the count of the frame it maps, so a
free one may be taken for a table by the very walk that maps it.
-/

namespace Myos.Kernel

open Myos.Lib

/-- The entry the code's own walk finds for an address, if it is present. -/
def translation (s : Mm) (pgdir va : Nat) : Option Nat :=
  match walkPage pgdir va 0 s with
  | .ok (some pte) s' =>
    match load 8 pte s' with
    | .ok e _ => if e &&& pteP ≠ 0 then some e else none
    | .fault _ => none
  | _ => none

/-- The pages of the 48-bit space. -/
def allPages : Finset Nat := Finset.range (2 ^ 36)

/-- The tree of one page directory. -/
def dir (g : Nat) : Unit → Option Nat := fun _ => some g

/-- The frame a page is mapped to. -/
def frameOf (m : Mem) (g page : Nat) : Option Nat := target (leaf m (dir g) () (pageSize * page))

/-- An entry that does not end the walk early. -/
def NotLarge (e : Nat) : Prop := e &&& pteP ≠ 0 → e &&& ptePs = 0

/-- A tree of tables: every table referenced once, no large pages, and every
mapped frame a frame in use, not a table, with a reference for each page. -/
structure WellFormed (s : Mm) (g : Nat) : Prop where
  tables : Tables NotLarge 512 s (dir g)
  counts : ∀ f, s.count f < 2 ^ 31
  mapped : ∀ {page f}, page ∈ allPages → frameOf s.mem g page = some f →
    f < s.npages ∧ ¬ IsTable 512 s.mem (dir g) f
  refs : ∀ f, f < s.npages → (Owners.refs allPages (frameOf s.mem g) f : Int) ≤ s.count f

/-- `pp` may be mapped at `va`: it is a frame in use but not a table, and it
has a reference that no other page of the tree accounts for. -/
structure Spare (s : Mm) (g va pp : Nat) : Prop where
  range : pp < s.npages
  data : ¬ IsTable 512 s.mem (dir g) pp
  spare : (Owners.refs (allPages.erase (va / pageSize)) (frameOf s.mem g) pp : Int) < s.count pp

theorem land_ptePs_tableEntry (n : Nat) : tableEntry n &&& ptePs = 0 := by
  rw [land_low (by decide), tableEntry_eq, Nat.mul_add_mod]
  rfl

theorem notLarge : Linkable NotLarge :=
  ⟨fun n _ => land_ptePs_tableEntry n, fun h => absurd rfl h⟩

section Map

variable {s s' : Mm} {g va va' f page : Nat}

/-- What the walk finds is the leaf. -/
theorem translation_eq (ht : Tables NotLarge 512 s (dir g)) (va : Nat) :
    translation s (frameVa g) va =
      if leaf s.mem (dir g) () va &&& pteP ≠ 0 then some (leaf s.mem (dir g) () va) else none := by
  unfold translation
  rw [walkPage_lookup ht (pmlIndex_lt va) rfl]
  cases hh : tableAt s.mem (dir g) () (pathTo va) with
  | none =>
    have hleaf : leaf s.mem (dir g) () va = 0 := by rw [leaf, hh]
    rw [hleaf, if_neg (by decide)]
    rfl
  | some h =>
    have hh' : h < 2 ^ 19 := ht.small_of_table ⟨(), _, tablePath_pathTo (pmlIndex_lt va), hh⟩
    rw [leaf_of_tableAt hh]
    simp only [Option.map_some, load_leaf hh']

/-- Addresses of one page have one leaf. -/
theorem frameOf_page (m : Mem) (va : Nat) :
    frameOf m g (va / pageSize) = target (leaf m (dir g) () va) := by
  have hpage : pageSize * (va / pageSize) / pageSize = va / pageSize :=
    Nat.mul_div_cancel_left _ (by decide)
  obtain ⟨h4, h3, h2, h1⟩ := indices_of_page_eq hpage
  unfold frameOf leaf pathTo
  rw [h4, h3, h2, h1]

theorem mem_allPages (hva : va < 2 ^ 48) : va / pageSize ∈ allPages := by
  rw [allPages, Finset.mem_range]
  unfold pageSize
  omega

theorem page_lt (hp : page ∈ allPages) : pageSize * page < 2 ^ 48 := by
  rw [allPages, Finset.mem_range] at hp
  unfold pageSize
  omega

/-- A mapped frame is in use. -/
theorem WellFormed.not_free (h : WellFormed s g) (hp : page ∈ allPages)
    (hf : frameOf s.mem g page = some f) : ¬ s.Free f := by
  rintro ⟨hlt, hz⟩
  have hpos := Owners.refs_pos.mpr ⟨page, hp, hf⟩
  have := h.refs f hlt
  omega

/-- The frame at a page after the leaf of `va` was set. -/
theorem frameOf_setLeaf (page : Nat) (ht : Tables NotLarge 512 s (dir g)) (hva : va < 2 ^ 48) {h v : Nat}
    (hh : tableAt s.mem (dir g) () (pathTo va) = some h) (hv : v < 2 ^ 64)
    (hp : page ∈ allPages) : frameOf (s.setLeaf h va v).mem g page =
      if page = va / pageSize then target v else frameOf s.mem g page := by
  have hpage : pageSize * page / pageSize = page := Nat.mul_div_cancel_left _ (by decide)
  by_cases hpv : page = va / pageSize
  · rw [if_pos hpv, frameOf, ht.leaf_setLeaf_same (pmlIndex_lt va) hh hv (hpage.trans hpv)]
  · rw [if_neg hpv, frameOf, frameOf, ht.leaf_setLeaf_other (pmlIndex_lt va) hva hh v
      (pmlIndex_lt _) (page_lt hp)]
    rintro ⟨-, heq⟩
    exact hpv (hpage.symm.trans heq)

/-- SET: a leaf set to an absent entry, or to an entry of a frame with a spare
reference, leaves the tree well formed. -/
theorem WellFormed.setLeaf (hwf : WellFormed s g) (hva : va < 2 ^ 48) {h v : Nat}
    (hh : tableAt s.mem (dir g) () (pathTo va) = some h) (hv : v < 2 ^ 64)
    (hspare : ∀ pp, target v = some pp → Spare s g va pp) :
    WellFormed (s.setLeaf h va v) g := by
  have hframe := fun {page : Nat} => frameOf_setLeaf page hwf.tables hva hh hv
  have htable := isTable_congr fun hp =>
    hwf.tables.setLeaf_tableAt (pmlIndex_lt va) hh v hp (q := ())
  refine ⟨hwf.tables.setLeaf (pmlIndex_lt va) hh v, hwf.counts, fun {page f} hp hf => ?_,
    fun f hf => ?_⟩
  · rw [hframe hp] at hf
    rw [htable f]
    split at hf
    · obtain ⟨hlt, hdata, -⟩ := hspare f hf
      exact ⟨hlt, hdata⟩
    · exact hwf.mapped hp hf
  · have hmem := mem_allPages hva
    have hnew : frameOf (s.setLeaf h va v).mem g (va / pageSize) = target v := by
      rw [hframe hmem, if_pos rfl]
    have hupd := Owners.refs_update _ (frameOf s.mem g) f hmem hnew fun j hj hne => by
      rw [hframe hj, if_neg hne]
    have hsplit := Owners.refs_split (frameOf s.mem g) f hmem
    have hold := hwf.refs f hf
    show _ ≤ s.count f
    by_cases htv : target v = some f
    · have := (hspare f htv).spare
      rw [if_pos htv] at hupd
      omega
    · rw [if_neg htv] at hupd
      omega

/-- Nothing but an entry of a spare frame leaves the tree well formed. -/
theorem WellFormed.spare_of_setLeaf (hwf : WellFormed s g) (hva : va < 2 ^ 48) {h v pp : Nat}
    (hh : tableAt s.mem (dir g) () (pathTo va) = some h) (hv : v < 2 ^ 64)
    (hset : WellFormed (s.setLeaf h va v) g) (hpp : target v = some pp) : Spare s g va pp := by
  have hmem := mem_allPages hva
  have hnew : frameOf (s.setLeaf h va v).mem g (va / pageSize) = some pp := by
    rw [frameOf_setLeaf _ hwf.tables hva hh hv hmem, if_pos rfl, hpp]
  have htable := isTable_congr fun hp =>
    hwf.tables.setLeaf_tableAt (pmlIndex_lt va) hh v hp (q := ())
  obtain ⟨hlt, hdata⟩ := hset.mapped hmem hnew
  refine ⟨hlt, fun ht => hdata ((htable pp).mpr ht), ?_⟩
  have hrefs := hset.refs pp hlt
  have hsplit := Owners.refs_split (frameOf (s.setLeaf h va v).mem g) pp hmem
  have hsame : Owners.refs (allPages.erase (va / pageSize)) (frameOf (s.setLeaf h va v).mem g) pp =
      Owners.refs (allPages.erase (va / pageSize)) (frameOf s.mem g) pp := by
    refine Owners.refs_congr fun page hpage => ?_
    rw [frameOf_setLeaf _ hwf.tables hva hh hv (Finset.mem_of_mem_erase hpage),
      if_neg (Finset.ne_of_mem_erase hpage)]
  have hcount : (s.setLeaf h va v).count pp = s.count pp := rfl
  rw [if_pos hnew] at hsplit
  omega

theorem Spare.not_free {pp : Nat} (h : Spare s g va pp) : ¬ s.Free pp := by
  intro hfree
  have hcount := h.spare
  rw [hfree.2] at hcount
  omega

/-- GROW: creating tables leaves the tree well formed, and a spare frame spare. -/
theorem WellFormed.grown (hwf : WellFormed s g) (ht : Tables NotLarge 512 s' (dir g))
    (hgrown : Grown 512 (dir g) s s') : WellFormed s' g ∧ ∀ {va pp}, Spare s g va pp →
      Spare s' g va pp := by
  have hframe : ∀ page, frameOf s'.mem g page = frameOf s.mem g page := fun page => by
    rw [frameOf, frameOf, hgrown.leaf (pmlIndex_lt _)]
  have hrefs : ∀ (keys : Finset Nat) f, Owners.refs keys (frameOf s'.mem g) f =
      Owners.refs keys (frameOf s.mem g) f := fun keys f =>
    Owners.refs_congr fun page _ => by rw [hframe page]
  refine ⟨⟨ht, fun f => ?_, fun {page f} hp hf => ?_, fun f hf => ?_⟩, fun {va pp} hsp => ?_⟩
  · by_cases hfree : s.Free f
    · rcases hgrown.taken hfree with h | h <;> rw [h] <;> decide
    · rw [hgrown.count hfree]
      exact hwf.counts f
  · rw [hframe] at hf
    obtain ⟨hlt, hdata⟩ := hwf.mapped hp hf
    exact ⟨hgrown.npages ▸ hlt, hgrown.not_table (hwf.not_free hp hf) hdata⟩
  · rw [hgrown.npages] at hf
    have hold := hwf.refs f hf
    rw [hrefs]
    by_cases hfree : s.Free f
    · rw [hfree.2] at hold
      rcases hgrown.taken hfree with h | h <;> omega
    · rw [hgrown.count hfree]
      exact hold
  · refine ⟨hgrown.npages ▸ hsp.range, hgrown.not_table hsp.not_free hsp.data, ?_⟩
    rw [hrefs, hgrown.count hsp.not_free]
    exact hsp.spare

/-- A frame that is spare after the walk was spare before it: a frame the walk
took is a table now. -/
theorem Spare.of_along {pp : Nat} (hgrown : Grown 512 (dir g) s s')
    (halong : Along 512 (dir g) () va s s') (h : Spare s' g va' pp) : Spare s g va' pp := by
  have hfree : ¬ s.Free pp := fun hfree => (halong.taken hfree).elim h.not_free h.data
  have hcount := h.spare
  have hrefs := @Owners.refs_congr _ _ _ (allPages.erase (va' / pageSize)) (frameOf s.mem g)
    (frameOf s'.mem g) pp fun page _ => by rw [frameOf, frameOf, hgrown.leaf (pmlIndex_lt _)]
  rw [hrefs, hgrown.count hfree] at hcount
  refine ⟨hgrown.npages ▸ h.range, ?_, hcount⟩
  rintro ⟨q, path, hpath, ht⟩
  exact h.data ⟨q, path, hpath, hgrown.tables hpath ht⟩

/-- FREE: freeing a reference that no page accounts for leaves the tree well formed. -/
theorem WellFormed.freed (hwf : WellFormed s g) (hf : f < s.npages)
    (hft : ¬ IsTable 512 s.mem (dir g) f)
    (hspare : (Owners.refs allPages (frameOf s.mem g) f : Int) < s.count f) :
    WellFormed (s.freed f) g := by
  have h1 : 1 ≤ s.count f := by omega
  have hcount := Mm.freed_count h1 (hwf.counts f)
  refine ⟨hwf.tables.freed hf hft h1 (hwf.counts f), fun k => ?_, ?_, fun k hk => ?_⟩
  · rw [hcount]
    have := hwf.counts f
    have := hwf.counts k
    split <;> omega
  · rw [Mm.freed_mem, Mm.freed_npages]
    exact hwf.mapped
  · rw [Mm.freed_npages] at hk
    have := hwf.refs k hk
    rw [hcount, Mm.freed_mem]
    split
    · next h => subst h; omega
    · exact this

/-- Leaves that agree give the same translation. -/
theorem translation_congr (ht : Tables NotLarge 512 s (dir g))
    (ht' : Tables NotLarge 512 s' (dir g))
    (h : leaf s'.mem (dir g) () va = leaf s.mem (dir g) () va) :
    translation s' (frameVa g) va = translation s (frameVa g) va := by
  rw [translation_eq ht, translation_eq ht', h]

/-- The frame that an entry put together of a frame and flags names. -/
theorem target_or {pp flag : Nat} (hp : flag &&& pteP ≠ 0) :
    target (pp <<< pteShift ||| flag) = some (pp ||| flag / pageSize) := by
  have hpres : (pp <<< pteShift ||| flag) &&& pteP ≠ 0 := by
    rw [Nat.and_or_distrib_right]
    intro hz
    exact hp (Nat.or_eq_zero_iff.mp hz).2
  rw [target, if_pos hpres]
  have hsize : pageSize = 2 ^ pteShift := rfl
  rw [hsize, ← Nat.shiftRight_eq_div_pow, Nat.shiftRight_or_distrib, Nat.shiftLeft_shiftRight,
    Nat.shiftRight_eq_div_pow]

theorem entry_lt {pp flag : Nat} (hpp : pp < 2 ^ 19) (h64 : flag < 2 ^ 64) :
    pp <<< pteShift ||| flag < 2 ^ 64 := by
  refine Nat.or_lt_two_pow ?_ h64
  rw [Nat.shiftLeft_eq]
  unfold pteShift
  omega

/-- It is the frame itself for a flag of the low twelve bits. -/
theorem or_flag {pp flag : Nat} (hflag : flag < pageSize) : pp ||| flag / pageSize = pp := by
  rw [Nat.div_eq_of_lt hflag, Nat.or_zero]

/-- `insert_page` is the update of the map. -/
theorem insertPage_map (hwf : WellFormed s g) (hva : va < 2 ^ 48) {pp flag : Nat}
    (hpp : pp < s.npages) (hp : flag &&& pteP ≠ 0) (h64 : flag < 2 ^ 64)
    (hns : (insertPage (frameVa g) va (some pp) flag s).state.starved = false) :
    ∃ s', insertPage (frameVa g) va (some pp) flag s = .ok 0 s' ∧
      translation s' (frameVa g) va = some (pp <<< pteShift ||| flag) ∧
      (∀ va', va' < 2 ^ 48 → va' / pageSize ≠ va / pageSize →
        translation s' (frameVa g) va' = translation s (frameVa g) va') ∧
      (WellFormed s' g ↔ Spare s g va (pp ||| flag / pageSize)) := by
  obtain ⟨s₁, h, ht, hgrown, halong, hh, hrun⟩ :=
    insertPage_run hwf.tables notLarge (pmlIndex_lt va) rfl hns
  obtain ⟨hwf₁, hsp₁⟩ := hwf.grown ht hgrown
  have he := entry_lt (Nat.lt_of_lt_of_le hpp hwf.tables.small) h64
  have hframe : target (pp <<< pteShift ||| flag) = some (pp ||| flag / pageSize) := target_or hp
  have ht' := ht.setLeaf (pmlIndex_lt va) hh (pp <<< pteShift ||| flag)
  refine ⟨_, hrun, ?_, fun va' hva' hne => ?_, fun hwf' => ?_, fun hsp => ?_⟩
  · rw [translation_eq ht', ht.leaf_setLeaf_same (pmlIndex_lt va) hh he rfl,
      if_pos (present_of_target hframe)]
  · refine translation_congr hwf.tables ht' ?_
    rw [ht.leaf_setLeaf_other (pmlIndex_lt va) hva hh _ (pmlIndex_lt va') hva' fun h => hne h.2]
    exact hgrown.leaf (pmlIndex_lt va')
  · exact (hwf₁.spare_of_setLeaf hva hh he hwf' hframe).of_along hgrown halong
  · refine hwf₁.setLeaf hva hh he fun q hq => ?_
    rw [hframe] at hq
    exact Option.some.inj hq ▸ hsp₁ hsp

/-- `remove_page` is the deletion of the map. -/
theorem removePage_map (hwf : WellFormed s g) (hva : va < 2 ^ 48) :
    ∃ ret s', removePage (frameVa g) va s = .ok ret s' ∧ WellFormed s' g ∧
      translation s' (frameVa g) va = none ∧
      (∀ va', va' < 2 ^ 48 → va' / pageSize ≠ va / pageSize →
        translation s' (frameVa g) va' = translation s (frameVa g) va') ∧
      ∀ f, s'.count f =
        s.count f - if frameOf s.mem g (va / pageSize) = some f then 1 else 0 := by
  have ht := hwf.tables
  have hframe := frameOf_page (g := g) s.mem va
  cases hh : tableAt s.mem (dir g) () (pathTo va) with
  | none =>
    have hleaf : leaf s.mem (dir g) () va = 0 := by rw [leaf, hh]
    refine ⟨-1, s, removePage_missing ht (pmlIndex_lt va) rfl hh, hwf, ?_, fun _ _ _ => rfl,
      fun f => ?_⟩
    · rw [translation_eq ht, hleaf, if_neg (by decide)]
    · rw [hframe, hleaf, target_zero, if_neg (by simp), Int.sub_zero]
  | some h =>
    have hset := hwf.setLeaf hva hh (v := 0) (Nat.two_pow_pos 64) (by simp [target_zero])
    have hsame := ht.leaf_setLeaf_same (pmlIndex_lt va) hh (Nat.two_pow_pos 64) (v := 0) rfl
    have hother := fun {va' : Nat} (hva' : va' < 2 ^ 48) (hne : va' / pageSize ≠ va / pageSize) =>
      ht.leaf_setLeaf_other (pmlIndex_lt va) hva hh 0 (pmlIndex_lt va') hva' (q := ())
        fun h => hne h.2
    cases hf : target (leaf s.mem (dir g) () va) with
    | none =>
      refine ⟨0, _, removePage_absent ht (pmlIndex_lt va) rfl hh hf, hset, ?_,
        fun va' hva' hne => translation_congr ht hset.tables (hother hva' hne), fun f => ?_⟩
      · rw [translation_eq hset.tables, hsame, if_neg (by decide)]
      · rw [hframe, hf, if_neg (by simp), Int.sub_zero]
        rfl
    | some f =>
      have hmem := mem_allPages hva
      obtain ⟨hlt, hdata⟩ := hwf.mapped hmem (hframe.trans hf)
      have hupd := Owners.refs_update _ (frameOf s.mem g) f hmem
        (show frameOf (s.setLeaf h va 0).mem g (va / pageSize) = none by
          rw [frameOf_setLeaf _ ht hva hh (Nat.two_pow_pos 64) hmem, if_pos rfl, target_zero])
        fun j hj hne => by rw [frameOf_setLeaf _ ht hva hh (Nat.two_pow_pos 64) hj, if_neg hne]
      rw [if_pos (hframe.trans hf), if_neg (by simp)] at hupd
      have hcount : 1 ≤ s.count f := by
        have := hwf.refs f hlt
        omega
      have hrun := removePage_present ht (pmlIndex_lt va) rfl hh hf hcount (hwf.counts f)
      have hfreed := hset.freed (f := f) hlt
        (fun hft => hdata ((isTable_congr fun hp =>
          ht.setLeaf_tableAt (pmlIndex_lt va) hh 0 hp) f |>.mp hft))
        (by
          show _ < s.count f
          have := hwf.refs f hlt
          omega)
      have hcomm : (s.setLeaf h va 0).freed f = (s.freed f).setLeaf h va 0 := by
        rw [Mm.setLeaf, Mm.freed_setMem, Mm.setLeaf, Mm.freed_mem]
      rw [hcomm] at hfreed
      have hmem' : ((s.freed f).setLeaf h va 0).mem = (s.setLeaf h va 0).mem := by
        rw [← hcomm, Mm.freed_mem]
      refine ⟨0, _, hrun, hfreed, ?_, fun va' hva' hne => ?_, fun k => ?_⟩
      · rw [translation_eq hfreed.tables, hmem', hsame, if_neg (by decide)]
      · refine translation_congr ht hfreed.tables ?_
        rw [hmem']
        exact hother hva' hne
      · rw [hframe, hf]
        show (s.freed f).count k = _
        rw [Mm.freed_count hcount (hwf.counts f)]
        by_cases hk : k = f
        · subst hk
          rw [if_pos rfl, if_pos rfl]
        · rw [if_neg hk, if_neg fun h => hk (Option.some.inj h).symm, Int.sub_zero]

/-- THE MAP. On a well-formed tree, and for every address of the 48-bit space:
`insert_page` of any frame makes the walk find `PAGE2PA(pp) | flag`,
`remove_page` makes it find nothing and takes one reference from the frame
that was mapped and from no other, and neither changes what the walk finds for
an address of another page. `remove_page` leaves the tree well formed;
`insert_page` does if and only if the frame the new entry names (`pp`, unless
`flag` has bits above the low twelve) is in use, no table, and has a reference
that no other page accounts for. -/
theorem page_tables_map (hwf : WellFormed s g) (hva : va < 2 ^ 48) :
    (∀ pp flag, pp < s.npages → flag &&& pteP ≠ 0 → flag < 2 ^ 64 →
      (insertPage (frameVa g) va (some pp) flag s).state.starved = false →
      ∃ s', insertPage (frameVa g) va (some pp) flag s = .ok 0 s' ∧
        translation s' (frameVa g) va = some (s.page2pa (some pp) ||| flag) ∧
        (∀ va', va' < 2 ^ 48 → va' / pageSize ≠ va / pageSize →
          translation s' (frameVa g) va' = translation s (frameVa g) va') ∧
        (WellFormed s' g ↔ Spare s g va (pp ||| flag / pageSize))) ∧
    (∃ ret s', removePage (frameVa g) va s = .ok ret s' ∧ WellFormed s' g ∧
      translation s' (frameVa g) va = none ∧
      (∀ va', va' < 2 ^ 48 → va' / pageSize ≠ va / pageSize →
        translation s' (frameVa g) va' = translation s (frameVa g) va') ∧
      ∀ f, s'.count f =
        s.count f - if frameOf s.mem g (va / pageSize) = some f then 1 else 0) :=
  ⟨fun _ _ hpp hp h64 hns => insertPage_map hwf hva hpp hp h64 hns, removePage_map hwf hva⟩

end Map

/-! ## A tree with nothing mapped -/

/-- In memory of nought a root has no tables below it. -/
theorem tableAt_zero {R : Type*} {m : Mem} {root : R → Option Nat} {r : R} {p : List Nat}
    {f top : Nat} (hm : ∀ g i, root r = some g → i < 512 → Mem.entry m g i = 0)
    (hp : TablePath top p) (hf : tableAt m root r p = some f) : p = [] ∧ root r = some f := by
  induction p using List.reverseRecOn generalizing f with
  | nil =>
    rw [tableAt, Radix.node_nil] at hf
    exact ⟨rfl, hf⟩
  | append_singleton p i ih =>
    rw [tableAt, Radix.node_snoc] at hf
    cases hg : Radix.node target (Mem.entry m) root r p with
    | none => rw [hg] at hf; cases hf
    | some g =>
      obtain ⟨-, hr⟩ := ih hp.init hg
      rw [hg, Option.bind_some, hm g i hr hp.last] at hf
      cases hf

/-- A directory of nought maps nothing, and is its only table. -/
theorem WellFormed.empty {s : Mm} {g : Nat} (hn : s.npages ≤ 2 ^ 19) (hl : ∃ l, FreeList s l)
    (hcount : ∀ f, 0 ≤ s.count f ∧ s.count f < 2 ^ 31) (hg : g < s.npages ∧ s.count g ≠ 0)
    (hzero : ∀ i, i < 512 → Mem.entry s.mem g i = 0) :
    WellFormed s g ∧ (∀ f, IsTable 512 s.mem (dir g) f → f = g) ∧
      ∀ page, frameOf s.mem g page = none := by
  have htab : ∀ {r p f}, TablePath 512 p → tableAt s.mem (dir g) r p = some f → p = [] ∧ f = g :=
    fun hp hf => by
      obtain ⟨hnil, hr⟩ := tableAt_zero (fun f i hr hi => by
        rw [← Option.some.inj hr]
        exact hzero i hi) hp hf
      exact ⟨hnil, (Option.some.inj hr).symm⟩
  have hone : ∀ f, IsTable 512 s.mem (dir g) f → f = g := fun f ⟨_, _, hp, hf⟩ => (htab hp hf).2
  have hframe : ∀ page, frameOf s.mem g page = none := fun page => by
    have hnone : tableAt s.mem (dir g) () (pathTo (pageSize * page)) = none := by
      by_contra hne
      obtain ⟨f, hf⟩ := Option.ne_none_iff_exists'.mp hne
      exact absurd (htab (tablePath_pathTo (pmlIndex_lt _)) hf).1 (List.cons_ne_nil _ _)
    rw [frameOf, leaf, hnone, target_zero]
  have hrefs : ∀ f, Owners.refs allPages (frameOf s.mem g) f = 0 := fun f =>
    Owners.refs_eq_zero fun page _ => by rw [hframe]; exact (Option.some_ne_none _).symm
  refine ⟨⟨⟨hn, hl, ?_, ?_, ?_⟩, fun f => (hcount f).2, ?_, fun f _ => ?_⟩, hone, hframe⟩
  · intro r r' p p' f hp hp' hf hf'
    exact ⟨rfl, (htab hp hf).1.trans (htab hp' hf').1.symm⟩
  · intro f hf
    rw [hone f hf]
    exact hg
  · intro r p i f hpi hf hpres
    obtain ⟨-, rfl⟩ := htab hpi.init hf
    rw [hzero i hpi.last] at hpres
    exact absurd rfl hpres
  · intro page f _ hf
    rw [hframe] at hf
    cases hf
  · rw [hrefs]
    exact (hcount f).1

/-- Eight frames: the directory in frame 1, frame 2 in use, the last five free. -/
def sampleMm : Mm where
  mem := fun _ => 0
  pages := fun i => if i < 3 then { count := 1 } else
    { link := if i + 1 < 8 then some (i + 1) else none }
  phead := some 3
  npages := 8
  kusedMem := 0
  pagesVa := 0
  cr3 := 0
  starved := false

theorem sampleMm_count (f : Nat) : sampleMm.count f = if f < 3 then 1 else 0 := by
  show (if f < 3 then _ else _ : Page).count = _
  split <;> rfl

theorem sampleMm_list : FreeList sampleMm [3, 4, 5, 6, 7] := by
  refine ⟨.cons (.cons (.cons (.cons (.cons .nil)))), fun f => ?_⟩
  have hn : sampleMm.npages = 8 := rfl
  rw [sampleMm_count, hn]
  simp only [List.mem_cons, List.not_mem_nil, or_false]
  split <;> omega

theorem sampleMm_wellFormed : WellFormed sampleMm 1 ∧
    (∀ f, IsTable 512 sampleMm.mem (dir 1) f → f = 1) ∧
    ∀ page, frameOf sampleMm.mem 1 page = none :=
  WellFormed.empty (by decide) ⟨_, sampleMm_list⟩
    (fun f => by rw [sampleMm_count]; split <;> decide) (by decide)
    fun i _ => Mem.rd_zero fun _ _ _ => rfl

theorem sampleMm_enough : sampleMm.Enough 3 := ⟨_, sampleMm_list, by decide⟩

/-- The map at `sampleMm`: frame 2 inserted at the start of the text, and removed again. -/
theorem page_tables_map_sample :
    (∃ s', insertPage (frameVa 1) utext (some 2) 7 sampleMm = .ok 0 s' ∧ WellFormed s' 1 ∧
      translation s' (frameVa 1) utext = some 0x2007) ∧
    ∃ ret s', removePage (frameVa 1) utext sampleMm = .ok ret s' ∧ WellFormed s' 1 := by
  obtain ⟨hwf, hone, hframe⟩ := sampleMm_wellFormed
  have hsp : Spare sampleMm 1 utext 2 := by
    refine ⟨by decide, fun h => absurd (hone 2 h) (by decide), ?_⟩
    rw [Owners.refs_eq_zero fun page _ => by rw [hframe]; exact (Option.some_ne_none _).symm]
    decide
  have hns := insertPage_enough (r := ()) hwf.tables notLarge (pmlIndex_lt utext) rfl
    (sampleMm_enough.mono (missing_le _ _ _ _)) rfl 2 7
  obtain ⟨hinsert, ret, s'', hremove, hwf'', -⟩ :=
    page_tables_map hwf (by decide : utext < 2 ^ 48)
  obtain ⟨s', hrun, htr, -, hiff⟩ := hinsert 2 7 (by decide) (by decide) (by decide) hns
  exact ⟨⟨s', hrun, hiff.mpr hsp, htr⟩, ret, s'', hremove, hwf''⟩

/-- The next free frame inserted at `sampleMm`: the walk takes it for a table, so
the frame the entry names is a table of the tree. -/
theorem insertPage_free_frame : WellFormed sampleMm 1 ∧
    ∃ s', insertPage (frameVa 1) utext (some 3) 7 sampleMm = .ok 0 s' ∧ s'.starved = false ∧
      IsTable 512 s'.mem (dir 1) 3 ∧ frameOf s'.mem 1 (utext / pageSize) = some 3 ∧
      ¬ WellFormed s' 1 := by
  obtain ⟨hwf, -, -⟩ := sampleMm_wellFormed
  have hns := insertPage_enough (r := ()) hwf.tables notLarge (pmlIndex_lt utext) rfl
    (sampleMm_enough.mono (missing_le _ _ _ _)) rfl 3 7
  have htable := insertPage_head (r := ()) hwf.tables notLarge (pmlIndex_lt utext) rfl
    (n := 3) (by decide) rfl hns
  obtain ⟨s', h, ht, -, -, hh, hrun⟩ :=
    insertPage_run (r := ()) hwf.tables notLarge (pmlIndex_lt utext) rfl hns
  rw [hrun] at hns htable
  have hframe : frameOf (s'.setLeaf h utext (3 <<< pteShift ||| 7)).mem 1 (utext / pageSize) =
      some 3 := by
    rw [frameOf_setLeaf _ ht (by decide) hh (by decide) (mem_allPages (by decide)), if_pos rfl]
    decide
  refine ⟨hwf, _, hrun, hns, htable, hframe, fun hwf' => ?_⟩
  exact (hwf'.mapped (mem_allPages (by decide)) hframe).2 htable

end Myos.Kernel
