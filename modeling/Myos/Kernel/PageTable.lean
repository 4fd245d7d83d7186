import Myos.Kernel.Tables

/-!
# The four-level page tables

`walk_dir`, `walk_page`, `insert_page` and `remove_page` of `kernel/mm.c`,
and what each comes to on a forest in order.

- `walkPage_lookup`: the walk that does not create changes nothing and finds
  the leaf of the address.
- `walkPage_create`: the walk that creates leaves every leaf as it was, and
  the address has a last table afterwards.
- `insertPage_run`, `removePage_present` and its two siblings: the walk, then
  one leaf set.
-/

namespace Myos.Kernel

open Myos.Lib

/-! ## The operations -/

/-- `p = alloc_page(1); *slot = PAGE2PA(p) | PTE_U | PTE_W | PTE_P`, and the
address of the new table: what the walk does wherever a table is missing. -/
def newTable (slot : Nat) : Act Mm Nat := do
  let p ← allocPage 1
  let pa ← Act.gets fun s => s.page2pa p
  store 8 slot (pa ||| pteU ||| pteW ||| pteP)
  Act.gets fun s => s.page2va p

/-- The table an entry refers to, `KPA2VA((e / PAGESIZE) * PAGESIZE)`. -/
def tableVa (e : Nat) : Nat := kpa2va (e / pageSize * pageSize)

/-- `walk_dir`: the address of the page-table entry, or `-1`. -/
def walkDir (pgdir va create : Nat) : Act Mm (Option Nat) := do
  let slot := pgdir + 8 * pgdIndex va
  let e ← load 8 slot
  if e &&& pteP ≠ 0 then
    return some (tableVa e + 8 * pteIndex va)
  else if create = 1 then
    let pde ← newTable slot
    return some (pde + 8 * pteIndex va)
  else
    return none

/-- `walk_page`. -/
def walkPage (pgdir va create : Nat) : Act Mm (Option Nat) := do
  let slot := pgdir + 8 * pmlIndex va
  let e ← load 8 slot
  if e &&& pteP ≠ 0 then
    let slot := tableVa e + 8 * pdpIndex va
    let e ← load 8 slot
    if e &&& pteP ≠ 0 then
      walkDir (tableVa e) va create
    else if create = 0 then
      return none
    else
      let pdpt ← newTable slot
      walkDir pdpt va create
  else if create = 0 then
    return none
  else
    let pml4 ← newTable slot
    let pdpt ← newTable (pml4 + 8 * pdpIndex va)
    walkDir pdpt va create

/-- `insert_page`. -/
def insertPage (pgdir va : Nat) (pp : Option Nat) (flag : Nat) : Act Mm Int := do
  match pp with
  | none => return -1
  | some p =>
    match ← walkPage pgdir va 1 with
    | none => return -1
    | some pte =>
      let pa ← Act.gets fun s => s.page2pa (some p)
      store 8 pte (pa ||| flag)
      return 0

/-- `remove_page`. -/
def removePage (pgdir va : Nat) : Act Mm Int := do
  match ← walkPage pgdir va 0 with
  | none => return -1
  | some pte =>
    let e ← load 8 pte
    if e &&& pteP ≠ 0 then
      freePage (some (e >>> pteShift))
    store 8 pte 0
    return 0

variable {R : Type*}

/-! ## The walk -/

section Walk

variable {ok : Nat → Prop} {top : Nat} {s : Mm} {root : R → Option Nat}
variable {r : R} {p : List Nat} {f g i n va create : Nat}

/-- The address of the table an entry refers to. -/
theorem tableVa_eq {e : Nat} (h : target e = some g) (hg : g < 2 ^ 19) :
    tableVa e = frameVa g := by
  unfold target at h
  split at h
  · cases h
    unfold tableVa kpa2va u64 frameVa
    unfold kbase pageSize at *
    omega
  · cases h

/-- `newTable` links the head of the free list. -/
theorem newTable_ok (hg : g < 2 ^ 19) (hi : i < 512) (hn : s.phead = some n) (hn' : n < 2 ^ 19) :
    newTable (frameVa g + 8 * i) s = .ok (frameVa n) (s.linked g i n) := by
  have halloc : allocPage 1 s = .ok (some n) (s.taken 1 n) := allocPage_some hn hn'
  unfold newTable
  rw [Act.bind_ok halloc, Act.gets_bind_apply,
    Act.bind_ok (store_entry hg hi), Act.gets_apply, Mm.page2va_some hn']
  rfl

theorem newTable_starves (slot : Nat) : Act.Within Mm.Starves (newTable slot) :=
  Starves.bind (Starves.allocPage 1) fun _ => Starves.bind (Starves.gets _) fun _ =>
    Starves.bind (Starves.store 8 slot _) fun _ => Starves.gets _

theorem head_of_newTable {slot : Nat} (h : (newTable slot s).state.starved = false) :
    ∃ n, s.phead = some n := by
  refine Starves.head_of_allocPage (Starves.of_bind (fun p => ?_) h)
  exact Starves.bind (Starves.gets _) fun _ => Starves.bind (Starves.store 8 slot _) fun _ =>
    Starves.gets _

theorem walkDir_starves (pgdir va create : Nat) :
    Act.Within Mm.Starves (walkDir pgdir va create) := by
  refine Starves.bind (Starves.load 8 _) fun e => ?_
  split
  · exact Starves.pure _
  · split
    · exact Starves.bind (newTable_starves _) fun _ => Starves.pure _
    · exact Starves.pure _

theorem walkPage_starves (pgdir va create : Nat) :
    Act.Within Mm.Starves (walkPage pgdir va create) := by
  refine Starves.bind (Starves.load 8 _) fun e => ?_
  split
  · refine Starves.bind (Starves.load 8 _) fun e => ?_
    split
    · exact walkDir_starves _ va create
    · split
      · exact Starves.pure none
      · exact Starves.bind (newTable_starves _) fun _ => walkDir_starves _ va create
  · split
    · exact Starves.pure none
    · exact Starves.bind (newTable_starves _) fun _ =>
        Starves.bind (newTable_starves _) fun _ => walkDir_starves _ va create

/-- The address of the leaf of `va`, where its last table is `g`. -/
def leafVa (g va : Nat) : Nat := frameVa g + 8 * pteIndex va

theorem store_leaf {v : Nat} (hg : g < 2 ^ 19) : store 8 (leafVa g va) v s = .ok () (s.setLeaf g va v) :=
  store_entry hg (pteIndex_lt va)

theorem load_leaf (hg : g < 2 ^ 19) :
    load 8 (leafVa g va) s = .ok (Mem.entry s.mem g (pteIndex va)) s :=
  load_entry hg (pteIndex_lt va)

/-- `walk_dir` that does not create: nothing changes, and the leaf is found if
the last table is there. -/
theorem walkDir_lookup (ht : Tables ok top s root) (hva : pmlIndex va < top)
    (hg : tableAt s.mem root r [pmlIndex va, pdpIndex va] = some g) :
    walkDir (frameVa g) va 0 s =
      .ok ((tableAt s.mem root r (pathTo va)).map fun f => leafVa f va) s := by
  have hg' : g < 2 ^ 19 := ht.small_of_table ⟨r, _, tablePath_two hva, hg⟩
  have hpath : pathTo va = [pmlIndex va, pdpIndex va] ++ [pgdIndex va] := rfl
  unfold walkDir
  rw [Act.bind_ok (load_entry hg' (pgdIndex_lt va))]
  cases hnext : target (Mem.entry s.mem g (pgdIndex va)) with
  | some f =>
    obtain ⟨hf, hsmall⟩ := ht.step hg (hpath ▸ tablePath_pathTo hva) hnext
    rw [if_pos (present_of_target hnext), Act.pure_apply, tableVa_eq hnext hsmall, hpath, hf]
    rfl
  | none =>
    have hnone : tableAt s.mem root r (pathTo va) = none := by
      rw [hpath, tableAt, Radix.node_snoc]
      rw [tableAt] at hg
      rw [hg, Option.bind_some, hnext]
    rw [if_neg (target_eq_none.mp hnext), if_neg (by decide), Act.pure_apply, hnone]
    rfl

/-- The walk that does not create: nothing changes, and the leaf is found if
the last table is there. -/
theorem walkPage_lookup (ht : Tables ok top s root) (hva : pmlIndex va < top)
    (hg : root r = some g) : walkPage (frameVa g) va 0 s =
      .ok ((tableAt s.mem root r (pathTo va)).map fun f => leafVa f va) s := by
  have hroot : tableAt s.mem root r [] = some g := by rw [tableAt, Radix.node_nil, hg]
  have hg' : g < 2 ^ 19 := ht.small_of_table ⟨r, _, tablePath_nil, hroot⟩
  have hmissing : ∀ {q : List Nat} {j : Nat} {l : List Nat}, pathTo va = q ++ [j] ++ l →
      tableAt s.mem root r (q ++ [j]) = none → tableAt s.mem root r (pathTo va) = none := by
    intro q j l hq hnone
    rw [hq]
    clear hq
    induction l using List.reverseRecOn with
    | nil => rwa [List.append_nil]
    | append_singleton l k ih =>
      rw [← List.append_assoc, tableAt, Radix.node_snoc]
      rw [tableAt] at ih
      rw [ih]
      rfl
  unfold walkPage
  rw [Act.bind_ok (load_entry hg' (pmlIndex_lt va))]
  cases hnext : target (Mem.entry s.mem g (pmlIndex va)) with
  | none =>
    have hnone : tableAt s.mem root r ([] ++ [pmlIndex va]) = none := by
      rw [tableAt, Radix.node_snoc]
      rw [tableAt] at hroot
      rw [hroot, Option.bind_some, hnext]
    rw [if_neg (target_eq_none.mp hnext), if_pos rfl, Act.pure_apply,
      hmissing (l := [pdpIndex va, pgdIndex va]) rfl hnone]
    rfl
  | some f =>
    obtain ⟨hf, hf'⟩ := ht.step hroot (tablePath_one hva) hnext
    rw [if_pos (present_of_target hnext), tableVa_eq hnext hf',
      Act.bind_ok (load_entry hf' (pdpIndex_lt va))]
    cases hnext' : target (Mem.entry s.mem f (pdpIndex va)) with
    | none =>
      have hnone : tableAt s.mem root r ([pmlIndex va] ++ [pdpIndex va]) = none := by
        rw [tableAt, Radix.node_snoc]
        rw [List.nil_append, tableAt] at hf
        rw [hf, Option.bind_some, hnext']
      rw [if_neg (target_eq_none.mp hnext'), if_pos rfl, Act.pure_apply,
        hmissing (l := [pgdIndex va]) rfl hnone]
      rfl
    | some h =>
      obtain ⟨hh, hh'⟩ := ht.step hf (tablePath_two hva) hnext'
      rw [if_pos (present_of_target hnext'), tableVa_eq hnext' hh']
      exact walkDir_lookup ht hva hh

/-- What the walk that creates comes to: a last table for `va`, the pointer
into it, no table that is not on the way to it, and no leaf changed. -/
structure Created (ok : Nat → Prop) (top : Nat) (root : R → Option Nat) (r : R) (va : Nat)
    (s : Mm) (res : Res Mm (Option Nat)) : Prop where
  done : ∃ s' g, res = .ok (some (leafVa g va)) s' ∧ Tables ok top s' root ∧
    Grown top root s s' ∧ Along top root r va s s' ∧ tableAt s'.mem root r (pathTo va) = some g

/-- `walk_dir` that creates. -/
theorem walkDir_create (ht : Tables ok top s root) (hok : Linkable ok)
    (hva : pmlIndex va < top) (hg : tableAt s.mem root r [pmlIndex va, pdpIndex va] = some g)
    (hns : (walkDir (frameVa g) va 1 s).state.starved = false) :
    Created ok top root r va s (walkDir (frameVa g) va 1 s) := by
  have hg' : g < 2 ^ 19 := ht.small_of_table ⟨r, _, tablePath_two hva, hg⟩
  have hpath : pathTo va = [pmlIndex va, pdpIndex va] ++ [pgdIndex va] := rfl
  have hdom : TablePath top ([pmlIndex va, pdpIndex va] ++ [pgdIndex va]) :=
    hpath ▸ tablePath_pathTo hva
  unfold walkDir at hns ⊢
  rw [Act.bind_ok (load_entry hg' (pgdIndex_lt va))] at hns ⊢
  cases hnext : target (Mem.entry s.mem g (pgdIndex va)) with
  | some f =>
    obtain ⟨hf, hsmall⟩ := ht.step hg hdom hnext
    rw [if_pos (present_of_target hnext), Act.pure_apply, tableVa_eq hnext hsmall]
    exact ⟨s, f, rfl, ht, Grown.refl s, Along.refl s, hf⟩
  | none =>
    rw [if_neg (target_eq_none.mp hnext), if_pos rfl] at hns ⊢
    obtain ⟨n, hn⟩ := head_of_newTable (Starves.of_bind (fun _ => Starves.pure _) hns)
    obtain ⟨-, hn'⟩ := ht.head hn
    obtain ⟨ht', hgrown, hnew, -⟩ := ht.link hok hg hdom hnext hn
    rw [Act.bind_ok (newTable_ok hg' (pgdIndex_lt va) hn hn'), Act.pure_apply]
    exact ⟨_, n, rfl, ht', hgrown,
      Along.link ht hok hg hdom hnext hn (hpath ▸ List.prefix_refl _), hnew⟩

/-- What was created after tables were created. -/
theorem Created.after {s' : Mm} {res : Res Mm (Option Nat)} (hgrown : Grown top root s s')
    (halong : Along top root r va s s') (h : Created ok top root r va s' res) :
    Created ok top root r va s res := by
  obtain ⟨s'', g, hres, ht, hgrown', halong', hg⟩ := h.done
  exact ⟨s'', g, hres, ht, hgrown.trans hgrown', halong.trans hgrown' halong', hg⟩

/-- A walk whose first table is missing goes on as one that finds it there. -/
theorem walkPage_linked (ht : Tables ok top s root) (hok : Linkable ok)
    (hva : pmlIndex va < top) (hg : root r = some g)
    (hmiss : target (Mem.entry s.mem g (pmlIndex va)) = none) (hn : s.phead = some n) :
    walkPage (frameVa g) va 1 s = walkPage (frameVa g) va 1 (s.linked g (pmlIndex va) n) := by
  have hroot : tableAt s.mem root r [] = some g := by rw [tableAt, Radix.node_nil, hg]
  have hg' : g < 2 ^ 19 := ht.small_of_table ⟨r, _, tablePath_nil, hroot⟩
  obtain ⟨-, hn'⟩ := ht.head hn
  obtain ⟨-, -, -, hempty⟩ := ht.link hok hroot (tablePath_one hva) hmiss hn
  have hthere := (ht.linked_forest hroot (tablePath_one hva) hn).entry
  unfold walkPage
  rw [Act.bind_ok (load_entry hg' (pmlIndex_lt va)), if_neg (target_eq_none.mp hmiss),
    if_neg (by decide), Act.bind_ok (newTable_ok hg' (pmlIndex_lt va) hn hn'),
    Act.bind_ok (load_entry hg' (pmlIndex_lt va)), if_pos (present_of_target hthere),
    tableVa_eq hthere hn', Act.bind_ok (load_entry hn' (pdpIndex_lt va)),
    hempty _ (pdpIndex_lt va), if_neg (by decide), if_neg (by decide)]

theorem head_of_walkPage (hg : g < 2 ^ 19)
    (hmiss : target (Mem.entry s.mem g (pmlIndex va)) = none)
    (hns : (walkPage (frameVa g) va 1 s).state.starved = false) : ∃ n, s.phead = some n := by
  unfold walkPage at hns
  rw [Act.bind_ok (load_entry hg (pmlIndex_lt va)), if_neg (target_eq_none.mp hmiss),
    if_neg (by decide)] at hns
  exact head_of_newTable (Starves.of_bind (fun _ => Starves.bind (newTable_starves _)
    fun _ => walkDir_starves _ va 1) hns)

/-- The walk that creates, where the first table is there. -/
theorem walkPage_create_below (ht : Tables ok top s root) (hok : Linkable ok)
    (hva : pmlIndex va < top) (hg : root r = some g)
    (hnext : target (Mem.entry s.mem g (pmlIndex va)) = some f)
    (hns : (walkPage (frameVa g) va 1 s).state.starved = false) :
    Created ok top root r va s (walkPage (frameVa g) va 1 s) := by
  have hroot : tableAt s.mem root r [] = some g := by rw [tableAt, Radix.node_nil, hg]
  have hg' : g < 2 ^ 19 := ht.small_of_table ⟨r, _, tablePath_nil, hroot⟩
  obtain ⟨hf, hf'⟩ := ht.step hroot (tablePath_one hva) hnext
  unfold walkPage at hns ⊢
  rw [Act.bind_ok (load_entry hg' (pmlIndex_lt va)), if_pos (present_of_target hnext),
    tableVa_eq hnext hf', Act.bind_ok (load_entry hf' (pdpIndex_lt va))] at hns ⊢
  cases hnext' : target (Mem.entry s.mem f (pdpIndex va)) with
  | some h =>
    obtain ⟨hh, hh'⟩ := ht.step hf (tablePath_two hva) hnext'
    rw [if_pos (present_of_target hnext'), tableVa_eq hnext' hh'] at hns ⊢
    exact walkDir_create ht hok hva hh hns
  | none =>
    rw [if_neg (target_eq_none.mp hnext'), if_neg (by decide)] at hns ⊢
    obtain ⟨n, hn⟩ := head_of_newTable (Starves.of_bind (fun _ => walkDir_starves _ va 1) hns)
    obtain ⟨-, hn'⟩ := ht.head hn
    obtain ⟨ht', hgrown, hnew, -⟩ := ht.link hok hf (tablePath_two hva) hnext' hn
    rw [Act.bind_ok (newTable_ok hf' (pdpIndex_lt va) hn hn')] at hns ⊢
    exact (walkDir_create ht' hok hva hnew hns).after hgrown
      (Along.link ht hok hf (tablePath_two hva) hnext' hn (List.prefix_append _ [pgdIndex va]))

/-- The walk that creates. -/
theorem walkPage_create (ht : Tables ok top s root) (hok : Linkable ok)
    (hva : pmlIndex va < top) (hg : root r = some g)
    (hns : (walkPage (frameVa g) va 1 s).state.starved = false) :
    Created ok top root r va s (walkPage (frameVa g) va 1 s) := by
  have hroot : tableAt s.mem root r [] = some g := by rw [tableAt, Radix.node_nil, hg]
  cases hnext : target (Mem.entry s.mem g (pmlIndex va)) with
  | some f => exact walkPage_create_below ht hok hva hg hnext hns
  | none =>
    -- the first table is linked, and the walk goes on from there
    have hg' : g < 2 ^ 19 := ht.small_of_table ⟨r, _, tablePath_nil, hroot⟩
    obtain ⟨n, hn⟩ := head_of_walkPage hg' hnext hns
    obtain ⟨ht', hgrown, -⟩ := ht.link hok hroot (tablePath_one hva) hnext hn
    have hthere := (ht.linked_forest hroot (tablePath_one hva) hn).entry
    rw [walkPage_linked ht hok hva hg hnext hn] at hns ⊢
    exact (walkPage_create_below ht' hok hva hg hthere hns).after hgrown
      (Along.link ht hok hroot (tablePath_one hva) hnext hn
        (List.prefix_append _ [pdpIndex va, pgdIndex va]))

end Walk

/-! ## Inserting and removing -/

section InsertRemove

variable {ok : Nat → Prop} {top : Nat} {s s' : Mm} {root : R → Option Nat}
variable {r r' : R} {f g va va' : Nat}

theorem insertPage_starves (pgdir va : Nat) (pp : Option Nat) (flag : Nat) :
    Act.Within Mm.Starves (insertPage pgdir va pp flag) := by
  unfold insertPage
  cases pp with
  | none => exact Starves.pure _
  | some p =>
    refine Starves.bind (walkPage_starves pgdir va 1) fun o => ?_
    cases o with
    | none => exact Starves.pure _
    | some pte =>
      exact Starves.bind (Starves.gets _) fun _ => Starves.bind (Starves.store 8 pte _) fun _ =>
        Starves.pure _

theorem removePage_starves (pgdir va : Nat) : Act.Within Mm.Starves (removePage pgdir va) := by
  refine Starves.bind (walkPage_starves pgdir va 0) fun o => ?_
  cases o with
  | none => exact Starves.pure _
  | some pte =>
    have hlast : Act.Within Mm.Starves (do
        store 8 pte 0
        return (0 : Int)) := Starves.bind (Starves.store 8 pte 0) fun _ => Starves.pure _
    refine Starves.bind (Starves.load 8 pte) fun e => ?_
    show Act.Within Mm.Starves (if _ then _ else _)
    split
    · exact Starves.bind (Starves.freePage _) fun _ => hlast
    · exact hlast

/-- `insert_page`: the tables that were missing are created, and the leaf set. -/
theorem insertPage_run (ht : Tables ok top s root) (hok : Linkable ok)
    (hva : pmlIndex va < top) (hg : root r = some g) {pp flag : Nat}
    (hns : (insertPage (frameVa g) va (some pp) flag s).state.starved = false) :
    ∃ s' h, Tables ok top s' root ∧ Grown top root s s' ∧ Along top root r va s s' ∧
      tableAt s'.mem root r (pathTo va) = some h ∧
      insertPage (frameVa g) va (some pp) flag s =
        .ok 0 (s'.setLeaf h va (pp <<< pteShift ||| flag)) := by
  have hrest : ∀ o : Option Nat, Act.Within Mm.Starves (match o with
      | none => (pure (-1) : Act Mm Int)
      | some pte => do
        let pa ← Act.gets fun s => s.page2pa (some pp)
        store 8 pte (pa ||| flag)
        return 0) := by
    intro o
    cases o with
    | none => exact Starves.pure _
    | some pte =>
      exact Starves.bind (Starves.gets _) fun _ => Starves.bind (Starves.store 8 pte _) fun _ =>
        Starves.pure _
  unfold insertPage at hns ⊢
  obtain ⟨s', h, hres, ht', hgrown, halong, hh⟩ :=
    (walkPage_create ht hok hva hg (Starves.of_bind hrest hns)).done
  have hh' : h < 2 ^ 19 := ht'.small_of_table ⟨r, _, tablePath_pathTo hva, hh⟩
  refine ⟨s', h, ht', hgrown, halong, hh, ?_⟩
  show (walkPage (frameVa g) va 1 >>= _) s = _
  rw [Act.bind_ok hres]
  simp only [Act.gets_bind_apply, Mm.page2pa]
  rw [Act.bind_ok (store_leaf hh')]
  rfl

/-- Where the first table is missing, the head of the free list becomes it. -/
theorem insertPage_head (ht : Tables ok top s root) (hok : Linkable ok)
    (hva : pmlIndex va < top) (hg : root r = some g) {pp flag n : Nat}
    (hmiss : target (Mem.entry s.mem g (pmlIndex va)) = none) (hn : s.phead = some n)
    (hns : (insertPage (frameVa g) va (some pp) flag s).state.starved = false) :
    IsTable top (insertPage (frameVa g) va (some pp) flag s).state.mem root n := by
  have hroot : tableAt s.mem root r [] = some g := by rw [tableAt, Radix.node_nil, hg]
  obtain ⟨ht', -, hnew, -⟩ := ht.link hok hroot (tablePath_one hva) hmiss hn
  have hsame : insertPage (frameVa g) va (some pp) flag s =
      insertPage (frameVa g) va (some pp) flag (s.linked g (pmlIndex va) n) :=
    Act.bind_congr (walkPage_linked ht hok hva hg hmiss hn) _
  rw [hsame] at hns ⊢
  obtain ⟨s', h, ht'', hgrown, -, hh, hrun⟩ := insertPage_run ht' hok hva hg hns
  rw [hrun]
  refine ⟨r, _, tablePath_one hva, ?_⟩
  show tableAt (s'.setLeaf h va _).mem root r _ = _
  rw [ht''.setLeaf_tableAt hva hh _ (tablePath_one hva)]
  exact hgrown.tables (tablePath_one hva) hnew

/-- `remove_page` of an address without a last table. -/
theorem removePage_missing (ht : Tables ok top s root) (hva : pmlIndex va < top)
    (hg : root r = some g) (hmiss : tableAt s.mem root r (pathTo va) = none) :
    removePage (frameVa g) va s = .ok (-1) s := by
  unfold removePage
  rw [Act.bind_ok (walkPage_lookup ht hva hg), hmiss]
  rfl

/-- `remove_page` of a page that is not present clears its leaf. -/
theorem removePage_absent (ht : Tables ok top s root) (hva : pmlIndex va < top)
    (hg : root r = some g) {h : Nat} (hh : tableAt s.mem root r (pathTo va) = some h)
    (habs : target (leaf s.mem root r va) = none) :
    removePage (frameVa g) va s = .ok 0 (s.setLeaf h va 0) := by
  have hh' : h < 2 ^ 19 := ht.small_of_table ⟨r, _, tablePath_pathTo hva, hh⟩
  rw [leaf_of_tableAt hh] at habs
  unfold removePage
  rw [Act.bind_ok (walkPage_lookup ht hva hg), hh]
  show (load 8 (leafVa h va) >>= _) s = _
  rw [Act.bind_ok (load_leaf hh')]
  simp only [if_neg (target_eq_none.mp habs)]
  rw [Act.bind_ok (store_leaf hh')]
  rfl

/-- `remove_page` of a mapped page frees one reference of the frame and
clears the leaf. -/
theorem removePage_present (ht : Tables ok top s root) (hva : pmlIndex va < top)
    (hg : root r = some g) {h : Nat} (hh : tableAt s.mem root r (pathTo va) = some h)
    (hf : target (leaf s.mem root r va) = some f) (h1 : 1 ≤ s.count f)
    (h2 : s.count f < 2 ^ 31) :
    removePage (frameVa g) va s = .ok 0 ((s.freed f).setLeaf h va 0) := by
  have hh' : h < 2 ^ 19 := ht.small_of_table ⟨r, _, tablePath_pathTo hva, hh⟩
  rw [leaf_of_tableAt hh] at hf
  have hpres := present_of_target hf
  have hfe : Mem.entry s.mem h (pteIndex va) >>> pteShift = f := by
    rw [target, if_pos hpres] at hf
    rw [Nat.shiftRight_eq_div_pow]
    exact Option.some.inj hf
  unfold removePage
  rw [Act.bind_ok (walkPage_lookup ht hva hg), hh]
  show (load 8 (leafVa h va) >>= _) s = _
  rw [Act.bind_ok (load_leaf hh')]
  simp only [if_pos hpres, hfe]
  rw [Act.bind_ok (freePage_ok h1 h2), Act.bind_ok (store_leaf hh')]
  rfl

end InsertRemove

/-! ## Enough frames -/

section Enough

variable {ok : Nat → Prop} {top : Nat} {s : Mm} {root : R → Option Nat}
variable {r : R} {p : List Nat} {g i k va : Nat}

/-- At least `k` frames are free. -/
def Mm.Enough (s : Mm) (k : Nat) : Prop := ∃ l, FreeList s l ∧ k ≤ l.length

theorem Mm.Enough.mono {j : Nat} (h : s.Enough k) (hj : j ≤ k) : s.Enough j := by
  obtain ⟨l, hl, hk⟩ := h
  exact ⟨l, hl, Nat.le_trans hj hk⟩

theorem Mm.Enough.head (h : s.Enough (k + 1)) :
    ∃ n, s.phead = some n ∧ ∀ g i, (s.linked g i n).Enough k := by
  obtain ⟨l, hl, hk⟩ := h
  cases hn : s.phead with
  | none =>
    rw [hl.phead_none hn] at hk
    exact absurd hk (Nat.not_succ_le_zero k)
  | some n =>
    obtain ⟨l', rfl, -⟩ := hl.phead_some hn
    exact ⟨n, rfl, fun g i => ⟨l', hl.taken.congr rfl rfl rfl, Nat.le_of_succ_le_succ hk⟩⟩

theorem linked_starved (n : Nat) : (s.linked g i n).starved = s.starved :=
  Mm.taken_starved s pgzero n

/-- The tables that are missing on the way to an address. -/
def missing (m : Mem) (root : R → Option Nat) (r : R) (va : Nat) : Nat :=
  if tableAt m root r [pmlIndex va] = none then 3
  else if tableAt m root r [pmlIndex va, pdpIndex va] = none then 2
  else if tableAt m root r (pathTo va) = none then 1 else 0

theorem missing_le (m : Mem) (root : R → Option Nat) (r : R) (va : Nat) :
    missing m root r va ≤ 3 := by
  unfold missing
  split
  · exact Nat.le_refl 3
  · split
    · decide
    · split <;> decide

/-- A missing entry is a missing table. -/
theorem Tables.next_none (hg : tableAt s.mem root r p = some g)
    (hnext : target (Mem.entry s.mem g i) = none) : tableAt s.mem root r (p ++ [i]) = none := by
  rw [tableAt, Radix.node_snoc]
  rw [tableAt] at hg
  rw [hg, Option.bind_some, hnext]

theorem walkDir_enough (ht : Tables ok top s root) (hva : pmlIndex va < top)
    (hg : tableAt s.mem root r [pmlIndex va, pdpIndex va] = some g)
    (hen : tableAt s.mem root r (pathTo va) = none → s.Enough 1) :
    (walkDir (frameVa g) va 1 s).state.starved = s.starved := by
  have hg' : g < 2 ^ 19 := ht.small_of_table ⟨r, _, tablePath_two hva, hg⟩
  unfold walkDir
  rw [Act.bind_ok (load_entry hg' (pgdIndex_lt va))]
  cases hnext : target (Mem.entry s.mem g (pgdIndex va)) with
  | some f =>
    rw [if_pos (present_of_target hnext)]
    rfl
  | none =>
    obtain ⟨n, hn, -⟩ := (hen (Tables.next_none hg hnext)).head
    rw [if_neg (target_eq_none.mp hnext), if_pos rfl,
      Act.bind_ok (newTable_ok hg' (pgdIndex_lt va) hn (ht.head hn).2)]
    exact linked_starved n

/-- A walk takes a frame for each table that is missing: where the first is there, ... -/
theorem walkPage_enough_below (ht : Tables ok top s root) (hok : Linkable ok)
    (hva : pmlIndex va < top) (hg : root r = some g) {f : Nat}
    (hnext : target (Mem.entry s.mem g (pmlIndex va)) = some f)
    (hen : s.Enough (missing s.mem root r va)) :
    (walkPage (frameVa g) va 1 s).state.starved = s.starved := by
  have hroot : tableAt s.mem root r [] = some g := by rw [tableAt, Radix.node_nil, hg]
  have hg' : g < 2 ^ 19 := ht.small_of_table ⟨r, _, tablePath_nil, hroot⟩
  obtain ⟨hf, hf'⟩ := ht.step hroot (tablePath_one hva) hnext
  unfold walkPage
  rw [Act.bind_ok (load_entry hg' (pmlIndex_lt va)), if_pos (present_of_target hnext),
    tableVa_eq hnext hf', Act.bind_ok (load_entry hf' (pdpIndex_lt va))]
  rw [missing, if_neg (by rw [List.nil_append] at hf; rw [hf]; simp)] at hen
  cases hnext' : target (Mem.entry s.mem f (pdpIndex va)) with
  | some h =>
    obtain ⟨hh, hh'⟩ := ht.step hf (tablePath_two hva) hnext'
    rw [if_pos (present_of_target hnext'), tableVa_eq hnext' hh']
    refine walkDir_enough ht hva hh fun hnone => ?_
    rw [if_neg (by rw [List.nil_append, List.singleton_append] at hh; rw [hh]; simp),
      if_pos hnone] at hen
    exact hen
  | none =>
    have hnone := Tables.next_none hf hnext'
    rw [List.nil_append, List.singleton_append] at hnone
    rw [if_pos hnone] at hen
    obtain ⟨n, hn, hen'⟩ := hen.head
    obtain ⟨-, hn'⟩ := ht.head hn
    rw [if_neg (target_eq_none.mp hnext'), if_neg (by decide)]
    obtain ⟨ht', -, hnew, -⟩ := ht.link hok hf (tablePath_two hva) hnext' hn
    rw [Act.bind_ok (newTable_ok hf' (pdpIndex_lt va) hn hn'),
      walkDir_enough ht' hva hnew fun _ => hen' _ _]
    exact linked_starved n

/-- ... and where it is not. -/
theorem walkPage_enough (ht : Tables ok top s root) (hok : Linkable ok)
    (hva : pmlIndex va < top) (hg : root r = some g)
    (hen : s.Enough (missing s.mem root r va)) :
    (walkPage (frameVa g) va 1 s).state.starved = s.starved := by
  have hroot : tableAt s.mem root r [] = some g := by rw [tableAt, Radix.node_nil, hg]
  cases hnext : target (Mem.entry s.mem g (pmlIndex va)) with
  | some f => exact walkPage_enough_below ht hok hva hg hnext hen
  | none =>
    have hnone := Tables.next_none hroot hnext
    rw [List.nil_append] at hnone
    rw [missing, if_pos hnone] at hen
    obtain ⟨n, hn, hen'⟩ := hen.head
    obtain ⟨ht', -, hnew, hempty⟩ := ht.link hok hroot (tablePath_one hva) hnext hn
    have hthere := (ht.linked_forest hroot (tablePath_one hva) hn).entry
    -- the second table is missing from the new first one
    have hbelow : tableAt (s.linked g (pmlIndex va) n).mem root r [pmlIndex va, pdpIndex va] = none :=
      Tables.next_none (i := pdpIndex va) hnew (by rw [hempty _ (pdpIndex_lt va)]; exact target_zero)
    have hmiss : missing (s.linked g (pmlIndex va) n).mem root r va = 2 := by
      rw [List.nil_append] at hnew
      rw [missing, if_neg (by rw [hnew]; simp), if_pos hbelow]
    rw [walkPage_linked ht hok hva hg hnext hn,
      walkPage_enough_below ht' hok hva hg hthere (hmiss ▸ hen' _ _), linked_starved]

/-- A page is inserted with a frame for each table that is missing. -/
theorem insertPage_enough (ht : Tables ok top s root) (hok : Linkable ok)
    (hva : pmlIndex va < top) (hg : root r = some g)
    (hen : s.Enough (missing s.mem root r va))
    (hs : s.starved = false) (pp flag : Nat) :
    (insertPage (frameVa g) va (some pp) flag s).state.starved = false := by
  have hwalk := walkPage_enough ht hok hva hg hen
  obtain ⟨s', h, hres, ht', -, -, hh⟩ := (walkPage_create ht hok hva hg (hwalk.trans hs)).done
  have hh' : h < 2 ^ 19 := ht'.small_of_table ⟨r, _, tablePath_pathTo hva, hh⟩
  unfold insertPage
  show ((walkPage (frameVa g) va 1 >>= _) s).state.starved = false
  rw [hres] at hwalk
  rw [Act.bind_ok hres]
  simp only [Act.gets_bind_apply]
  rw [Act.bind_ok (store_leaf hh')]
  exact hwalk.trans hs

end Enough

end Myos.Kernel
