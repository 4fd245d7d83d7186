import Myos.Lib.Radix
import Myos.Kernel.Page

/-!
# The forest of page tables

The tables of a family of page directories are the nodes of `Radix`: a path
of at most three indices leads from a root to a table, and the entries of a
table three levels down are the LEAVES, one for each page. `Tables` is what
the code relies on — no table is reached twice, every table is in use — and
`leaf` is the map that is stored in it.

Memory changes in two ways only. A table is LINKED (`Tables.link`): the
forest has one table more, and every leaf is as it was (`Grown`). A leaf is
SET (`Mm.setLeaf`): the forest is as it was, and so is every other leaf.
-/

namespace Myos.Kernel

open Myos.Lib

/-! ## Words of a frame -/

theorem Mem.entry_lt (m : Mem) (f i : Nat) : Mem.entry m f i < 2 ^ 64 :=
  Mem.rd_lt 8 m _

/-- The entries of a frame depend on the bytes of the frame. -/
theorem Mem.entry_congr {m m' : Mem} {f i : Nat} (hi : i < 512)
    (h : ∀ o, o < pageSize → m' (pageSize * f + o) = m (pageSize * f + o)) :
    Mem.entry m' f i = Mem.entry m f i := by
  unfold pageSize at h
  refine Mem.rd_congr fun x h1 h2 => ?_
  unfold pageSize at h1 h2
  have hx := h (x - 4096 * f) (by omega)
  rwa [show 4096 * f + (x - 4096 * f) = x by omega] at hx

/-- Storing an entry changes that entry and no other. -/
theorem Mem.entry_wr (m : Mem) (v : Nat) {f i g j : Nat} (hi : i < 512) (hj : j < 512) :
    Mem.entry (Mem.wr 8 m (pageSize * g + 8 * j) v) f i =
      if f = g ∧ i = j then v % 2 ^ 64 else Mem.entry m f i := by
  unfold Mem.entry pageSize
  by_cases h : f = g ∧ i = j
  · rw [if_pos h, h.1, h.2]
    exact Mem.rd_wr_same 8 m _ v
  · rw [if_neg h]
    exact Mem.rd_wr_disjoint (by omega)

/-- Storing an entry of one frame leaves the bytes of the others. -/
theorem Mem.wr_entry_out (m : Mem) (v : Nat) {f g j o : Nat} (hj : j < 512) (ho : o < pageSize)
    (hfg : f ≠ g) : Mem.wr 8 m (pageSize * g + 8 * j) v (pageSize * f + o) =
      m (pageSize * f + o) := by
  unfold pageSize at *
  exact Mem.wr_out (by omega)

/-- A frame filled with nought has entries of nought. -/
theorem Mem.entry_fill (m : Mem) {f i : Nat} (hi : i < 512) :
    Mem.entry (m.fill (pageSize * f) pageSize 0) f i = 0 := by
  unfold Mem.entry pageSize
  refine Mem.rd_zero fun x h1 h2 => ?_
  exact Mem.overlay_in (by omega)

/-- Filling one frame leaves the bytes of the others. -/
theorem Mem.fill_out (m : Mem) {f g o : Nat} (ho : o < pageSize) (hfg : f ≠ g) :
    m.fill (pageSize * g) pageSize 0 (pageSize * f + o) = m (pageSize * f + o) := by
  unfold pageSize at *
  exact Mem.overlay_out (by omega)

/-! ## The forest of tables -/

/-- The frame an entry refers to, if it is present. -/
def target (e : Nat) : Option Nat := if e &&& pteP ≠ 0 then some (e / pageSize) else none

/-- The paths that lead to tables: at most three indices, the first of them
below `top`. -/
def TablePath (top : Nat) (p : List Nat) : Prop :=
  p.length ≤ 3 ∧ (∀ i ∈ p, i < 512) ∧ ∀ i, p.head? = some i → i < top

theorem TablePath.init {top : Nat} (p : List Nat) (i : Nat) (h : TablePath top (p ++ [i])) :
    TablePath top p := by
  obtain ⟨hlen, hidx, hhead⟩ := h
  refine ⟨?_, fun j hj => hidx j (List.mem_append_left _ hj), fun j hj => hhead j ?_⟩
  · rw [List.length_append] at hlen
    omega
  · rw [List.head?_append, hj]
    rfl

theorem TablePath.last {top : Nat} {p : List Nat} {i : Nat} (h : TablePath top (p ++ [i])) :
    i < 512 := h.2.1 i (by simp)

/-- The path to the last table of an address. -/
def pathTo (va : Nat) : List Nat := [pmlIndex va, pdpIndex va, pgdIndex va]

section Paths

variable {top va : Nat}

theorem tablePath_nil : TablePath top [] := ⟨by simp, by simp, by simp⟩

theorem tablePath_one (h : pmlIndex va < top) : TablePath top [pmlIndex va] := by
  have := pmlIndex_lt va
  exact ⟨by simp, by simpa, by simpa⟩

theorem tablePath_two (h : pmlIndex va < top) : TablePath top [pmlIndex va, pdpIndex va] := by
  have h4 := pmlIndex_lt va
  have h3 := pdpIndex_lt va
  exact ⟨by simp, by simp [h4, h3], by simpa⟩

theorem tablePath_pathTo (h : pmlIndex va < top) : TablePath top (pathTo va) := by
  have h4 := pmlIndex_lt va
  have h3 := pdpIndex_lt va
  have h2 := pgdIndex_lt va
  exact ⟨by simp [pathTo], by simp [pathTo, h4, h3, h2], by simpa [pathTo]⟩

end Paths

variable {R : Type*}

/-- The table a path leads to from a page directory. -/
def tableAt (m : Mem) (root : R → Option Nat) (r : R) (p : List Nat) : Option Nat :=
  Radix.node target (Mem.entry m) root r p

/-- The entry of the page of an address; nought where a table is missing. -/
def leaf (m : Mem) (root : R → Option Nat) (r : R) (va : Nat) : Nat :=
  match tableAt m root r (pathTo va) with
  | some g => Mem.entry m g (pteIndex va)
  | none => 0

/-- `g` is one of the tables. -/
def IsTable (top : Nat) (m : Mem) (root : R → Option Nat) (g : Nat) : Prop :=
  ∃ r p, TablePath top p ∧ tableAt m root r p = some g

/-- A frame `alloc_page` may hand out. -/
def Mm.Free (s : Mm) (f : Nat) : Prop := f < s.npages ∧ s.count f = 0

/-- What the code relies on: no table is reached twice, every table is a frame
in use, the free list is in order, and the entries that tables are linked with
are ones the property `ok` holds of. -/
structure Tables (ok : Nat → Prop) (top : Nat) (s : Mm) (root : R → Option Nat) : Prop where
  small : s.npages ≤ 2 ^ 19
  list : ∃ l, FreeList s l
  separated : Radix.Separated target (TablePath top) (Mem.entry s.mem) root
  inUse : ∀ {g}, IsTable top s.mem root g → g < s.npages ∧ s.count g ≠ 0
  flags : ∀ {r p i g}, TablePath top (p ++ [i]) → tableAt s.mem root r p = some g →
    ok (Mem.entry s.mem g i)

/-! ## Roots -/

section Roots

variable {R : Type*} [DecidableEq R] {m : Mem} {root : R → Option Nat} {d r : R} {p : List Nat}

/-- A root dropped takes its tables with it. -/
theorem tableAt_drop : tableAt m (Function.update root d none) r p =
    if r = d then none else tableAt m root r p := by
  unfold tableAt Radix.node Function.update
  by_cases hr : r = d
  · subst hr
    simp
  · simp [hr]

end Roots

/-! ## What the forest depends on -/

section Congr

variable {ok : Nat → Prop} {top : Nat} {s s' : Mm} {root : R → Option Nat} {r : R} {f : Nat}

/-- The tables depend on their own inner entries. -/
theorem tableAt_congr {m m' : Mem}
    (he : ∀ {r p i g}, TablePath top (p ++ [i]) → tableAt m root r p = some g →
      Mem.entry m' g i = Mem.entry m g i) {p : List Nat} (hp : TablePath top p) :
    tableAt m' root r p = tableAt m root r p :=
  Radix.node_congr TablePath.init rfl (fun _ _ _ _ hd hn => by rw [he hd hn]) r p hp

/-- The tables stay in order as long as their inner entries, their counts and
the free list do. -/
theorem Tables.congr (ht : Tables ok top s root) (hn : s'.npages = s.npages)
    (hl : ∃ l, FreeList s' l) (hc : ∀ {g}, IsTable top s.mem root g → s'.count g ≠ 0)
    (he : ∀ {r p i g}, TablePath top (p ++ [i]) → tableAt s.mem root r p = some g →
      Mem.entry s'.mem g i = Mem.entry s.mem g i) : Tables ok top s' root where
  small := hn ▸ ht.small
  list := hl
  separated := Radix.Separated.congr ht.separated fun _ _ hp => tableAt_congr he hp
  inUse := by
    rintro g ⟨r, p, hp, hg⟩
    rw [tableAt_congr he hp] at hg
    have hgt : IsTable top s.mem root g := ⟨r, p, hp, hg⟩
    exact ⟨hn ▸ (ht.inUse hgt).1, hc hgt⟩
  flags := by
    intro r p i g hpi hg
    rw [tableAt_congr he hpi.init] at hg
    rw [he hpi hg]
    exact ht.flags hpi hg

/-- The frames that are tables are the same where the tables are. -/
theorem isTable_congr {m m' : Mem}
    (h : ∀ {r p}, TablePath top p → tableAt m' root r p = tableAt m root r p) (f : Nat) :
    IsTable top m' root f ↔ IsTable top m root f := by
  constructor
  · rintro ⟨r, p, hp, hf⟩
    exact ⟨r, p, hp, (h hp).symm.trans hf⟩
  · rintro ⟨r, p, hp, hf⟩
    exact ⟨r, p, hp, (h hp).trans hf⟩

/-- Freeing a reference of a frame that is no table keeps the tables. -/
theorem Tables.freed (ht : Tables ok top s root) (hf : f < s.npages)
    (hft : ¬ IsTable top s.mem root f) (h1 : 1 ≤ s.count f) (h2 : s.count f < 2 ^ 31) :
    Tables ok top (s.freed f) root := by
  obtain ⟨l, hl⟩ := ht.list
  refine ht.congr (Mm.freed_npages s f) (hl.freed hf h1 h2) (fun {g} hg => ?_) fun _ _ => ?_
  · have hgf : g ≠ f := fun h => hft (h ▸ hg)
    rw [Mm.freed_count h1 h2, if_neg hgf]
    exact (ht.inUse hg).2
  · rw [Mm.freed_mem]

end Congr

/-! ## Linking a table -/

/-- The entry the walk links a new table with. -/
def tableEntry (n : Nat) : Nat := n <<< pteShift ||| pteU ||| pteW ||| pteP

theorem tableEntry_eq (n : Nat) : tableEntry n = pageSize * n + 7 := by
  unfold tableEntry pteShift pteU pteW pteP pageSize
  rw [Nat.or_assoc, Nat.or_assoc, show 4 ||| (2 ||| 1) = 7 from rfl,
    ← Nat.shiftLeft_add_eq_or_of_lt (by decide), Nat.shiftLeft_eq]
  omega

theorem land_pteP_ne_zero {e : Nat} : e &&& pteP ≠ 0 ↔ e % 2 = 1 := by
  rw [land_pteP]
  omega

theorem target_zero : target 0 = none := rfl

theorem target_eq_none {e : Nat} : target e = none ↔ ¬ (e &&& pteP ≠ 0) := by
  unfold target
  split
  · next h => simp [h]
  · next h => simp [h]

theorem present_of_target {e g : Nat} (h : target e = some g) : e &&& pteP ≠ 0 := by
  unfold target at h
  split at h
  · next hp => exact hp
  · cases h

theorem target_tableEntry (n : Nat) : target (tableEntry n) = some n := by
  have hp : tableEntry n &&& pteP ≠ 0 := by
    rw [land_pteP_ne_zero, tableEntry_eq]
    unfold pageSize
    omega
  rw [target, if_pos hp, tableEntry_eq]
  unfold pageSize
  congr 1
  omega

/-- A property of entries that fresh tables and the links to them have. -/
structure Linkable (ok : Nat → Prop) : Prop where
  link : ∀ n, ok (tableEntry n)
  zero : ok 0

/-- What creating tables may change: tables are added, from frames that were
free. Every leaf, every other frame in use and every entry of a page directory
from `top` on are as they were. -/
structure Grown (top : Nat) (root : R → Option Nat) (s s' : Mm) : Prop where
  npages : s'.npages = s.npages
  pagesVa : s'.pagesVa = s.pagesVa
  cr3 : s'.cr3 = s.cr3
  starved : s'.starved = s.starved
  count : ∀ {f}, ¬ s.Free f → s'.count f = s.count f
  taken : ∀ {f}, s.Free f → s'.count f = 0 ∨ s'.count f = 1
  tables : ∀ {r p g}, TablePath top p → tableAt s.mem root r p = some g →
    tableAt s'.mem root r p = some g
  fresh : ∀ {g}, IsTable top s'.mem root g → IsTable top s.mem root g ∨ s.Free g
  leaf : ∀ {r va}, pmlIndex va < top → leaf s'.mem root r va = leaf s.mem root r va
  bytes : ∀ {f o}, ¬ s.Free f → ¬ IsTable top s.mem root f → o < pageSize →
    s'.mem (pageSize * f + o) = s.mem (pageSize * f + o)
  high : ∀ {r g i}, root r = some g → top ≤ i → i < 512 →
    Mem.entry s'.mem g i = Mem.entry s.mem g i

namespace Grown

variable {top : Nat} {root : R → Option Nat} {s s' s'' : Mm} {f : Nat}

theorem refl (s : Mm) : Grown top root s s :=
  ⟨rfl, rfl, rfl, rfl, fun _ => rfl, fun h => .inl h.2, fun _ h => h, fun h => .inl h,
    fun _ => rfl, fun _ _ _ => rfl, fun _ _ _ => rfl⟩

/-- A frame in use stays in use. -/
theorem not_free (h : Grown top root s s') (hf : ¬ s.Free f) : ¬ s'.Free f := by
  rintro ⟨hlt, hz⟩
  rw [h.count hf] at hz
  exact hf ⟨h.npages ▸ hlt, hz⟩

/-- A frame in use does not become a table. -/
theorem not_table (h : Grown top root s s') (hf : ¬ s.Free f)
    (ht : ¬ IsTable top s.mem root f) : ¬ IsTable top s'.mem root f := fun ht' =>
  (h.fresh ht').elim ht hf

theorem trans (h : Grown top root s s') (h' : Grown top root s' s'') : Grown top root s s'' where
  npages := h'.npages.trans h.npages
  pagesVa := h'.pagesVa.trans h.pagesVa
  cr3 := h'.cr3.trans h.cr3
  starved := h'.starved.trans h.starved
  count hf := (h'.count (h.not_free hf)).trans (h.count hf)
  taken {f} hf := by
    by_cases hf' : s'.Free f
    · exact h'.taken hf'
    · rw [h'.count hf']
      exact h.taken hf
  tables hp ht := h'.tables hp (h.tables hp ht)
  fresh ht := by
    rcases h'.fresh ht with ht | hfree
    · exact h.fresh ht
    · refine .inr (by_contra fun hf => h.not_free hf hfree)
  leaf hva := (h'.leaf hva).trans (h.leaf hva)
  bytes hf ht ho := (h'.bytes (h.not_free hf) (h.not_table hf ht) ho).trans (h.bytes hf ht ho)
  high hr h1 h2 := (h'.high hr h1 h2).trans (h.high hr h1 h2)

end Grown

/-- The state after a new table `n` was linked at entry `i` of the table `g`. -/
def Mm.linked (s : Mm) (g i n : Nat) : Mm :=
  (s.taken pgzero n).setMem
    (Mem.wr 8 (s.taken pgzero n).mem (pageSize * g + 8 * i) (tableEntry n))

section Link

variable {ok : Nat → Prop} {top : Nat} {s : Mm} {root : R → Option Nat}
variable {r : R} {p : List Nat} {g i n : Nat}

/-- A frame at the head of the free list is free, and its number is small. -/
theorem Tables.head (ht : Tables ok top s root) (hn : s.phead = some n) :
    s.Free n ∧ n < 2 ^ 19 := by
  obtain ⟨l, hl⟩ := ht.list
  obtain ⟨-, -, hlt, hz, -⟩ := hl.phead_some hn
  exact ⟨⟨hlt, hz⟩, Nat.lt_of_lt_of_le hlt ht.small⟩

theorem Tables.not_free (ht : Tables ok top s root) (hg : IsTable top s.mem root g) :
    ¬ s.Free g := fun hf => (ht.inUse hg).2 hf.2

theorem Tables.small_of_table (ht : Tables ok top s root) (hg : IsTable top s.mem root g) :
    g < 2 ^ 19 := Nat.lt_of_lt_of_le (ht.inUse hg).1 ht.small

/-- The next table on a path. -/
theorem Tables.step (ht : Tables ok top s root) (hg : tableAt s.mem root r p = some g)
    (hpi : TablePath top (p ++ [i])) (hnext : target (Mem.entry s.mem g i) = some f) :
    tableAt s.mem root r (p ++ [i]) = some f ∧ f < 2 ^ 19 := by
  have hf : tableAt s.mem root r (p ++ [i]) = some f := by
    rw [tableAt, Radix.node_snoc]
    rw [tableAt] at hg
    rw [hg, Option.bind_some, hnext]
  exact ⟨hf, ht.small_of_table ⟨r, _, hpi, hf⟩⟩

/-- The entries after a new table was linked. -/
theorem linked_entry (hgn : g ≠ n) (hn : n < 2 ^ 19) (hi : i < 512) {f j : Nat} (hj : j < 512) :
    Mem.entry (s.linked g i n).mem f j =
      if f = g ∧ j = i then tableEntry n else if f = n then 0 else Mem.entry s.mem f j := by
  unfold Mm.linked
  rw [Mm.setMem_mem, Mem.entry_wr _ _ hj hi, Mm.taken_mem_zeroed]
  by_cases h : f = g ∧ j = i
  · rw [if_pos h, if_pos h, Nat.mod_eq_of_lt]
    rw [tableEntry_eq]
    unfold pageSize
    omega
  · rw [if_neg h, if_neg h]
    by_cases hf : f = n
    · subst hf
      rw [if_pos rfl, Mem.entry_fill _ hj]
    · rw [if_neg hf]
      exact Mem.entry_congr hj fun o ho => Mem.fill_out _ ho hf

/-- Linking, as a change of the forest. -/
theorem Tables.linked_forest (ht : Tables ok top s root) (hg : tableAt s.mem root r p = some g)
    (hpi : TablePath top (p ++ [i])) (hn : s.phead = some n) :
    Radix.Linked target (TablePath top) (Mem.entry s.mem) (Mem.entry (s.linked g i n).mem)
      g i n := by
  obtain ⟨hfree, hsmall⟩ := ht.head hn
  have hgn : g ≠ n := by
    rintro rfl
    exact ht.not_free ⟨r, p, hpi.init, hg⟩ hfree
  have key := fun {f j : Nat} => linked_entry (s := s) hgn hsmall hpi.last (f := f) (j := j)
  refine ⟨?_, fun q j hq => ?_, fun q f j hq hfn hfg => ?_⟩
  · rw [key hpi.last, if_pos ⟨rfl, rfl⟩]
    exact target_tableEntry n
  · rw [key hq.last, if_neg fun h => hgn h.1.symm, if_pos rfl]
    exact target_zero
  · rw [key hq.last, if_neg hfg, if_neg hfn]

/-- A frame in use keeps its count when a table is linked. -/
theorem linked_count (hn : s.count n = 0) (f : Nat) :
    (s.linked g i n).count f = if f = n then 1 else s.count f := by
  rw [Mm.linked, Mm.setMem_count, Mm.taken_count, hn]
  rfl

theorem Tables.linked_entry (ht : Tables ok top s root) (hg : tableAt s.mem root r p = some g)
    (hpi : TablePath top (p ++ [i])) (hn : s.phead = some n) {f j : Nat} (hj : j < 512) :
    Mem.entry (s.linked g i n).mem f j = if f = g ∧ j = i then tableEntry n
      else if f = n then 0 else Mem.entry s.mem f j := by
  obtain ⟨hfree, hsmall⟩ := ht.head hn
  refine Myos.Kernel.linked_entry (fun h => ?_) hsmall hpi.last hj
  exact ht.not_free ⟨r, p, hpi.init, hg⟩ (h ▸ hfree)

/-- The new table is where it was linked, and every other one where it was. -/
theorem Tables.linked_node (ht : Tables ok top s root) (hg : tableAt s.mem root r p = some g)
    (hpi : TablePath top (p ++ [i])) (habs : target (Mem.entry s.mem g i) = none)
    (hn : s.phead = some n) :
    tableAt (s.linked g i n).mem root r (p ++ [i]) = some n ∧
      ∀ {q path}, TablePath top path → ¬ (q = r ∧ path = p ++ [i]) →
        tableAt (s.linked g i n).mem root q path = tableAt s.mem root q path := by
  classical
  obtain ⟨hfree, -⟩ := ht.head hn
  have hnew : ∀ r p, TablePath top p → Radix.node target (Mem.entry s.mem) root r p ≠ some n :=
    fun r p hp h => ht.not_free ⟨r, p, hp, h⟩ hfree
  have key := Radix.node_link TablePath.init ht.separated hg hpi habs hnew
    (ht.linked_forest hg hpi hn)
  refine ⟨?_, fun {q path} hpath hne => ?_⟩
  · rw [tableAt, key r (p ++ [i]) hpi, if_pos ⟨rfl, rfl⟩]
  · rw [tableAt, key q path hpath, if_neg hne]
    rfl

/-- Linking adds the one table, and no other. -/
theorem Tables.linked_tableAt (ht : Tables ok top s root) (hg : tableAt s.mem root r p = some g)
    (hpi : TablePath top (p ++ [i])) (habs : target (Mem.entry s.mem g i) = none)
    (hn : s.phead = some n) {q : R} {path : List Nat} {f : Nat} (hpath : TablePath top path)
    (hf : tableAt (s.linked g i n).mem root q path = some f) :
    tableAt s.mem root q path = some f ∨ q = r ∧ path = p ++ [i] := by
  by_cases h : q = r ∧ path = p ++ [i]
  · exact .inr h
  · rw [(ht.linked_node hg hpi habs hn).2 hpath h] at hf
    exact .inl hf

/-- A table of the new forest is the new one or one of the old ones. -/
theorem Tables.linked_isTable (ht : Tables ok top s root) (hg : tableAt s.mem root r p = some g)
    (hpi : TablePath top (p ++ [i])) (habs : target (Mem.entry s.mem g i) = none)
    (hn : s.phead = some n) {f : Nat} (hf : IsTable top (s.linked g i n).mem root f) :
    f = n ∨ IsTable top s.mem root f := by
  obtain ⟨q, path, hpath, hf⟩ := hf
  rcases ht.linked_tableAt hg hpi habs hn hpath hf with hold | ⟨rfl, rfl⟩
  · exact .inr ⟨q, path, hpath, hold⟩
  · rw [(ht.linked_node hg hpi habs hn).1] at hf
    exact .inl (Option.some.inj hf).symm

/-- The new table is empty, and no page had a leaf there before. -/
theorem Tables.linked_leaf (ht : Tables ok top s root) (hg : tableAt s.mem root r p = some g)
    (hpi : TablePath top (p ++ [i])) (habs : target (Mem.entry s.mem g i) = none)
    (hn : s.phead = some n) {q : R} {va : Nat} (hva : pmlIndex va < top) :
    leaf (s.linked g i n).mem root q va = leaf s.mem root q va := by
  obtain ⟨hfree, -⟩ := ht.head hn
  have hpath := tablePath_pathTo hva
  have hgn : n ≠ g := fun h => ht.not_free ⟨r, p, hpi.init, hg⟩ (h ▸ hfree)
  obtain ⟨hself, hother⟩ := ht.linked_node hg hpi habs hn
  unfold leaf
  by_cases h : q = r ∧ pathTo va = p ++ [i]
  · rw [h.1, h.2, hself, tableAt, Radix.node_snoc]
    rw [tableAt] at hg
    rw [hg, Option.bind_some, habs]
    show Mem.entry _ n _ = 0
    rw [ht.linked_entry hg hpi hn (pteIndex_lt va), if_neg fun h => hgn h.1, if_pos rfl]
  · rw [hother hpath h]
    cases hf : tableAt s.mem root q (pathTo va) with
    | none => rfl
    | some f =>
      show Mem.entry _ f _ = Mem.entry _ f _
      have hfn : f ≠ n := fun h => ht.not_free ⟨q, pathTo va, hpath, h ▸ hf⟩ hfree
      rw [ht.linked_entry hg hpi hn (pteIndex_lt va), if_neg, if_neg hfn]
      rintro ⟨rfl, -⟩
      -- a table that links to tables holds no leaves
      have hsame := (ht.separated hpath hpi.init hf hg).2
      have hlen := hpi.1
      rw [← hsame, List.length_append, List.length_singleton] at hlen
      simp [pathTo] at hlen

/-- The tables are in order again. -/
theorem Tables.linked_tables (ht : Tables ok top s root) (hok : Linkable ok)
    (hg : tableAt s.mem root r p = some g) (hpi : TablePath top (p ++ [i]))
    (habs : target (Mem.entry s.mem g i) = none) (hn : s.phead = some n) :
    Tables ok top (s.linked g i n) root := by
  classical
  obtain ⟨hfree, hsmall⟩ := ht.head hn
  have hnew : ∀ r p, TablePath top p → Radix.node target (Mem.entry s.mem) root r p ≠ some n :=
    fun r p hp h => ht.not_free ⟨r, p, hp, h⟩ hfree
  have hnpages : (s.linked g i n).npages = s.npages := Mm.taken_npages s pgzero n
  refine ⟨?_, ?_, ?_, ?_, ?_⟩
  · rw [hnpages]
    exact ht.small
  · obtain ⟨l, hlist⟩ := ht.list
    obtain ⟨l', rfl, -⟩ := hlist.phead_some hn
    exact ⟨l', hlist.taken.congr rfl rfl rfl⟩
  · exact Radix.Separated.link TablePath.init ht.separated hg hpi habs hnew
      (ht.linked_forest hg hpi hn)
  · intro f hf
    rw [hnpages, linked_count hfree.2]
    rcases ht.linked_isTable hg hpi habs hn hf with rfl | hold
    · rw [if_pos rfl]
      exact ⟨hfree.1, by decide⟩
    · have hfn : f ≠ n := fun h => ht.not_free hold (h ▸ hfree)
      rw [if_neg hfn]
      exact ht.inUse hold
  · intro r' p' j f hj hf
    rw [ht.linked_entry hg hpi hn hj.last]
    by_cases h : f = g ∧ j = i
    · rw [if_pos h]
      exact hok.link n
    · rw [if_neg h]
      by_cases hfn : f = n
      · rw [if_pos hfn]
        exact hok.zero
      · rw [if_neg hfn]
        rcases ht.linked_tableAt hg hpi habs hn hj.init hf with hold | ⟨rfl, rfl⟩
        · exact ht.flags hj hold
        · rw [(ht.linked_node hg hpi habs hn).1] at hf
          exact absurd (Option.some.inj hf).symm hfn

/-- Nothing but the new table came. -/
theorem Tables.linked_grown (ht : Tables ok top s root) (hg : tableAt s.mem root r p = some g)
    (hpi : TablePath top (p ++ [i])) (habs : target (Mem.entry s.mem g i) = none)
    (hn : s.phead = some n) : Grown top root s (s.linked g i n) := by
  obtain ⟨hfree, -⟩ := ht.head hn
  have hgt : IsTable top s.mem root g := ⟨r, p, hpi.init, hg⟩
  have hkept : ∀ {f}, ¬ s.Free f → f ≠ n := fun hf h => hf (h ▸ hfree)
  refine ⟨Mm.taken_npages s pgzero n, Mm.taken_pagesVa s pgzero n, Mm.taken_cr3 s pgzero n,
    Mm.taken_starved s pgzero n, ?_, ?_, ?_, ?_, fun {_ _} => ht.linked_leaf hg hpi habs hn, ?_, ?_⟩
  · intro f hf
    rw [linked_count hfree.2, if_neg (hkept hf)]
  · intro f hf
    rw [linked_count hfree.2]
    by_cases hfn : f = n
    · exact .inr (if_pos hfn)
    · rw [if_neg hfn]
      exact .inl hf.2
  · intro r' p' f hp' hf
    rw [(ht.linked_node hg hpi habs hn).2 hp']
    · exact hf
    · rintro ⟨rfl, rfl⟩
      rw [tableAt, Radix.node_snoc] at hf
      rw [tableAt] at hg
      rw [hg, Option.bind_some, habs] at hf
      cases hf
  · intro f hf
    rcases ht.linked_isTable hg hpi habs hn hf with rfl | hold
    · exact .inr hfree
    · exact .inl hold
  · intro f o hf hft ho
    have hfg : f ≠ g := fun h => hft (h ▸ hgt)
    rw [Mm.linked, Mm.setMem_mem, Mem.wr_entry_out _ _ hpi.last ho hfg, Mm.taken_mem_zeroed,
      Mem.fill_out _ ho (hkept hf)]
  · intro r' f j hf h1 h2
    have hnil : tableAt s.mem root r' [] = some f := by rw [tableAt, Radix.node_nil, hf]
    have hft : IsTable top s.mem root f := ⟨r', [], tablePath_nil, hnil⟩
    have hfn : f ≠ n := fun h => ht.not_free hft (h ▸ hfree)
    rw [ht.linked_entry hg hpi hn h2, if_neg, if_neg hfn]
    rintro ⟨rfl, rfl⟩
    -- the entry linked at is not one of the others: its path starts below `top`
    obtain rfl : [] = p := (ht.separated tablePath_nil hpi.init hnil hg).2
    have hlow := hpi.2.2 j rfl
    omega

/-- LINK: the tables are in order again, with one more. -/
theorem Tables.link (ht : Tables ok top s root) (hok : Linkable ok)
    (hg : tableAt s.mem root r p = some g) (hpi : TablePath top (p ++ [i]))
    (habs : target (Mem.entry s.mem g i) = none) (hn : s.phead = some n) :
    Tables ok top (s.linked g i n) root ∧ Grown top root s (s.linked g i n) ∧
      tableAt (s.linked g i n).mem root r (p ++ [i]) = some n ∧
      ∀ j, j < 512 → Mem.entry (s.linked g i n).mem n j = 0 := by
  refine ⟨ht.linked_tables hok hg hpi habs hn, ht.linked_grown hg hpi habs hn,
    (ht.linked_node hg hpi habs hn).1, fun j hj => ?_⟩
  have hgn : n ≠ g := fun h => ht.not_free ⟨r, p, hpi.init, hg⟩ (h ▸ (ht.head hn).1)
  rw [ht.linked_entry hg hpi hn hj, if_neg fun h => hgn h.1, if_pos rfl]

end Link

/-! ## Where tables are added -/

section Along

variable {ok : Nat → Prop} {top : Nat} {s s' s'' : Mm} {root : R → Option Nat}
variable {r : R} {p : List Nat} {g i n va : Nat}

/-- What a walk to `va` adds: the tables there are now were there before or are
on the way to `va`, and every frame that was taken is one of them. -/
structure Along (top : Nat) (root : R → Option Nat) (r : R) (va : Nat) (s s' : Mm) : Prop where
  tables : ∀ {q path f}, TablePath top path → tableAt s'.mem root q path = some f →
    tableAt s.mem root q path = some f ∨ q = r ∧ path <+: pathTo va
  taken : ∀ {f}, s.Free f → s'.Free f ∨ IsTable top s'.mem root f

theorem Along.refl (s : Mm) : Along top root r va s s := ⟨fun _ hf => .inl hf, .inl⟩

theorem Along.trans (h : Along top root r va s s') (hgrown : Grown top root s' s'')
    (h' : Along top root r va s' s'') : Along top root r va s s'' where
  tables hpath hf := (h'.tables hpath hf).elim (fun hf => h.tables hpath hf) .inr
  taken := by
    intro f hfree
    rcases h.taken hfree with hfree | ⟨q, path, hpath, hf⟩
    · exact h'.taken hfree
    · exact .inr ⟨q, path, hpath, hgrown.tables hpath hf⟩

/-- A table linked on the way. -/
theorem Along.link (ht : Tables ok top s root) (hok : Linkable ok)
    (hg : tableAt s.mem root r p = some g) (hpi : TablePath top (p ++ [i]))
    (habs : target (Mem.entry s.mem g i) = none) (hn : s.phead = some n)
    (hway : p ++ [i] <+: pathTo va) : Along top root r va s (s.linked g i n) where
  tables := by
    intro q path f hpath hf
    rcases ht.linked_tableAt hg hpi habs hn hpath hf with hold | ⟨rfl, rfl⟩
    · exact .inl hold
    · exact .inr ⟨rfl, hway⟩
  taken := by
    intro f hfree
    obtain ⟨-, hgrown, hnew, -⟩ := ht.link hok hg hpi habs hn
    by_cases hfn : f = n
    · subst hfn
      exact .inr ⟨r, _, hpi, hnew⟩
    · refine .inl ⟨hgrown.npages ▸ hfree.1, ?_⟩
      rw [linked_count (ht.head hn).1.2, if_neg hfn]
      exact hfree.2

end Along

section Taken

variable {ok : Nat → Prop} {top n : Nat} {s : Mm} {root : R → Option Nat}

/-- Zeroing the frame that is taken leaves the bytes of the others. -/
theorem taken_bytes {f o : Nat} (hf : f ≠ n) (ho : o < pageSize) :
    (s.taken pgzero n).mem (pageSize * f + o) = s.mem (pageSize * f + o) := by
  rw [Mm.taken_mem_zeroed]
  exact Mem.fill_out _ ho hf

theorem taken_entry {f i : Nat} (hf : f ≠ n) (hi : i < 512) :
    Mem.entry (s.taken pgzero n).mem f i = Mem.entry s.mem f i :=
  Mem.entry_congr hi fun _ ho => taken_bytes hf ho

/-- The frame that is taken is no table. -/
theorem Tables.taken_inner (ht : Tables ok top s root) (hn : s.phead = some n) {r : R}
    {p : List Nat} {i f : Nat} (hpi : TablePath top (p ++ [i]))
    (hf : tableAt s.mem root r p = some f) :
    Mem.entry (s.taken pgzero n).mem f i = Mem.entry s.mem f i := by
  have hft : IsTable top s.mem root f := ⟨r, p, hpi.init, hf⟩
  exact taken_entry (fun h => ht.not_free (h ▸ hft) (ht.head hn).1) hpi.last

/-- Taking a frame leaves every table. -/
theorem Tables.taken_tableAt (ht : Tables ok top s root) (hn : s.phead = some n) {r : R}
    {p : List Nat} (hp : TablePath top p) :
    tableAt (s.taken pgzero n).mem root r p = tableAt s.mem root r p :=
  tableAt_congr (ht.taken_inner hn) hp

/-- TAKE: handing out the head of the free list, zeroed, leaves the forest. -/
theorem Tables.taken (ht : Tables ok top s root) (hn : s.phead = some n) :
    Tables ok top (s.taken pgzero n) root ∧ Grown top root s (s.taken pgzero n) ∧
      (s.taken pgzero n).count n = 1 ∧ ¬ IsTable top (s.taken pgzero n).mem root n := by
  obtain ⟨hfree, -⟩ := ht.head hn
  have hcount : ∀ f, (s.taken pgzero n).count f = if f = n then 1 else s.count f := fun f => by
    rw [Mm.taken_count, hfree.2]
    rfl
  have hnt : ¬ IsTable top s.mem root n := fun h => ht.not_free h hfree
  have hentry := fun {f i : Nat} => taken_entry (s := s) (n := n) (f := f) (i := i)
  have hinner := fun {r : R} {p : List Nat} {i f : Nat} =>
    ht.taken_inner hn (r := r) (p := p) (i := i) (f := f)
  have htab := fun {r : R} {p : List Nat} => ht.taken_tableAt hn (r := r) (p := p)
  have htable := isTable_congr htab
  refine ⟨ht.congr (Mm.taken_npages s pgzero n) ?_ (fun {g} hg => ?_) hinner,
    ⟨Mm.taken_npages s pgzero n, Mm.taken_pagesVa s pgzero n, Mm.taken_cr3 s pgzero n,
      Mm.taken_starved s pgzero n, fun {f} hf => ?_, fun {f} hf => ?_, fun hp hg => ?_,
      fun {g} hg => ?_, fun {r va} hva => ?_, fun {f o} hf _ ho => ?_, fun {r g i} hr h1 h2 => ?_⟩,
    ?_, fun h => hnt ((htable n).mp h)⟩
  · obtain ⟨l, hl⟩ := ht.list
    obtain ⟨l', rfl, -⟩ := hl.phead_some hn
    exact ⟨l', hl.taken⟩
  · have hgn : g ≠ n := fun h => hnt (h ▸ hg)
    rw [hcount, if_neg hgn]
    exact (ht.inUse hg).2
  · have hfn : f ≠ n := fun h => hf (h ▸ hfree)
    rw [hcount, if_neg hfn]
  · rw [hcount]
    split
    · exact .inr rfl
    · exact .inl hf.2
  · rw [htab hp]
    exact hg
  · exact .inl ((htable g).mp hg)
  · unfold leaf
    rw [htab (tablePath_pathTo hva)]
    cases hg : tableAt s.mem root r (pathTo va) with
    | none => rfl
    | some g =>
      have hgn : g ≠ n := fun h => hnt (h ▸ ⟨r, _, tablePath_pathTo hva, hg⟩)
      exact hentry hgn (pteIndex_lt va)
  · exact taken_bytes (fun h => hf (h ▸ hfree)) ho
  · have hgt : IsTable top s.mem root g :=
      ⟨r, [], tablePath_nil, by rw [tableAt, Radix.node_nil, hr]⟩
    exact hentry (fun h => hnt (h ▸ hgt)) h2
  · rw [hcount, if_pos rfl]

end Taken

/-! ## Changing a leaf -/

section Leaf

variable {ok : Nat → Prop} {top : Nat} {s s' : Mm} {root : R → Option Nat}
variable {r q : R} {f g va va' v : Nat}

/-- A table above the last level is not a last table. -/
theorem Tables.inner_ne (ht : Tables ok top s root) (hva : pmlIndex va < top)
    (hg : tableAt s.mem root r (pathTo va) = some g) {p : List Nat} {i : Nat}
    (hpi : TablePath top (p ++ [i])) (hf : tableAt s.mem root q p = some f) : f ≠ g := by
  rintro rfl
  have hp := (ht.separated hpi.init (tablePath_pathTo hva) hf hg).2
  have hlen := hpi.1
  rw [hp] at hlen
  simp [pathTo] at hlen

/-- The state after the leaf of `va`, in the last table `g`, was set. -/
def Mm.setLeaf (s : Mm) (g va v : Nat) : Mm :=
  s.setMem (Mem.wr 8 s.mem (pageSize * g + 8 * pteIndex va) v)

theorem setLeaf_entry {i : Nat} (hi : i < 512) : Mem.entry (s.setLeaf g va v).mem f i =
    if f = g ∧ i = pteIndex va then v % 2 ^ 64 else Mem.entry s.mem f i :=
  Mem.entry_wr s.mem v hi (pteIndex_lt va)

/-- Setting a leaf leaves the bytes of the other frames. -/
theorem setLeaf_bytes {o : Nat} (ho : o < pageSize) (hfg : f ≠ g) :
    (s.setLeaf g va v).mem (pageSize * f + o) = s.mem (pageSize * f + o) :=
  Mem.wr_entry_out s.mem v (pteIndex_lt va) ho hfg

/-- Setting a leaf leaves the tables. -/
theorem Tables.setLeaf_tableAt (ht : Tables ok top s root) (hva : pmlIndex va < top)
    (hg : tableAt s.mem root r (pathTo va) = some g) (v : Nat) {p : List Nat}
    (hp : TablePath top p) :
    tableAt (s.setLeaf g va v).mem root q p = tableAt s.mem root q p :=
  tableAt_congr (fun hpi hf => by
    rw [setLeaf_entry hpi.last, if_neg fun h => ht.inner_ne hva hg hpi hf h.1]) hp

theorem Tables.setLeaf (ht : Tables ok top s root) (hva : pmlIndex va < top)
    (hg : tableAt s.mem root r (pathTo va) = some g) (v : Nat) :
    Tables ok top (s.setLeaf g va v) root :=
  ht.congr rfl (by
    obtain ⟨l, hl⟩ := ht.list
    exact ⟨l, hl.congr rfl rfl rfl⟩) (fun hgt => (ht.inUse hgt).2) fun hpi hf => by
    rw [setLeaf_entry hpi.last, if_neg fun h => ht.inner_ne hva hg hpi hf h.1]

/-- Addresses are of one page if they have the same last table and the same index in it. -/
theorem page_eq_iff (hva : va < 2 ^ 48) (hva' : va' < 2 ^ 48) :
    va' / pageSize = va / pageSize ↔ pathTo va' = pathTo va ∧ pteIndex va' = pteIndex va := by
  constructor
  · intro h
    obtain ⟨h4, h3, h2, h1⟩ := indices_of_page_eq h
    exact ⟨by rw [pathTo, pathTo, h4, h3, h2], h1⟩
  · rintro ⟨hp, h1⟩
    simp only [pathTo, List.cons.injEq, and_true] at hp
    exact page_eq_of_indices hva' hva hp.1 hp.2.1 hp.2.2 h1

/-- The leaf that was set. -/
theorem Tables.leaf_setLeaf_same (ht : Tables ok top s root) (hva : pmlIndex va < top)
    (hg : tableAt s.mem root r (pathTo va) = some g) (hv : v < 2 ^ 64)
    (hpage : va' / pageSize = va / pageSize) :
    leaf (s.setLeaf g va v).mem root r va' = v := by
  obtain ⟨h4, h3, h2, h1⟩ := indices_of_page_eq hpage
  have hpath : pathTo va' = pathTo va := by rw [pathTo, pathTo, h4, h3, h2]
  rw [leaf, hpath, ht.setLeaf_tableAt hva hg v (tablePath_pathTo hva), hg]
  show Mem.entry _ g _ = v
  rw [setLeaf_entry (pteIndex_lt va'), if_pos ⟨rfl, h1⟩, Nat.mod_eq_of_lt hv]

/-- Every other leaf. -/
theorem Tables.leaf_setLeaf_other (ht : Tables ok top s root) (hva : pmlIndex va < top)
    (h48 : va < 2 ^ 48) (hg : tableAt s.mem root r (pathTo va) = some g) (v : Nat)
    (hva' : pmlIndex va' < top) (h48' : va' < 2 ^ 48)
    (hne : ¬ (q = r ∧ va' / pageSize = va / pageSize)) :
    leaf (s.setLeaf g va v).mem root q va' = leaf s.mem root q va' := by
  have hpath := tablePath_pathTo hva'
  rw [leaf, leaf, ht.setLeaf_tableAt hva hg v hpath]
  cases hf : tableAt s.mem root q (pathTo va') with
  | none => rfl
  | some f =>
    show Mem.entry _ f _ = Mem.entry _ f _
    rw [setLeaf_entry (pteIndex_lt va'), if_neg]
    rintro ⟨rfl, h1⟩
    obtain ⟨hr, hp⟩ := ht.separated hpath (tablePath_pathTo hva) hf hg
    exact hne ⟨hr, (page_eq_iff h48 h48').mpr ⟨hp, h1⟩⟩

/-- The leaf of an address whose last table is known. -/
theorem leaf_of_tableAt {m : Mem} (hg : tableAt m root r (pathTo va) = some g) :
    leaf m root r va = Mem.entry m g (pteIndex va) := by
  rw [leaf, hg]

/-- A present leaf is in a last table. -/
theorem tableAt_of_leaf {m : Mem} (h : leaf m root r va ≠ 0) :
    ∃ g, tableAt m root r (pathTo va) = some g := by
  unfold leaf at h
  cases hg : tableAt m root r (pathTo va) with
  | none => rw [hg] at h; exact absurd rfl h
  | some g => exact ⟨g, rfl⟩

end Leaf

end Myos.Kernel
