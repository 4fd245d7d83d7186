import Myos.Kernel.PageMap
import Myos.Kernel.Sweep

/-!
# What `free_pgtable` frees

A page directory in whose lower half tables were only made by mappings of
user addresses (`dirStep`), and the run of `free_pgtable` on it with a record
of what it does to memory, touch by touch (`freePgtableTraced`). The tables
below the directory are passed to `free_page` once each and the entries that
led to them set to nought; nothing else is stored to, no entry is looked at but
those on the way to a user address, and none of a table that was freed.
-/

namespace Myos.Kernel

open Myos.Lib

/-! ## A record of the run -/

/-- What the code does to memory: it reads an entry, passes a frame to
`free_page`, or sets an entry to nought. -/
inductive Touch where
  | read (slot : Nat)
  | free (n : Nat)
  | zero (slot : Nat)

/-- The entry that is read or stored to. -/
def Touch.slot : Touch → Option Nat
  | .read slot => some slot
  | .free _ => none
  | .zero slot => some slot

/-- The frame that is freed. -/
def Touch.freed : Touch → Option Nat
  | .read _ => none
  | .free n => some n
  | .zero _ => none

/-- Memory, and what was done to it so far. -/
structure Traced where
  mm : Mm
  log : List Touch

/-- Do `x` and record it as `touch`. -/
def Traced.act {α : Type} (touch : Touch) (x : Act Mm α) : Act Traced α := do
  Act.modify fun t => { t with log := t.log ++ [touch] }
  Act.zoom Traced.mm (fun s t => { t with mm := s }) x

/-- `*slot`. -/
def readTraced (slot : Nat) : Act Traced Nat := Traced.act (.read slot) (load 8 slot)

/-- `freeEntry`. -/
def freeEntryTraced (slot : Nat) : Act Traced Unit := do
  let e ← readTraced slot
  Traced.act (.free (e >>> pteShift)) (freePage (some (e >>> pteShift)))
  Traced.act (.zero slot) (store 8 slot 0)

/-- `free_pgtable`. -/
def freePgtableTraced (pgdir : Nat) : Act Traced Unit :=
  sweepPmls readTraced freeEntryTraced pgdir 512 utext

theorem Traced.act_lifts {α : Type} (touch : Touch) (x : Act Mm α) :
    Act.Lifts Traced.mm (Traced.act touch x) x :=
  .modify_bind (fun _ => rfl) (.zoom x fun _ _ => rfl)

theorem Traced.act_ok {α : Type} {touch : Touch} {x : Act Mm α} {t : Traced} {a : α} {s : Mm}
    (h : x t.mm = .ok a s) : Traced.act touch x t = .ok a ⟨s, t.log ++ [touch]⟩ := by
  unfold Traced.act
  rw [Act.modify_bind_apply]
  exact Act.zoom_ok h

/-- To the record apart, it is `free_pgtable`. -/
theorem freePgtableTraced_lifts (pgdir : Nat) :
    Act.Lifts Traced.mm (freePgtableTraced pgdir) (freePgtable pgdir) := by
  have hread : ∀ slot, Act.Lifts Traced.mm (readTraced slot) (load 8 slot) := fun slot =>
    Traced.act_lifts _ _
  unfold freePgtable
  rw [freePmls_eq]
  exact sweepPmls_lifts hread (fun slot => .bind (hread slot) fun e =>
    .bind (Traced.act_lifts _ _) fun _ => Traced.act_lifts _ _) pgdir 512 utext

/-! ## The directory -/

/-- The directory `g`: its lower half has tables on the way to user addresses
only, and no one else has a reference to them. -/
structure UserDir (s : Mm) (g : Nat) : Prop where
  tables : Tables UserEntry userTop s (dir g)
  once : ∀ {path n}, TablePath userTop path → path ≠ [] →
    tableAt s.mem (dir g) () path = some n → s.count n = 1
  onWay : ∀ {path n}, TablePath userTop path → tableAt s.mem (dir g) () path = some n → OnWay path

/-- A directory whose lower half is empty. -/
structure FreshDir (s : Mm) (g : Nat) : Prop where
  small : s.npages ≤ 2 ^ 19
  list : ∃ l, FreeList s l
  inUse : s.InUse g
  low : ∀ {i}, i < userTop → Mem.entry s.mem g i = 0

/-- What happens to the directory, and to the memory around it. -/
inductive DirEvent where
  | insert (va pp flag : Nat)
  | remove (va : Nat)
  | other

/-- A page is mapped at a user address, with frames for the tables that are
missing, or a page of such a frame as is mapped (in use, and no table) is taken
away; or something else happens, which leaves the tables alone. -/
def dirStep (g : Nat) (s : Mm) : DirEvent → Mm → Prop
  | .insert va pp flag, s' => UserVa va ∧ s'.starved = false ∧
      ∃ r, insertPage (frameVa g) va (some pp) flag s = .ok r s'
  | .remove va, s' => UserVa va ∧
      (∀ f, target (leaf s.mem (dir g) () va) = some f → f < s.npages ∧
        ¬ IsTable userTop s.mem (dir g) f ∧ 1 ≤ s.count f ∧ s.count f < 2 ^ 31) ∧
      ∃ r, removePage (frameVa g) va s = .ok r s'
  | .other, s' => s'.npages = s.npages ∧ (∃ l, FreeList s' l) ∧
      (∀ n, IsTable userTop s.mem (dir g) n → s'.count n = s.count n) ∧
      ∀ path n i, TablePath userTop (path ++ [i]) → tableAt s.mem (dir g) () path = some n →
        Mem.entry s'.mem n i = Mem.entry s.mem n i

section Dir

variable {s s' : Mm} {g va : Nat}

/-- A fresh directory has no table but itself. -/
theorem FreshDir.only (h : FreshDir s g) {path : List Nat} {n : Nat}
    (hpath : TablePath userTop path) (hn : tableAt s.mem (dir g) () path = some n) :
    path = [] ∧ n = g := by
  induction path using List.reverseRecOn generalizing n with
  | nil =>
    rw [tableAt, Radix.node_nil] at hn
    exact ⟨rfl, (Option.some.inj hn).symm⟩
  | append_singleton path i ih =>
    rw [tableAt, Radix.node_snoc] at hn
    cases ht : Radix.node target (Mem.entry s.mem) (dir g) () path with
    | none =>
      rw [ht] at hn
      cases hn
    | some t =>
      obtain ⟨rfl, rfl⟩ := ih hpath.init ht
      have hi : i < userTop := hpath.2.2 i rfl
      rw [ht, Option.bind_some, h.low hi, target_zero] at hn
      cases hn

theorem FreshDir.userDir (h : FreshDir s g) : UserDir s g := by
  refine ⟨⟨h.small, h.list, ?_, ?_, ?_⟩, fun hpath hne hn => absurd (h.only hpath hn).1 hne,
    fun {path n} hpath hn => ?_⟩
  · intro r r' p p' f hp hp' hn hn'
    exact ⟨rfl, (h.only hp hn).1.trans (h.only hp' hn').1.symm⟩
  · rintro f ⟨r, p, hp, hf⟩
    rw [(h.only hp hf).2]
    exact h.inUse
  · intro r p i f hpi hf
    obtain ⟨rfl, rfl⟩ := h.only hpi.init hf
    rw [h.low (hpi.2.2 i rfl)]
    exact .inl rfl
  · rw [(h.only hpath hn).1]
    exact onWay_iff.mpr ⟨0, by decide, [0, 2, 0], rfl⟩

/-- `alloc_vm` makes such a directory of the kernel's. -/
theorem allocVm_fresh {kdir d : Nat} (hsmall : s.npages ≤ 2 ^ 19) (hlist : ∃ l, FreeList s l)
    (hk : s.InUse kdir) (hlow : ∀ {i}, i < userTop → Mem.entry s.mem kdir i = 0)
    (hrun : allocVm (frameVa kdir) s = .ok d s') (hd : d ≠ 0) :
    ∃ n, d = frameVa n ∧ FreshDir s' n := by
  obtain ⟨l, hl⟩ := hlist
  unfold allocVm at hrun
  cases hn : s.phead with
  | none =>
    rw [Act.bind_ok (allocPage_none hn)] at hrun
    cases hrun
    exact absurd rfl hd
  | some n =>
    obtain ⟨l', rfl, hlt, hz, -⟩ := hl.phead_some hn
    have hn' : n < 2 ^ 19 := hlt.trans_le hsmall
    have hk' : kdir < 2 ^ 19 := hk.1.trans_le hsmall
    have hkn : kdir ≠ n := fun h => hk.2 (h ▸ hz)
    obtain ⟨m, hcopy, hother, hbytes⟩ := memcpy_frame (s := s.taken pgzero n) hn' hk' hkn
    have halloc : allocPage 1 s = .ok (some n) (s.taken pgzero n) := allocPage_some hn hn'
    rw [Act.bind_ok halloc] at hrun
    simp only [Act.gets_bind_apply, Mm.page2va_some hn'] at hrun
    rw [Act.bind_ok hcopy] at hrun
    cases hrun
    refine ⟨n, rfl, ?_, ⟨l', hl.taken.congr rfl rfl rfl⟩, ⟨?_, ?_⟩, fun {i} hi => ?_⟩
    · rw [Mm.setMem_npages, Mm.taken_npages]
      exact hsmall
    · rw [Mm.setMem_npages, Mm.taken_npages]
      exact hlt
    · rw [Mm.setMem_count, Mm.taken_count, if_pos rfl, hz]
      decide
    · have hi' : i < 512 := hi.trans (by decide)
      rw [← hlow hi, ← taken_entry hkn hi']
      refine Mem.rd_shift fun j hj => ?_
      have hin : 8 * i + j < pageSize := by
        unfold pageSize
        omega
      rw [Nat.add_assoc, Nat.add_assoc]
      exact hbytes _ hin

/-- Kept by whatever keeps the tables and what refers to them. -/
theorem UserDir.congr (h : UserDir s g) (hnpages : s'.npages = s.npages)
    (hlist : ∃ l, FreeList s' l)
    (hcount : ∀ n, IsTable userTop s.mem (dir g) n → s'.count n = s.count n)
    (hentry : ∀ {path n i}, TablePath userTop (path ++ [i]) →
      tableAt s.mem (dir g) () path = some n → Mem.entry s'.mem n i = Mem.entry s.mem n i) :
    UserDir s' g := by
  have htab : ∀ {path}, TablePath userTop path →
      tableAt s'.mem (dir g) () path = tableAt s.mem (dir g) () path := fun hp =>
    tableAt_congr (fun hpi hn => hentry hpi hn) hp
  refine ⟨h.tables.congr hnpages hlist (fun {n} hn => ?_) fun hpi hn => hentry hpi hn,
    fun {path n} hp hne hn => ?_, fun hp hn => ?_⟩
  · rw [hcount n hn]
    exact (h.tables.inUse hn).2
  · rw [htab hp] at hn
    rw [hcount n ⟨(), path, hp, hn⟩]
    exact h.once hp hne hn
  · rw [htab hp] at hn
    exact h.onWay hp hn

/-- SET: the leaves are no entries that lead to tables. -/
theorem UserDir.setLeaf (h : UserDir s g) (hva : UserVa va) {t : Nat}
    (ht : tableAt s.mem (dir g) () (pathTo va) = some t) (v : Nat) :
    UserDir (s.setLeaf t va v) g := by
  have htab := fun {path : List Nat} => h.tables.setLeaf_tableAt hva.pml ht v (q := ()) (p := path)
  refine ⟨h.tables.setLeaf hva.pml ht v, fun {path n} hp hne hn => ?_, fun hp hn => ?_⟩
  · rw [htab hp] at hn
    exact h.once hp hne hn
  · rw [htab hp] at hn
    exact h.onWay hp hn

/-- INSERT: the tables that are made are on the way to the address. -/
theorem UserDir.insert (h : UserDir s g) (hva : UserVa va) {pp flag : Nat} {r : Int}
    (hrun : insertPage (frameVa g) va (some pp) flag s = .ok r s') (hst : s'.starved = false) :
    UserDir s' g := by
  have hns : (insertPage (frameVa g) va (some pp) flag s).state.starved = false := by
    rw [hrun]
    exact hst
  obtain ⟨s₁, t, ht, hgrown, halong, htab, hres⟩ :=
    insertPage_run h.tables userEntry hva.pml (r := ()) rfl hns
  cases hrun.symm.trans hres
  refine UserDir.setLeaf ⟨ht, fun {path n} hp hne hn => ?_, fun {path n} hp hn => ?_⟩ hva htab _
  · rcases hgrown.fresh ⟨(), path, hp, hn⟩ with hold | hfree
    · obtain ⟨⟨⟩, path', hp', hn'⟩ := hold
      obtain ⟨-, rfl⟩ := ht.separated hp' hp (hgrown.tables hp' hn') hn
      rw [hgrown.count (h.tables.not_free ⟨(), path', hp', hn'⟩)]
      exact h.once hp' hne hn'
    · exact (hgrown.taken hfree).resolve_left (ht.inUse ⟨(), path, hp, hn⟩).2
  · rcases halong.tables hp hn with hold | ⟨-, hpre⟩
    · exact h.onWay hp hold
    · exact ⟨va, hva, hpre⟩

/-- REMOVE: the frame that may be freed is no table. -/
theorem UserDir.remove (h : UserDir s g) (hva : UserVa va)
    (hdata : ∀ f, target (leaf s.mem (dir g) () va) = some f → f < s.npages ∧
      ¬ IsTable userTop s.mem (dir g) f ∧ 1 ≤ s.count f ∧ s.count f < 2 ^ 31) {r : Int}
    (hrun : removePage (frameVa g) va s = .ok r s') : UserDir s' g := by
  cases ht : tableAt s.mem (dir g) () (pathTo va) with
  | none =>
    cases hrun.symm.trans (removePage_missing h.tables hva.pml (r := ()) rfl ht)
    exact h
  | some t =>
    cases hf : target (leaf s.mem (dir g) () va) with
    | none =>
      cases hrun.symm.trans (removePage_absent h.tables hva.pml (r := ()) rfl ht hf)
      exact h.setLeaf hva ht 0
    | some f =>
      obtain ⟨hlt, hnt, h1, h2⟩ := hdata f hf
      cases hrun.symm.trans (removePage_present h.tables hva.pml (r := ()) rfl ht hf h1 h2)
      obtain ⟨l, hl⟩ := h.tables.list
      have hcount : ∀ n, IsTable userTop s.mem (dir g) n → (s.freed f).count n = s.count n := by
        intro n hn
        have hnf : n ≠ f := fun hnf => hnt (hnf ▸ hn)
        rw [Mm.freed_count h1 h2, if_neg hnf]
      have hfreed : UserDir (s.freed f) g := h.congr (Mm.freed_npages s f)
        (hl.freed hlt h1 h2) hcount fun _ _ => by rw [Mm.freed_mem]
      rw [← Mm.freed_mem s f] at ht
      exact hfreed.setLeaf hva ht 0

/-- STEP. -/
theorem UserDir.step (h : UserDir s g) {e : DirEvent} (hstep : dirStep g s e s') :
    UserDir s' g := by
  cases e with
  | insert va pp flag =>
    obtain ⟨hva, hst, r, hrun⟩ := hstep
    exact h.insert hva hrun hst
  | remove va =>
    obtain ⟨hva, hdata, r, hrun⟩ := hstep
    exact h.remove hva hdata hrun
  | other =>
    obtain ⟨hnpages, hlist, hcount, hentry⟩ := hstep
    exact h.congr hnpages hlist hcount fun hpi hn => hentry _ _ _ hpi hn

end Dir

/-! ## What the loops do -/

/-- The entries that were read or stored to. -/
def Traced.slots (t : Traced) : List Nat := t.log.filterMap Touch.slot

/-- The frames that were freed. -/
def Traced.frees (t : Traced) : List Nat := t.log.filterMap Touch.freed

/-- After a frame was freed no entry in it is looked at. -/
def Touch.Before (a b : Touch) : Prop := ∀ n slot, a.freed = some n → b.slot = some slot →
  ¬ (frameVa n ≤ slot ∧ slot < frameVa n + pageSize)

/-- The tables at the paths in `gone` were freed, each once, and the entries
that led to them set to nought. -/
structure Sweeping (s₀ : Mm) (g : Nat) (gone : Set (List Nat)) (t : Traced) : Prop where
  npages : t.mm.npages = s₀.npages
  list : ∃ l, FreeList t.mm l
  way : ∀ {path}, path ∈ gone → OnWay path ∧ path ≠ []
  entry : ∀ {f i}, i < 512 →
    (∀ path, path ++ [i] ∈ gone → tableAt s₀.mem (dir g) () path ≠ some f) →
      Mem.entry t.mm.mem f i = Mem.entry s₀.mem f i
  zeroed : ∀ {path f i}, path ++ [i] ∈ gone → tableAt s₀.mem (dir g) () path = some f →
    Mem.entry t.mm.mem f i = 0
  freed : ∀ {path n}, path ∈ gone → tableAt s₀.mem (dir g) () path = some n → t.mm.count n = 0
  count : ∀ {n}, (∀ path ∈ gone, tableAt s₀.mem (dir g) () path ≠ some n) →
    t.mm.count n = s₀.count n
  frees : ∀ n, n ∈ t.frees ↔ ∃ path ∈ gone, tableAt s₀.mem (dir g) () path = some n
  nodup : t.frees.Nodup
  touched : ∀ slot ∈ t.slots, ∃ path i f, OnWay (path ++ [i]) ∧
    tableAt s₀.mem (dir g) () path = some f ∧ slot = frameVa f + 8 * i
  before : t.log.Pairwise Touch.Before

section Sweep

variable {s₀ : Mm} {g f i n : Nat} {gone : Set (List Nat)} {path : List Nat} {t : Traced}

theorem Sweeping.start (h : UserDir s₀ g) : Sweeping s₀ g ∅ ⟨s₀, []⟩ where
  npages := rfl
  list := h.tables.list
  way hp := absurd hp (Set.notMem_empty _)
  entry _ _ := rfl
  zeroed hp := absurd hp (Set.notMem_empty _)
  freed hp := absurd hp (Set.notMem_empty _)
  count _ := rfl
  frees _ := ⟨fun hn => absurd hn List.not_mem_nil, fun ⟨_, hp, _⟩ => absurd hp (Set.notMem_empty _)⟩
  nodup := List.nodup_nil
  touched _ hs := absurd hs List.not_mem_nil
  before := List.Pairwise.nil

/-- An entry of another table is in another frame. -/
theorem not_in_frame (hi : i < 512) (hfn : f ≠ n) :
    ¬ (frameVa n ≤ frameVa f + 8 * i ∧ frameVa f + 8 * i < frameVa n + pageSize) := by
  unfold frameVa pageSize
  omega

/-- A table that is not gone was not freed. -/
theorem Sweeping.not_freed (h : Sweeping s₀ g gone t) (h₀ : UserDir s₀ g)
    (hpath : TablePath userTop path) (hf : tableAt s₀.mem (dir g) () path = some f)
    (hg : path ∉ gone) : f ∉ t.frees := by
  intro hin
  obtain ⟨path', hp', hf'⟩ := (h.frees f).mp hin
  obtain ⟨-, rfl⟩ := h₀.tables.separated (h.way hp').1.tablePath hpath hf' hf
  exact hg hp'

/-- What is touched now was not freed before. -/
theorem before_append {log : List Touch} {touch : Touch} {f i : Nat}
    (hlog : log.Pairwise Touch.Before) (hi : i < 512) (hf : f ∉ log.filterMap Touch.freed)
    (htouch : ∀ slot, touch.slot = some slot → slot = frameVa f + 8 * i) :
    (log ++ [touch]).Pairwise Touch.Before := by
  refine List.pairwise_append.mpr ⟨hlog, List.pairwise_singleton _ _, fun a ha b hb => ?_⟩
  rw [List.mem_singleton.mp hb]
  intro n slot hn hslot
  rw [htouch slot hslot]
  refine not_in_frame hi ?_
  rintro rfl
  exact hf (List.mem_filterMap.mpr ⟨a, ha, hn⟩)

/-- READ: an entry of a table that is not gone. -/
theorem Sweeping.read (h : Sweeping s₀ g gone t) (h₀ : UserDir s₀ g) (hway : OnWay (path ++ [i]))
    (hf : tableAt s₀.mem (dir g) () path = some f) (hg : path ∉ gone) (hgi : path ++ [i] ∉ gone) :
    ∃ t', readTraced (frameVa f + 8 * i) t = .ok (Mem.entry s₀.mem f i) t' ∧ t'.mm = t.mm ∧
      Sweeping s₀ g gone t' := by
  have hpath := hway.tablePath
  have hi : i < 512 := hpath.last
  have hentry : Mem.entry t.mm.mem f i = Mem.entry s₀.mem f i := h.entry hi fun path' hp' hf' => by
    obtain ⟨-, rfl⟩ := h₀.tables.separated (h.way hp').1.tablePath.init hpath.init hf' hf
    exact hgi hp'
  have hrun : load 8 (frameVa f + 8 * i) t.mm = .ok (Mem.entry s₀.mem f i) t.mm := by
    rw [load_entry (h₀.tables.small_of_table ⟨(), path, hpath.init, hf⟩) hi, hentry]
  have hfrees : Traced.frees ⟨t.mm, t.log ++ [.read (frameVa f + 8 * i)]⟩ = t.frees := by
    unfold Traced.frees
    rw [List.filterMap_append]
    exact List.append_nil _
  refine ⟨_, Traced.act_ok hrun, rfl, h.npages, h.list, h.way, h.entry, h.zeroed, h.freed, h.count,
    hfrees ▸ h.frees, hfrees ▸ h.nodup, fun slot hs => ?_, ?_⟩
  · rw [Traced.slots, List.filterMap_append, List.mem_append] at hs
    rcases hs with hs | hs
    · exact h.touched slot hs
    · exact ⟨path, i, f, hway, hf, List.mem_singleton.mp hs⟩
  · refine before_append h.before hi (h.not_freed h₀ hpath.init hf hg) fun slot hs => ?_
    exact (Option.some.inj hs).symm

/-- `free_page` and the store of an entry that was read: the frame goes to the list, the
entry is nought, and the two are logged. -/
theorem freeEntryTraced_run {e : Nat} {t₁ : Traced} (hf : f < 2 ^ 19) (hi : i < 512)
    (hread : readTraced (frameVa f + 8 * i) t = .ok e t₁) (hshift : e >>> pteShift = n)
    (hlist : ∃ l, FreeList t₁.mm l) (hlt : n < t₁.mm.npages) (hcount : t₁.mm.count n = 1) :
    ∃ t', freeEntryTraced (frameVa f + 8 * i) t = .ok () t' ∧
      t'.mm.npages = t₁.mm.npages ∧ (∃ l, FreeList t'.mm l) ∧
      (∀ k j, j < 512 → Mem.entry t'.mm.mem k j =
        if k = f ∧ j = i then 0 else Mem.entry t₁.mm.mem k j) ∧
      (∀ k, t'.mm.count k = if k = n then 0 else t₁.mm.count k) ∧
      t'.log = t₁.log ++ [.free n] ++ [.zero (frameVa f + 8 * i)] := by
  have h1 : 1 ≤ t₁.mm.count n := by rw [hcount]
  have h2 : t₁.mm.count n < 2 ^ 31 := by rw [hcount]; decide
  have hfree : freePage (some n) t₁.mm = .ok () (t₁.mm.freed n) := freePage_ok h1 h2
  obtain ⟨m, hm⟩ : ∃ m, m = Mem.wr 8 (t₁.mm.freed n).mem (pageSize * f + 8 * i) 0 := ⟨_, rfl⟩
  have hstore : store 8 (frameVa f + 8 * i) 0 (t₁.mm.freed n) =
      .ok () ((t₁.mm.freed n).setMem m) := by
    rw [hm]
    exact store_entry hf hi
  refine ⟨⟨(t₁.mm.freed n).setMem m, t₁.log ++ [.free n] ++ [.zero (frameVa f + 8 * i)]⟩, ?_,
    Mm.freed_npages t₁.mm n, ?_, fun k j hj => ?_, fun k => ?_, rfl⟩
  · unfold freeEntryTraced
    rw [Act.bind_ok hread, hshift, Act.bind_ok (Traced.act_ok hfree),
      Traced.act_ok (t := ⟨t₁.mm.freed n, _⟩) hstore]
  · obtain ⟨l, hl⟩ := hlist
    obtain ⟨l', hl'⟩ := hl.freed hlt h1 h2
    exact ⟨l', hl'.congr rfl rfl rfl⟩
  · show Mem.entry m k j = _
    rw [hm, Mem.entry_wr _ 0 hj hi, Mm.freed_mem]
    rfl
  · show (t₁.mm.freed n).count k = _
    rw [Mm.freed_count h1 h2, hcount]
    rfl

/-- FREE: an entry that leads to a table. -/
theorem Sweeping.release (h : Sweeping s₀ g gone t) (h₀ : UserDir s₀ g)
    (hway : OnWay (path ++ [i])) (hf : tableAt s₀.mem (dir g) () path = some f)
    (hg : path ∉ gone) (hgi : path ++ [i] ∉ gone) (he : Mem.entry s₀.mem f i ≠ 0) :
    ∃ t', freeEntryTraced (frameVa f + 8 * i) t = .ok () t' ∧
      Sweeping s₀ g (Insert.insert (path ++ [i]) gone) t' := by
  have hpath := hway.tablePath
  have hi : i < 512 := hpath.last
  have hf' := h₀.tables.small_of_table ⟨(), path, hpath.init, hf⟩
  obtain ⟨n, -, -, hshift, hn⟩ := table_of_entry h₀.tables hpath hf he
  have hne : path ++ [i] ≠ [] := by simp
  have hfn : f ≠ n := by
    rintro rfl
    have hsame := (h₀.tables.separated hpath.init hpath hf hn).2
    have hlen := congrArg List.length hsame
    rw [List.length_append, List.length_singleton] at hlen
    omega
  obtain ⟨t₁, hread, hmm, h₁⟩ := h.read h₀ hway hf hg hgi
  -- the table has the one reference, and the frame goes to the list
  have hcount : t₁.mm.count n = 1 := by
    rw [h₁.count fun path' hp' hn' => ?_, h₀.once hpath hne hn]
    obtain ⟨-, rfl⟩ := h₀.tables.separated (h.way hp').1.tablePath hpath hn' hn
    exact hgi hp'
  have hlt : n < t₁.mm.npages := by
    rw [h₁.npages]
    exact (h₀.tables.inUse ⟨(), _, hpath, hn⟩).1
  obtain ⟨t', hrun, hnpages, hlist, hentry, hfreed, hlog⟩ :=
    freeEntryTraced_run hf' hi hread hshift h₁.list hlt hcount
  have hfrees : t'.frees = t₁.frees ++ [n] := by
    rw [Traced.frees, hlog, List.filterMap_append, List.filterMap_append]
    exact List.append_nil _
  have hout : n ∉ t₁.frees := h₁.not_freed h₀ hpath hn hgi
  exact ⟨t', hrun, {
    npages := hnpages.trans h₁.npages
    list := hlist
    way := by
      intro path' hp'
      rcases hp' with rfl | hp'
      · exact ⟨hway, hne⟩
      · exact h₁.way hp'
    entry := by
      intro k j hj hk
      rw [hentry k j hj, if_neg]
      · exact h₁.entry hj fun path' hp' => hk path' (.inr hp')
      · rintro ⟨rfl, rfl⟩
        exact hk path (.inl rfl) hf
    zeroed := by
      intro path' k j hp' hk
      rcases hp' with hsame | hp'
      · obtain ⟨rfl, hj⟩ := List.append_inj' hsame rfl
        cases hj
        rw [hentry k i hi, if_pos ⟨Option.some.inj (hk.symm.trans hf), rfl⟩]
      · rw [hentry k j (h₁.way hp').1.tablePath.last, h₁.zeroed hp' hk, ite_self]
    freed := by
      intro path' k hp' hk
      rw [hfreed]
      rcases hp' with rfl | hp'
      · rw [if_pos (Option.some.inj (hk.symm.trans hn))]
      · rw [h₁.freed hp' hk, ite_self]
    count := by
      intro k hk
      rw [hfreed, if_neg, h₁.count fun path' hp' => hk path' (.inr hp')]
      rintro rfl
      exact hk _ (.inl rfl) hn
    frees := by
      intro k
      rw [hfrees, List.mem_append, h₁.frees, List.mem_singleton]
      constructor
      · rintro (⟨path', hp', hk⟩ | rfl)
        · exact ⟨path', .inr hp', hk⟩
        · exact ⟨_, .inl rfl, hn⟩
      · rintro ⟨path', rfl | hp', hk⟩
        · exact .inr (Option.some.inj (hk.symm.trans hn))
        · exact .inl ⟨path', hp', hk⟩
    nodup := by
      rw [hfrees]
      refine List.nodup_append.mpr ⟨h₁.nodup, List.nodup_singleton n, fun a ha b hb hab => ?_⟩
      rw [List.mem_singleton.mp hb] at hab
      exact hout (hab ▸ ha)
    touched := by
      intro slot hs
      rw [Traced.slots, hlog, List.filterMap_append, List.filterMap_append, List.mem_append,
        List.mem_append] at hs
      rcases hs with (hs | hs) | hs
      · exact h₁.touched slot hs
      · exact absurd hs List.not_mem_nil
      · exact ⟨path, i, f, hway, hf, List.mem_singleton.mp hs⟩
    before := by
      have hfirst : (t₁.log ++ [Touch.free n]).Pairwise Touch.Before :=
        before_append h₁.before hi (h₁.not_freed h₀ hpath.init hf hg) fun slot hs => by cases hs
      rw [hlog]
      refine before_append hfirst hi ?_ fun slot hs => (Option.some.inj hs).symm
      rw [List.filterMap_append, List.mem_append]
      rintro (hin | hin)
      · exact h₁.not_freed h₀ hpath.init hf hg hin
      · exact hfn (List.mem_singleton.mp hin) }⟩

/-- The loops keep the record. -/
theorem Sweeping.sweeper (h₀ : UserDir s₀ g) :
    Sweeper readTraced freeEntryTraced s₀ (dir g) () (Sweeping s₀ g) := by
  refine ⟨?_, ?_⟩
  · intro gone t path i f h hway hf hg hgi
    obtain ⟨t', hrun, -, h'⟩ := h.read h₀ hway hf hg hgi
    exact ⟨t', hrun, h'⟩
  · intro gone t path i f h hway hf hg hgi he
    exact h.release h₀ hway hf hg hgi he

end Sweep

/-! ## What is freed -/

/-- What `free_pgtable` should do to the directory `g`, from `s` to `t`: every
table below it is freed, once, and the entry that led to it set to nought, and
every other entry of memory is kept; the entries it looks at are on the way to
user addresses, the last of the directory is not among them, and none is of a
table that was freed before. -/
structure FreesTables (s : Mm) (g : Nat) (t : Traced) : Prop where
  once : t.frees.Nodup
  exactly : ∀ n, n ∈ t.frees ↔ n ≠ g ∧ IsTable userTop s.mem (dir g) n
  freed : ∀ {n}, n ∈ t.frees → t.mm.count n = 0
  list : ∃ l, FreeList t.mm l
  count : ∀ {n}, n ∉ t.frees → t.mm.count n = s.count n
  zeroed : ∀ {path f i n}, TablePath userTop (path ++ [i]) →
    tableAt s.mem (dir g) () path = some f → tableAt s.mem (dir g) () (path ++ [i]) = some n →
      Mem.entry t.mm.mem f i = 0
  kept : ∀ {f i}, i < 512 → (∀ path, TablePath userTop (path ++ [i]) →
    tableAt s.mem (dir g) () path = some f → tableAt s.mem (dir g) () (path ++ [i]) = none) →
      Mem.entry t.mm.mem f i = Mem.entry s.mem f i
  touched : ∀ slot ∈ t.slots, ∃ path i f, OnWay (path ++ [i]) ∧
    tableAt s.mem (dir g) () path = some f ∧ slot = frameVa f + 8 * i
  last : frameVa g + 8 * 511 ∉ t.slots
  before : t.log.Pairwise Touch.Before

/-- The paths that are swept are those of the tables below the directory. -/
theorem UserDir.mem_swept {s : Mm} {g : Nat} (h : UserDir s g) {path : List Nat} :
    path ∈ swept s.mem (dir g) () ↔
      path ≠ [] ∧ TablePath userTop path ∧ ∃ n, tableAt s.mem (dir g) () path = some n := by
  constructor
  · rintro ⟨hne, hway, hsome⟩
    exact ⟨hne, hway.tablePath, Option.ne_none_iff_exists'.mp hsome⟩
  · rintro ⟨hne, hpath, n, hn⟩
    exact ⟨hne, h.onWay hpath hn, Option.ne_none_iff_exists'.mpr ⟨n, hn⟩⟩

/-- SWEPT: with every table below the directory gone it is as it should be. -/
theorem Sweeping.freesTables {s : Mm} {g : Nat} {t : Traced} (h₀ : UserDir s g)
    (h : Sweeping s g (swept s.mem (dir g) ()) t) : FreesTables s g t := by
  have hroot : tableAt s.mem (dir g) () [] = some g := by rw [tableAt, Radix.node_nil]; rfl
  refine ⟨h.nodup, fun n => ?_, fun {n} hn => ?_, h.list, fun {n} hn => ?_,
    fun {path f i n} hpi hf hn => ?_, fun {f i} hi hnone => ?_, h.touched, fun hin => ?_, h.before⟩
  · rw [h.frees]
    constructor
    · rintro ⟨path, hp, hn⟩
      obtain ⟨hne, hpath, -⟩ := h₀.mem_swept.mp hp
      refine ⟨?_, (), path, hpath, hn⟩
      rintro rfl
      exact hne (h₀.tables.separated hpath tablePath_nil hn hroot).2
    · rintro ⟨hng, ⟨⟩, path, hpath, hn⟩
      refine ⟨path, h₀.mem_swept.mpr ⟨?_, hpath, n, hn⟩, hn⟩
      rintro rfl
      exact hng (Option.some.inj (hn.symm.trans hroot))
  · obtain ⟨path, hp, hn⟩ := (h.frees n).mp hn
    exact h.freed hp hn
  · exact h.count fun path hp hn' => hn ((h.frees n).mpr ⟨path, hp, hn'⟩)
  · exact h.zeroed (h₀.mem_swept.mpr ⟨by simp, hpi, n, hn⟩) hf
  · refine h.entry hi fun path hp hf => ?_
    obtain ⟨-, hpath, n, hn⟩ := h₀.mem_swept.mp hp
    cases (hnone path hpath hf).symm.trans hn
  · -- the way to a user address starts at the first entry of the directory
    obtain ⟨path, i, f, hway, hf, hslot⟩ := h.touched _ hin
    have hi := hway.tablePath.last
    have hsame : f = g ∧ i = 511 := by
      unfold frameVa pageSize at hslot
      omega
    obtain ⟨rfl, rfl⟩ := hsame
    obtain ⟨-, rfl⟩ := h₀.tables.separated hway.tablePath.init tablePath_nil hf hroot
    have hlow := hway.tablePath.2.2 511 rfl
    exact absurd hlow (by decide)

/-- FREE: in a directory in whose lower half tables were only made by mappings
of user addresses, `free_pgtable` frees what it should, and returns. -/
theorem free_pgtable_exact {s₀ s : Mm} {g : Nat} {es : List DirEvent} (hfresh : FreshDir s₀ g)
    (hrun : Steps (dirStep g) s₀ es s) :
    ∃ t, freePgtableTraced (frameVa g) ⟨s, []⟩ = .ok () t ∧
      freePgtable (frameVa g) s = .ok () t.mm ∧ FreesTables s g t := by
  have h₀ : UserDir s g := Steps.invariant (fun s => UserDir s g)
    (fun h hstep => h.step hstep) hrun hfresh.userDir
  obtain ⟨t, htrace, h⟩ := (Sweeping.sweeper h₀).run h₀.tables rfl (Sweeping.start h₀) 511
  have htrace' : freePgtableTraced (frameVa g) ⟨s, []⟩ = .ok () t := htrace
  refine ⟨t, htrace', ?_, h.freesTables h₀⟩
  have hlift := freePgtableTraced_lifts (frameVa g) ⟨s, []⟩
  rw [htrace'] at hlift
  exact hlift

/-- One page was mapped in the directory in frame 1. -/
theorem free_pgtable_exact_sample : ∃ s t, Steps (dirStep 1) sampleMm [.insert utext 2 7] s ∧
    freePgtable (frameVa 1) s = .ok () t.mm ∧ FreesTables s 1 t := by
  have hfresh : FreshDir sampleMm 1 := ⟨by decide, ⟨_, sampleMm_list⟩,
    ⟨by decide, by decide⟩, fun _ => Mem.rd_zero fun _ _ _ => rfl⟩
  have htables := hfresh.userDir.tables
  have hns := insertPage_enough (r := ()) htables userEntry (by decide : pmlIndex utext < userTop)
    rfl ⟨_, sampleMm_list, (missing_le _ _ _ _).trans (by decide)⟩ rfl 2 7
  obtain ⟨s₁, h, -, -, -, -, hrun⟩ := insertPage_run htables userEntry (by decide) (r := ()) rfl hns
  have hst := hns
  rw [hrun] at hst
  have hsteps : Steps (dirStep 1) sampleMm [.insert utext 2 7] _ :=
    .cons ⟨⟨by decide, by decide⟩, hst, 0, hrun⟩ (.nil _)
  obtain ⟨t, -, hfree, hexact⟩ := free_pgtable_exact hfresh hsteps
  exact ⟨_, t, hsteps, hfree, hexact⟩

end Myos.Kernel
