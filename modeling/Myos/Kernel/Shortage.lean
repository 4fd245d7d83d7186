import Myos.Kernel.PageMap
import Myos.Kernel.Process
import Myos.Kernel.Fault

/-!
# Page tables without frames

`walk_page` asks `alloc_page` for every table that is missing and looks at no
answer: for the null pointer `PAGE2PA` and `PAGE2VA` compute an address like
any other. `wildEntry` is what is linked then, and `Mm.wild` the state after
the link. The walk carries on through it, so it never reports that a frame
was missing, and neither does `insert_page` or the fault that called it
(`shortage_reported`).
-/

namespace Myos.Kernel

open Myos.Lib

/-! ## The link to no frame -/

/-- `PAGE2PA(NULL) | PTE_U | PTE_W | PTE_P`. -/
def wildEntry (s : Mm) : Nat := (s.page2pa none ||| pteU ||| pteW ||| pteP) % 2 ^ 64

/-- The state after entry `i` of the table `g` was linked to no frame. -/
def Mm.wild (s : Mm) (g i : Nat) : Mm :=
  { s with starved := true }.setMem (Mem.wr 8 s.mem (pageSize * g + 8 * i)
    (s.page2pa none ||| pteU ||| pteW ||| pteP))

section Wild

variable {s : Mm} {g i va : Nat}

/-- Without a frame an entry is linked all the same. -/
theorem newTable_wild (hg : g < 2 ^ 19) (hi : i < 512) (hn : s.phead = none) :
    newTable (frameVa g + 8 * i) s = .ok (s.page2va none) (s.wild g i) := by
  unfold newTable
  rw [Act.bind_ok (allocPage_none hn), Act.gets_bind_apply, Act.bind_ok (store_entry hg hi)]
  rfl

theorem wild_entry (hi : i < 512) : Mem.entry (s.wild g i).mem g i = wildEntry s := by
  unfold Mm.wild
  rw [Mm.setMem_mem, Mem.entry_wr _ _ hi hi, if_pos ⟨rfl, rfl⟩]
  rfl

/-- The entry is present: the processor follows it, and so does the walk. -/
theorem wildEntry_present (s : Mm) : wildEntry s &&& pteP ≠ 0 := by
  have hodd : wildEntry s % 2 = 1 := by
    unfold wildEntry
    rw [Nat.mod_mod_of_dvd _ (by decide : 2 ∣ 2 ^ 64), ← land_pteP, Nat.and_or_distrib_right,
      show pteP &&& pteP = 1 from rfl, land_pteP]
    have hlow : ((s.page2pa none ||| pteU ||| pteW) % 2) < 2 := Nat.mod_lt _ (by decide)
    generalize (s.page2pa none ||| pteU ||| pteW) % 2 = b at hlow
    have hb : b = 0 ∨ b = 1 := by omega
    rcases hb with rfl | rfl <;> rfl
  rw [land_pteP, hodd]
  decide

/-- `walk_dir` without a frame: it returns nought, with an entry of the table
there is not. -/
theorem walkDir_wild (hg : g < 2 ^ 19) (habs : target (Mem.entry s.mem g (pgdIndex va)) = none)
    (hn : s.phead = none) : walkDir (frameVa g) va 1 s =
      .ok (some (s.page2va none + 8 * pteIndex va)) (s.wild g (pgdIndex va)) := by
  unfold walkDir
  rw [Act.bind_ok (load_entry hg (pgdIndex_lt va)), if_neg (target_eq_none.mp habs), if_pos rfl,
    Act.bind_ok (newTable_wild hg (pgdIndex_lt va) hn), Act.pure_apply]

end Wild

/-! ## The walk that lacks its last table -/

section Last

variable {s : Mm} {g va : Nat} {l : List Nat}

/-- The tables on the way are all there but the last. -/
theorem missing_one (h : missing s.mem (dir g) () va = 1) : ∃ f,
    tableAt s.mem (dir g) () [pmlIndex va, pdpIndex va] = some f ∧
      tableAt s.mem (dir g) () (pathTo va) = none := by
  unfold missing at h
  split at h
  · cases h
  · split at h
    · cases h
    · next h2 =>
      split at h
      · next h3 =>
        obtain ⟨f, hf⟩ := Option.ne_none_iff_exists'.mp h2
        exact ⟨f, hf, h3⟩
      · cases h

/-- A table that is missing is an entry that is absent. -/
theorem absent_of_missing {p : List Nat} {f i : Nat}
    (hf : tableAt s.mem (dir g) () p = some f)
    (hnone : tableAt s.mem (dir g) () (p ++ [i]) = none) :
    target (Mem.entry s.mem f i) = none := by
  rw [tableAt, Radix.node_snoc] at hnone
  rw [tableAt] at hf
  rw [hf, Option.bind_some] at hnone
  exact hnone

/-- A walk through tables that are there, up to the last. -/
theorem walkPage_upper (ht : Tables NotLarge 512 s (dir g)) {f : Nat}
    (hf : tableAt s.mem (dir g) () [pmlIndex va, pdpIndex va] = some f) (create : Nat) :
    walkPage (frameVa g) va create s = walkDir (frameVa f) va create s := by
  have hva := pmlIndex_lt va
  have hroot : tableAt s.mem (dir g) () [] = some g := by rw [tableAt, Radix.node_nil, dir]
  have hg' : g < 2 ^ 19 := ht.small_of_table ⟨(), _, tablePath_nil, hroot⟩
  obtain ⟨e, he, hnext⟩ : ∃ e, tableAt s.mem (dir g) () [pmlIndex va] = some e ∧
      target (Mem.entry s.mem e (pdpIndex va)) = some f := by
    rw [tableAt, show [pmlIndex va, pdpIndex va] = [pmlIndex va] ++ [pdpIndex va] from rfl,
      Radix.node_snoc] at hf
    exact Option.bind_eq_some_iff.mp hf
  have hnext₀ : target (Mem.entry s.mem g (pmlIndex va)) = some e := by
    rw [tableAt, show [pmlIndex va] = [] ++ [pmlIndex va] from rfl, Radix.node_snoc] at he
    rw [tableAt] at hroot
    rw [hroot, Option.bind_some] at he
    exact he
  have he' : e < 2 ^ 19 := ht.small_of_table ⟨(), _, tablePath_one hva, he⟩
  have hf' : f < 2 ^ 19 := ht.small_of_table ⟨(), _, tablePath_two hva, hf⟩
  unfold walkPage
  rw [Act.bind_ok (load_entry hg' (pmlIndex_lt va)), if_pos (present_of_target hnext₀),
    tableVa_eq hnext₀ he', Act.bind_ok (load_entry he' (pdpIndex_lt va)),
    if_pos (present_of_target hnext), tableVa_eq hnext hf']

/-- THE WALK that lacks only the last table: it returns nought, and an entry
of a table there is links to no frame. -/
theorem walkPage_wild (ht : Tables NotLarge 512 s (dir g)) (hn : s.phead = none)
    (hmiss : missing s.mem (dir g) () va = 1) : ∃ f,
      tableAt s.mem (dir g) () [pmlIndex va, pdpIndex va] = some f ∧
      walkPage (frameVa g) va 1 s =
        .ok (some (s.page2va none + 8 * pteIndex va)) (s.wild f (pgdIndex va)) ∧
      target (Mem.entry (s.wild f (pgdIndex va)).mem f (pgdIndex va)) =
        some (wildEntry s / pageSize) := by
  obtain ⟨f, hf, hnone⟩ := missing_one hmiss
  have hf' : f < 2 ^ 19 := ht.small_of_table ⟨(), _, tablePath_two (pmlIndex_lt va), hf⟩
  have habs : target (Mem.entry s.mem f (pgdIndex va)) = none := absent_of_missing hf hnone
  refine ⟨f, hf, (walkPage_upper ht hf 1).trans (walkDir_wild hf' habs hn), ?_⟩
  rw [wild_entry (pgdIndex_lt va), target, if_pos (wildEntry_present s)]

end Last

/-! ## What a shortage should come to -/

section Reports

variable {s : Mm} {g va n : Nat} {l : List Nat}

/-- How a call should end that lacks a frame, `l` being the frames there were:
with a negative value, with no entry of a table there is linked to a frame
that was not one of them, and with every translation as it was. -/
def Reports {α : Type} (negative : α → Prop) (l : List Nat) (g : Nat) (s : Mm)
    (res : Res Mm α) : Prop :=
  ∃ a s', res = .ok a s' ∧ negative a ∧
    (∀ path t i f, TablePath 512 (path ++ [i]) → tableAt s.mem (dir g) () path = some t →
      target (Mem.entry s'.mem t i) = some f → target (Mem.entry s.mem t i) = some f ∨ f ∈ l) ∧
    ∀ va, va < 2 ^ 48 → translation s' (frameVa g) va = translation s (frameVa g) va

/-- The walk reports its shortages, with the frames `l` left. -/
def WalkReports (l : List Nat) (g va : Nat) (s : Mm) : Prop :=
  l.length < missing s.mem (dir g) () va →
    Reports (fun pte => pte = none) l g s (walkPage (frameVa g) va 1 s)

/-- `insert_page` does. -/
def InsertReports (l : List Nat) (g va pp flag : Nat) (s : Mm) : Prop :=
  l.length < missing s.mem (dir g) () va →
    Reports (fun r => r < 0) l g s (insertPage (frameVa g) va (some pp) flag s)

/-- The `insert_page` of the fault at `cr2` does, the page itself being taken
from the list first. From an empty list that is NULL, which `insert_page` is to
refuse. -/
def FaultReports (l : List Nat) (g cr2 : Nat) (s : Mm) : Prop :=
  match l with
  | [] => Reports (fun r => r < 0) [] g s (insertPage (frameVa g) (cr2 / pageSize * pageSize) none
      (pteU ||| pteP ||| pteW) { s with starved := true })
  | n :: rest =>
    InsertReports rest g (cr2 / pageSize * pageSize) n (pteU ||| pteP ||| pteW) (s.taken pgzero n)

/-- The fault is that call, once there was a frame for the page. -/
theorem pageFault_insert {errCode : Nat} (herr : errCode &&& pfecP = 0) (hn : s.phead = some n)
    (hn' : n < 2 ^ 19) (cr2 : Nat) : pageFault (some (frameVa g)) cr2 errCode s =
      (insertPage (frameVa g) (cr2 / pageSize * pageSize) (some n) (pteU ||| pteP ||| pteW) >>=
        fun _ => pure ()) (s.taken pgzero n) := by
  have halloc : allocPage 1 s = .ok (some n) (s.taken pgzero n) := allocPage_some hn hn'
  unfold pageFault
  simp only [if_pos herr]
  rw [Act.bind_ok halloc, Act.deref_bind_apply]

/-- A taken frame is no table, so no table is missing that was not. -/
theorem missing_taken (ht : Tables NotLarge 512 s (dir g)) (hn : s.phead = some n) :
    missing (s.taken pgzero n).mem (dir g) () va = missing s.mem (dir g) () va := by
  have hsame : ∀ {path}, TablePath 512 path →
      tableAt (s.taken pgzero n).mem (dir g) () path = tableAt s.mem (dir g) () path :=
    fun hpath => ht.taken_tableAt hn hpath
  unfold missing
  rw [hsame (tablePath_one (pmlIndex_lt va)), hsame (tablePath_two (pmlIndex_lt va)),
    hsame (tablePath_pathTo (pmlIndex_lt va))]

/-- Where the walk returns, it returns an entry. -/
theorem not_walk_reports (l : List Nat) (g va : Nat) (s : Mm) :
    ¬ Reports (fun pte => pte = none) l g s (walkPage (frameVa g) va 1 s) := by
  rintro ⟨pte, s', hrun, hnone, -⟩
  exact walkPage_creates hrun hnone

/-- Where `insert_page` of a frame returns, it returns nought. -/
theorem not_insert_reports (l : List Nat) (g va pp flag : Nat) (s : Mm) :
    ¬ Reports (fun r => r < 0) l g s (insertPage (frameVa g) va (some pp) flag s) := by
  rintro ⟨r, s', hrun, hneg, -⟩
  rw [insertPage_nonneg hrun] at hneg
  exact lt_irrefl 0 hneg

theorem walkReports_iff (l : List Nat) (g va : Nat) (s : Mm) :
    WalkReports l g va s ↔ missing s.mem (dir g) () va ≤ l.length := by
  constructor
  · intro h
    by_contra hlack
    exact not_walk_reports l g va s (h (Nat.lt_of_not_le hlack))
  · intro h hlack
    exact absurd hlack (Nat.not_lt_of_le h)

theorem insertReports_iff (l : List Nat) (g va pp flag : Nat) (s : Mm) :
    InsertReports l g va pp flag s ↔ missing s.mem (dir g) () va ≤ l.length := by
  constructor
  · intro h
    by_contra hlack
    exact not_insert_reports l g va pp flag s (h (Nat.lt_of_not_le hlack))
  · intro h hlack
    exact absurd hlack (Nat.not_lt_of_le h)

/-- The fault is that call without a frame, too. -/
theorem pageFault_refused {errCode : Nat} (herr : errCode &&& pfecP = 0) (hn : s.phead = none)
    (cr2 : Nat) : pageFault (some (frameVa g)) cr2 errCode s =
      (insertPage (frameVa g) (cr2 / pageSize * pageSize) none (pteU ||| pteP ||| pteW) >>=
        fun _ => pure ()) { s with starved := true } := by
  unfold pageFault
  simp only [if_pos herr]
  rw [Act.bind_ok (allocPage_none hn), Act.deref_bind_apply]

/-- NULL is refused, and nothing has changed. -/
theorem faultReports_nil (ht : Tables NotLarge 512 s (dir g)) (va : Nat) :
    FaultReports [] g va s := by
  have ht' : Tables NotLarge 512 { s with starved := true } (dir g) := by
    obtain ⟨l, hl⟩ := ht.list
    exact ht.congr rfl ⟨l, hl.congr rfl rfl rfl⟩ (fun h => (ht.inUse h).2) fun _ _ => rfl
  exact ⟨-1, { s with starved := true }, rfl, by decide, fun path t i f _ _ hf => .inl hf,
    fun va _ => translation_congr ht ht' rfl⟩

/-- SHORTAGE: with the frames `l` left, the walk, `insert_page` and the fault
report what they lack in no case but the one in which they lack nothing. The
fault without a frame for the page itself asks for no table. -/
theorem shortage_reported (ht : Tables NotLarge 512 s (dir g)) (hl : FreeList s l) (va : Nat) :
    (WalkReports l g va s ↔ missing s.mem (dir g) () va ≤ l.length) ∧
    (∀ pp flag, InsertReports l g va pp flag s ↔ missing s.mem (dir g) () va ≤ l.length) ∧
    (FaultReports l g va s ↔
      l = [] ∨ missing s.mem (dir g) () (va / pageSize * pageSize) < l.length) := by
  refine ⟨walkReports_iff l g va s, fun pp flag => insertReports_iff l g va pp flag s, ?_⟩
  cases l with
  | nil => exact ⟨fun _ => .inl rfl, fun _ => faultReports_nil ht va⟩
  | cons n rest =>
    have hn : s.phead = some n := by
      cases hhead : s.phead with
      | none => cases hl.phead_none hhead
      | some p =>
        obtain ⟨l', heq, -⟩ := hl.phead_some hhead
        rw [(List.cons.inj heq).1]
    have hiff := insertReports_iff rest g (va / pageSize * pageSize) n (pteU ||| pteP ||| pteW)
      (s.taken pgzero n)
    rw [missing_taken ht hn] at hiff
    constructor
    · intro h
      exact .inr (Nat.lt_succ_of_le (hiff.mp h))
    · intro h
      cases h with
      | inl hnil => cases hnil
      | inr hlt => exact hiff.mpr (Nat.le_of_lt_succ hlt)

end Reports

/-! ## A tree without frames -/

/-- Eight frames, all of them in use: the directory, in frame 1, is empty. -/
def sampleDry : Mm := { sampleMm with pages := fun _ => { count := 1 }, phead := none }

theorem sampleDry_list : FreeList sampleDry [] := by
  refine ⟨.nil, fun f => ?_⟩
  have hc : sampleDry.count f = 1 := rfl
  rw [hc]
  simp

theorem sampleDry_tables : Tables NotLarge 512 sampleDry (dir 1) := by
  have ht := sampleMm_wellFormed.1.tables
  refine ht.congr rfl ⟨[], sampleDry_list⟩ (fun _ => ?_) fun _ _ => rfl
  show (1 : Int) ≠ 0
  decide

/-- The directory is empty, so three tables are missing on the way to the text. -/
theorem sampleDry_missing : missing sampleDry.mem (dir 1) () utext = 3 := by
  have hone : tableAt sampleDry.mem (dir 1) () [pmlIndex utext] = none := by
    by_contra hne
    obtain ⟨f, hf⟩ := Option.ne_none_iff_exists'.mp hne
    have hzero : ∀ g i, dir 1 () = some g → i < 512 → Mem.entry sampleDry.mem g i = 0 :=
      fun g i _ _ => Mem.rd_zero fun _ _ _ => rfl
    have hnil := (tableAt_zero hzero (tablePath_one (pmlIndex_lt utext)) hf).1
    cases hnil
  unfold missing
  rw [if_pos hone]

theorem shortage_reported_dry : ¬ WalkReports [] 1 utext sampleDry ∧
    (∀ pp flag, ¬ InsertReports [] 1 utext pp flag sampleDry) ∧ FaultReports [] 1 utext sampleDry := by
  obtain ⟨hwalk, hinsert, hfault⟩ := shortage_reported sampleDry_tables sampleDry_list utext
  rw [sampleDry_missing] at hwalk hinsert
  exact ⟨fun h => absurd (hwalk.mp h) (by decide),
    fun pp flag h => absurd ((hinsert pp flag).mp h) (by decide), hfault.mpr (.inl rfl)⟩

/-- No table can be had, and the walk does not say so. -/
theorem shortage_unreported : ¬ ∀ s g va l, Tables NotLarge 512 s (dir g) → FreeList s l →
    WalkReports l g va s ∧ (∀ pp flag, InsertReports l g va pp flag s) ∧ FaultReports l g va s := by
  intro hall
  have hwalk := (hall sampleDry 1 utext [] sampleDry_tables sampleDry_list).1
  refine not_walk_reports [] 1 utext sampleDry (hwalk ?_)
  rw [sampleDry_missing]
  decide

end Myos.Kernel
