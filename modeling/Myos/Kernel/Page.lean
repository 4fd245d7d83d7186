import Mathlib.Data.List.Perm.Subperm
import Mathlib.Data.List.Range
import Myos.Lib.Chain
import Myos.Lib.Run
import Myos.Kernel.Mm

/-!
# The page-frame allocator

`init_page`, `alloc_page` and `free_page` of `kernel/mm.c`: a list threaded
through the records of the frames that are not in use, and a reference count
in every record.

The discipline is `FreeList s l`: the list from `phead` visits exactly `l`,
and `l` holds exactly the frames whose count is nought. Finiteness and
freedom from repetition are part of `Chain`. Each operation has one equation
that says what it does (`allocPage_some`, `freePage_last`, …) and one lemma
that says it keeps the discipline; a run is then an induction over the
operations.
-/

namespace Myos.Kernel

open Myos.Lib

/-! ## The operations -/

/-- `alloc_page`. -/
def allocPage (flags : Nat) : Act Mm (Option Nat) := do
  match ← Act.gets Mm.phead with
  | none =>
    Act.modify fun s => { s with starved := true }
    return none
  | some p =>
    Act.modify fun s => s.setPhead (s.link p)
    if flags &&& pgzero ≠ 0 then
      let va ← Act.gets fun s => s.page2va (some p)
      memset va 0 pageSize
    Act.modify fun s => s.setCount p (int32 (s.count p + 1))
    return some p

/-- `free_page`. -/
def freePage : Option Nat → Act Mm Unit
  | none => pure ()
  | some p => do
    Act.modify fun s => s.setCount p (int32 (s.count p - 1))
    if (← Act.gets fun s => s.count p) = 0 then
      Act.modify fun s => s.setPage p { link := s.phead, count := s.count p }
      Act.modify fun s => s.setPhead (some p)

/-- `pp->count++`, the way `sys_fork` shares a frame. -/
def sharePage (p : Nat) : Act Mm Unit :=
  Act.modify fun s => s.setCount p (int32 (s.count p + 1))

/-- `TRAMPOLINE_BASE`. -/
def trampolineBase : Nat := 0x8000

/-- One turn of the loops of `init_page`: link the record to the list built
so far and make it the head. -/
def threadPage (i : Nat) (t : (Nat → Page) × Option Nat) : (Nat → Page) × Option Nat :=
  (Function.update t.1 i { link := t.2, count := 0 }, some i)

/-- `for (i = lo + n - 1; i >= lo; i--)`. -/
def threadDown (lo : Nat) : Nat → (Nat → Page) × Option Nat → (Nat → Page) × Option Nat
  | 0, t => t
  | n + 1, t => threadDown lo n (threadPage (lo + n) t)

/-- The first loop of `init_page`: every frame counted once more, unlinked. -/
def countPages (pages : Nat → Page) : Nat → Nat → Page
  | 0 => pages
  | n + 1 =>
    let before := countPages pages n
    Function.update before n { link := none, count := int32 ((before n).count + 1) }

/-- `init_page`. With no frames, or with nought as the lower end of the first
list, the index runs below nought and leaves the array. -/
def initPage : Act Mm Unit := do
  Act.modify fun s => { s with kusedMem := kva2pa s.kusedMem }
  let npages ← Act.gets Mm.npages
  let kused ← Act.gets Mm.kusedMem
  let lo := u64 (kused + pageSize - 1) / pageSize
  if npages = 0 ∨ lo = 0 then
    Act.stop
  else
    Act.modify fun s => { s with pages := countPages s.pages npages }
    Act.modify fun s =>
      let high := threadDown lo (npages - lo) (s.pages, none)
      let low := threadDown 1 (trampolineBase / pageSize - 1) high
      let mid := threadDown (trampolineBase / pageSize + 1)
        (0x000A0000 / pageSize - 1 - trampolineBase / pageSize) low
      { s with pages := mid.1, phead := mid.2 }

/-! ## What each operation does -/

namespace Mm

/-- The frame cleared. -/
def zeroFrame (s : Mm) (f : Nat) : Mm := s.setMem (s.mem.fill (pageSize * f) pageSize 0)

/-- The state after `alloc_page` handed out `p`. -/
def taken (s : Mm) (flags p : Nat) : Mm :=
  ((if flags &&& pgzero ≠ 0 then s.zeroFrame p else s).setPhead (s.link p)).setCount p
    (int32 (s.count p + 1))

/-- The state after the last reference of `p` went. -/
def released (s : Mm) (p : Nat) : Mm :=
  (s.setPage p { link := s.phead, count := 0 }).setPhead (some p)

variable (s : Mm) (flags p f : Nat)

@[simp] theorem taken_phead : (s.taken flags p).phead = s.link p := rfl

@[simp] theorem taken_npages : (s.taken flags p).npages = s.npages := by
  unfold taken; split <;> rfl

@[simp] theorem taken_pagesVa : (s.taken flags p).pagesVa = s.pagesVa := by
  unfold taken; split <;> rfl

@[simp] theorem taken_cr3 : (s.taken flags p).cr3 = s.cr3 := by
  unfold taken; split <;> rfl

@[simp] theorem taken_starved : (s.taken flags p).starved = s.starved := by
  unfold taken; split <;> rfl

@[simp] theorem taken_link : (s.taken flags p).link f = s.link f := by
  unfold taken
  rw [setCount_link, setPhead_link]
  split <;> rfl

theorem taken_count : (s.taken flags p).count f =
    if f = p then int32 (s.count p + 1) else s.count f := by
  unfold taken
  rw [setCount_count, setPhead_count]
  by_cases hf : f = p
  · rw [if_pos hf, if_pos hf]
  · rw [if_neg hf, if_neg hf]
    split <;> rfl

/-- A zeroed frame: its bytes are nought, and no other byte changes. -/
theorem taken_mem_zeroed : (s.taken pgzero p).mem = s.mem.fill (pageSize * p) pageSize 0 := rfl

@[simp] theorem taken_mem_plain : (s.taken 0 p).mem = s.mem := rfl

@[simp] theorem released_mem : (s.released p).mem = s.mem := rfl
@[simp] theorem released_phead : (s.released p).phead = some p := rfl
@[simp] theorem released_npages : (s.released p).npages = s.npages := rfl
@[simp] theorem released_pagesVa : (s.released p).pagesVa = s.pagesVa := rfl
@[simp] theorem released_cr3 : (s.released p).cr3 = s.cr3 := rfl
@[simp] theorem released_starved : (s.released p).starved = s.starved := rfl

theorem released_count : (s.released p).count f = if f = p then 0 else s.count f := by
  rw [released, setPhead_count, setPage_count]

theorem released_link : (s.released p).link f = if f = p then s.phead else s.link f := by
  rw [released, setPhead_link, setPage_link]

end Mm

section Equations

variable {s : Mm} {flags p : Nat}

theorem allocPage_none (h : s.phead = none) :
    allocPage flags s = .ok none { s with starved := true } := by
  unfold allocPage
  simp only [Act.gets_bind_apply, h, Act.modify_bind_apply, Act.pure_apply]

theorem allocPage_some (h : s.phead = some p) (hp : p < 2 ^ 19) :
    allocPage flags s = .ok (some p) (s.taken flags p) := by
  unfold allocPage
  simp only [Act.gets_bind_apply, h]
  by_cases hz : flags &&& pgzero ≠ 0
  · have hset := memset_direct (s := s.setPhead (s.link p)) (c := 0)
      (show pageSize * p + pageSize ≤ 2 ^ 31 by unfold pageSize; omega)
    simp only [Act.modify_bind_apply, if_pos hz, Act.gets_bind_apply, Mm.page2va_some hp, frameVa]
    rw [Act.bind_ok hset]
    simp only [Act.modify_bind_apply, Mm.taken, if_pos hz]
    rfl
  · simp only [Act.modify_bind_apply, if_neg hz, Mm.taken]
    rfl

/-- Freeing a reference that is not the last. -/
theorem freePage_more (h : int32 (s.count p - 1) ≠ 0) :
    freePage (some p) s = .ok () (s.setCount p (int32 (s.count p - 1))) := by
  unfold freePage
  simp only [Act.modify_bind_apply, Act.gets_bind_apply, Mm.setCount_count, if_true, if_neg h]
  rfl

/-- Freeing the last reference puts the frame at the head of the list. -/
theorem freePage_last (h : s.count p = 1) : freePage (some p) s = .ok () (s.released p) := by
  have hz : int32 (s.count p - 1) = 0 := by rw [h]; rfl
  unfold freePage
  simp only [Act.modify_bind_apply, Act.gets_bind_apply, Mm.setCount_count, if_true, hz]
  simp only [Act.modify_apply, Mm.setCount, Mm.setPage, Mm.released, Mm.setPhead,
    Function.update_idem]

end Equations

/-! ## Calls that find the list empty -/

/-- Once a call found the list empty, `starved` says so for good. -/
def Mm.Starves (s s' : Mm) : Prop := s.starved = true → s'.starved = true

namespace Starves

variable {α β : Type}

theorem refl (s : Mm) : s.Starves s := fun h => h

theorem trans {a b c : Mm} (h : a.Starves b) (h' : b.Starves c) : a.Starves c :=
  fun ha => h' (h ha)

theorem pure (a : α) : Act.Within Mm.Starves (Pure.pure a : Act Mm α) := Act.Within.pure refl a

theorem gets (f : Mm → α) : Act.Within Mm.Starves (Act.gets f) := Act.Within.gets refl f

theorem bind {x : Act Mm α} {f : α → Act Mm β} (hx : Act.Within Mm.Starves x)
    (hf : ∀ a, Act.Within Mm.Starves (f a)) : Act.Within Mm.Starves (x >>= f) :=
  Act.Within.bind (r := Mm.Starves) trans hx hf

theorem modify {f : Mm → Mm} (h : ∀ s : Mm, s.Starves (f s)) : Act.Within Mm.Starves (Act.modify f) :=
  h

theorem load (n va : Nat) : Act.Within Mm.Starves (load n va) := by
  intro s
  unfold Myos.Kernel.load
  cases s.kpa va <;> exact refl s

theorem store (n va v : Nat) : Act.Within Mm.Starves (store n va v) := by
  intro s
  unfold Myos.Kernel.store
  cases s.kpa va <;> exact refl s

theorem memset (va : Nat) (c : UInt8) (n : Nat) : Act.Within Mm.Starves (memset va c n) := by
  induction n generalizing va with
  | zero => exact pure ()
  | succ n ih => exact bind (store 1 va _) fun _ => ih (va + 1)

theorem memcpy (dest src n : Nat) : Act.Within Mm.Starves (memcpy dest src n) := by
  induction n generalizing dest src with
  | zero => exact pure ()
  | succ n ih =>
    exact bind (load 1 src) fun _ => bind (store 1 dest _) fun _ => ih (dest + 1) (src + 1)

theorem allocPage (flags : Nat) : Act.Within Mm.Starves (allocPage flags) := by
  refine bind (gets _) fun p => ?_
  cases p with
  | none => exact bind (modify fun _ _ => rfl) fun _ => pure none
  | some p =>
    have hcount : Act.Within Mm.Starves (do
        Act.modify fun s => s.setCount p (int32 (s.count p + 1))
        return some p) := bind (modify fun s => refl s) fun _ => pure (some p)
    refine bind (modify fun s => refl s) fun _ => ?_
    show Act.Within Mm.Starves (if _ then _ else _)
    split
    · exact bind (gets _) fun va => bind (memset va 0 pageSize) fun _ => hcount
    · exact hcount

theorem freePage (p : Option Nat) : Act.Within Mm.Starves (freePage p) := by
  cases p with
  | none => exact pure ()
  | some p =>
    refine bind (modify fun s => refl s) fun _ => bind (gets _) fun c => ?_
    split
    · exact bind (modify fun s => refl s) fun _ => modify fun s => refl s
    · exact pure ()

/-- A sequence that never found the list empty did not in its first part. -/
theorem of_bind {x : Act Mm α} {f : α → Act Mm β} {s : Mm}
    (hf : ∀ a, Act.Within Mm.Starves (f a)) (h : ((x >>= f) s).state.starved = false) :
    (x s).state.starved = false := by
  cases hx : x s with
  | ok a s' =>
    rw [Act.bind_ok hx] at h
    cases hs : s'.starved with
    | false => exact hs
    | true =>
      rw [hf a s' hs] at h
      cases h
  | fault s' =>
    rw [Act.bind_fault hx] at h
    exact h

/-- A call that did not find the list empty found a frame. -/
theorem head_of_allocPage {flags : Nat} {s : Mm}
    (h : (Myos.Kernel.allocPage flags s).state.starved = false) : ∃ p, s.phead = some p := by
  cases hp : s.phead with
  | none =>
    rw [allocPage_none hp] at h
    cases h
  | some p => exact ⟨p, rfl⟩

end Starves

/-! ## The discipline of the list -/

/-- The list from `phead` visits exactly `l`, and `l` holds exactly the
frames whose count is nought. -/
structure FreeList (s : Mm) (l : List Nat) : Prop where
  chain : Chain s.link s.phead l
  mem : ∀ f, f ∈ l ↔ f < s.npages ∧ s.count f = 0

namespace FreeList

variable {s s' : Mm} {l : List Nat} {flags p f : Nat}

/-- No frame is on the list twice. -/
theorem nodup (h : FreeList s l) : l.Nodup := h.chain.nodup

/-- It has room for all that are free. -/
theorem length_le (h : FreeList s l) {l' : List Nat} (hnd : l'.Nodup)
    (hfree : ∀ f ∈ l', f < s.npages ∧ s.count f = 0) : l'.length ≤ l.length :=
  (hnd.subperm fun f hf => (h.mem f).mpr (hfree f hf)).length_le

/-- The list depends on the records and on the head alone. -/
theorem congr (h : FreeList s l) (hp : s'.pages = s.pages) (hh : s'.phead = s.phead)
    (hn : s'.npages = s.npages) : FreeList s' l := by
  have hlink : s'.link = s.link := by unfold Mm.link; rw [hp]
  have hcount : s'.count = s.count := by unfold Mm.count; rw [hp]
  exact ⟨by rw [hlink, hh]; exact h.chain, by rw [hn, hcount]; exact h.mem⟩

/-- What the head of the list says about the list. -/
theorem phead_none (h : FreeList s l) (hp : s.phead = none) : l = [] := by
  have hc := h.chain
  rw [hp] at hc
  exact hc.of_none

theorem phead_some (h : FreeList s l) (hp : s.phead = some p) :
    ∃ l', l = p :: l' ∧ p < s.npages ∧ s.count p = 0 ∧ p ∉ l' := by
  have hc := h.chain
  rw [hp] at hc
  obtain ⟨l', rfl, -⟩ := hc.of_some
  obtain ⟨hlt, hz⟩ := (h.mem p).mp List.mem_cons_self
  exact ⟨l', rfl, hlt, hz, (List.nodup_cons.mp h.nodup).1⟩

/-- Handing out the head leaves the rest. -/
theorem taken (h : FreeList s (p :: l)) : FreeList (s.taken flags p) l := by
  have hz : s.count p = 0 := ((h.mem p).mp List.mem_cons_self).2
  have hp : p ∉ l := (List.nodup_cons.mp h.nodup).1
  obtain ⟨-, hc⟩ := h.chain.of_cons
  refine ⟨?_, fun f => ?_⟩
  · exact hc.congr fun b _ => Mm.taken_link s flags p b
  · rw [Mm.taken_npages, Mm.taken_count, hz]
    by_cases hf : f = p
    · subst hf
      rw [if_pos rfl]
      constructor
      · intro hm; exact absurd hm hp
      · rintro ⟨-, h1⟩; cases h1
    · rw [if_neg hf, ← h.mem f, List.mem_cons]
      constructor
      · intro hm; exact .inr hm
      · rintro (rfl | hm)
        · exact absurd rfl hf
        · exact hm

/-- A frame whose last reference went heads the list. -/
theorem released (h : FreeList s l) (hp : p < s.npages) (h1 : s.count p = 1) :
    FreeList (s.released p) (p :: l) := by
  have hpl : p ∉ l := by
    intro hm
    have := ((h.mem p).mp hm).2
    omega
  refine ⟨?_, fun f => ?_⟩
  · have hpush := h.chain.push hpl
    refine hpush.congr fun b _ => ?_
    rw [Mm.released_link]
    unfold Function.update
    by_cases hb : b = p
    · subst hb; simp
    · simp [hb]
  · rw [Mm.released_npages, Mm.released_count, List.mem_cons]
    by_cases hf : f = p
    · subst hf
      simp [hp]
    · rw [if_neg hf, h.mem f]
      constructor
      · rintro (rfl | hm)
        · exact absurd rfl hf
        · exact hm
      · intro hm; exact .inr hm

/-- Counting a frame in use up or down, short of nought, leaves the list. -/
theorem setCount {c : Int} (h : FreeList s l) (h0 : s.count p ≠ 0) (hc : c ≠ 0) :
    FreeList (s.setCount p c) l := by
  refine ⟨h.chain.congr fun b _ => Mm.setCount_link s p b c, fun f => ?_⟩
  rw [Mm.setCount_npages, Mm.setCount_count, h.mem f]
  by_cases hf : f = p
  · subst hf
    rw [if_pos rfl]
    constructor
    · rintro ⟨-, hz⟩; exact absurd hz h0
    · rintro ⟨-, hz⟩; exact absurd hz hc
  · rw [if_neg hf]

/-- A frame in use is not on the list. -/
theorem not_mem (h : FreeList s l) (h0 : s.count f ≠ 0) : f ∉ l := fun hm =>
  h0 ((h.mem f).mp hm).2

end FreeList

/-- The state after one reference of `p` was freed. -/
def Mm.freed (s : Mm) (p : Nat) : Mm :=
  if s.count p = 1 then s.released p else s.setCount p (int32 (s.count p - 1))

namespace Mm

variable (s : Mm) (p : Nat)

@[simp] theorem freed_mem : (s.freed p).mem = s.mem := by unfold freed; split <;> rfl
@[simp] theorem freed_npages : (s.freed p).npages = s.npages := by unfold freed; split <;> rfl
@[simp] theorem freed_pagesVa : (s.freed p).pagesVa = s.pagesVa := by unfold freed; split <;> rfl
@[simp] theorem freed_cr3 : (s.freed p).cr3 = s.cr3 := by unfold freed; split <;> rfl
@[simp] theorem freed_starved : (s.freed p).starved = s.starved := by unfold freed; split <;> rfl

/-- Freeing a frame and storing commute. -/
theorem freed_setMem (m : Mem) : (s.setMem m).freed p = (s.freed p).setMem m := by
  unfold freed
  rw [setMem_count]
  split <;> rfl

variable {s p}

theorem freed_count (h1 : 1 ≤ s.count p) (h2 : s.count p < 2 ^ 31) (f : Nat) :
    (s.freed p).count f = if f = p then s.count p - 1 else s.count f := by
  unfold freed
  by_cases hlast : s.count p = 1
  · rw [if_pos hlast, released_count, hlast]
    rfl
  · rw [if_neg hlast, setCount_count, int32_of_bounds (by omega) (by omega)]

end Mm

/-- `free_page` of a frame in use. -/
theorem freePage_ok {s : Mm} {p : Nat} (h1 : 1 ≤ s.count p) (h2 : s.count p < 2 ^ 31) :
    freePage (some p) s = .ok () (s.freed p) := by
  unfold Mm.freed
  by_cases hlast : s.count p = 1
  · rw [if_pos hlast, freePage_last hlast]
  · rw [if_neg hlast, freePage_more]
    rw [int32_of_bounds (by omega) (by omega)]
    omega

/-- Freeing a reference keeps the list in order. -/
theorem FreeList.freed {s : Mm} {l : List Nat} {p : Nat} (h : FreeList s l) (hp : p < s.npages)
    (h1 : 1 ≤ s.count p) (h2 : s.count p < 2 ^ 31) : ∃ l', FreeList (s.freed p) l' := by
  unfold Mm.freed
  by_cases hlast : s.count p = 1
  · rw [if_pos hlast]
    exact ⟨p :: l, h.released hp hlast⟩
  · rw [if_neg hlast]
    refine ⟨l, h.setCount (by omega) ?_⟩
    rw [int32_of_bounds (by omega) (by omega)]
    omega

/-- A frame linked to nothing in particular by the first loop. -/
theorem countPages_eq (pages : Nat → Page) (n i : Nat) : countPages pages n i =
    if i < n then { link := none, count := int32 ((pages i).count + 1) } else pages i := by
  induction n with
  | zero => rw [if_neg (Nat.not_lt_zero i)]; rfl
  | succ n ih =>
    have hn : countPages pages n n = pages n := by
      clear ih
      suffices h : ∀ k, k ≤ n → countPages pages k n = pages n from h n (Nat.le_refl n)
      intro k hk
      induction k with
      | zero => rfl
      | succ k ihk =>
        rw [countPages, Function.update_of_ne (by omega), ihk (by omega)]
    by_cases hi : i = n
    · subst hi
      rw [countPages, Function.update_self, hn, if_pos (Nat.lt_succ_self i)]
    · rw [countPages, Function.update_of_ne hi, ih]
      by_cases hlt : i < n
      · rw [if_pos hlt, if_pos (by omega)]
      · rw [if_neg hlt, if_neg (by omega)]

theorem threadPage_record (i j : Nat) (t : (Nat → Page) × Option Nat) :
    (threadPage i t).1 j = if j = i then { link := t.2, count := 0 } else t.1 j :=
  Function.update_apply t.1 i _ j

/-- A loop of `init_page` over frames not yet on the list threads them in
front of it, in rising order, with count nought; it touches no other record. -/
theorem threadDown_spec (lo n : Nat) (t : (Nat → Page) × Option Nat) (l : List Nat)
    (hc : Chain (fun i => (t.1 i).link) t.2 l) (hd : ∀ i ∈ l, ¬ (lo ≤ i ∧ i < lo + n)) :
    Chain (fun i => ((threadDown lo n t).1 i).link) (threadDown lo n t).2
        (List.range' lo n ++ l) ∧
      ∀ i, ((threadDown lo n t).1 i).count =
        if lo ≤ i ∧ i < lo + n then 0 else (t.1 i).count := by
  induction n generalizing t l with
  | zero =>
    rw [threadDown]
    exact ⟨hc, fun i => (if_neg (by omega)).symm⟩
  | succ n ih =>
    have hnew : lo + n ∉ l := fun hm => hd _ hm (by omega)
    have hlink : (fun i => ((threadPage (lo + n) t).1 i).link) =
        Function.update (fun i => (t.1 i).link) (lo + n) t.2 := by
      funext i
      rw [threadPage_record, Function.update_apply]
      split <;> rfl
    have hc' : Chain (fun i => ((threadPage (lo + n) t).1 i).link) (threadPage (lo + n) t).2
        ((lo + n) :: l) := by
      rw [hlink]
      exact hc.push hnew
    have hd' : ∀ i ∈ (lo + n) :: l, ¬ (lo ≤ i ∧ i < lo + n) := by
      intro i hi
      rcases List.mem_cons.mp hi with rfl | hi
      · omega
      · have := hd i hi
        omega
    obtain ⟨h1, h2⟩ := ih (threadPage (lo + n) t) ((lo + n) :: l) hc' hd'
    rw [threadDown]
    refine ⟨?_, fun i => ?_⟩
    · rw [List.range'_concat, Nat.one_mul, List.append_assoc]
      exact h1
    · rw [h2 i, threadPage_record]
      by_cases hi : i = lo + n
      · subst hi
        rw [if_neg (by omega), if_pos rfl, if_pos (by omega)]
      · rw [if_neg hi]
        by_cases hin : lo ≤ i ∧ i < lo + n
        · rw [if_pos hin, if_pos (by omega)]
        · rw [if_neg hin, if_neg (by omega)]

/-! ## After `init_page` -/

/-- The frames `init_page` lists, in list order, when the kernel's memory ends
below frame `lo`: low memory without the trampoline frame, then what is left. -/
def initialFrames (npages lo : Nat) : List Nat :=
  List.range' 9 151 ++ (List.range' 1 7 ++ List.range' lo (npages - lo))

theorem mem_initialFrames (npages lo f : Nat) : f ∈ initialFrames npages lo ↔
    (9 ≤ f ∧ f < 160) ∨ (1 ≤ f ∧ f < 8) ∨ (lo ≤ f ∧ f < npages) := by
  simp only [initialFrames, List.mem_append, List.mem_range'_1]
  omega

/-- The first frame past the kernel's memory. -/
def Mm.firstFrame (s : Mm) : Nat := u64 (kva2pa s.kusedMem + pageSize - 1) / pageSize

/-- The records and the head of the list after the loops of `init_page`. -/
def threadAll (pages : Nat → Page) (npages lo : Nat) : (Nat → Page) × Option Nat :=
  threadDown 9 151 (threadDown 1 7 (threadDown lo (npages - lo) (countPages pages npages, none)))

/-- The loops of `init_page`, over any records: the list is `initialFrames`, its
frames count nought, and every other frame one more than before. -/
theorem threadAll_spec (pages : Nat → Page) {npages lo : Nat} (hlo : 160 ≤ lo) :
    Chain (fun i => ((threadAll pages npages lo).1 i).link) (threadAll pages npages lo).2
        (initialFrames npages lo) ∧
      ∀ f, f < npages → ((threadAll pages npages lo).1 f).count =
        if f ∈ initialFrames npages lo then 0 else int32 ((pages f).count + 1) := by
  -- the three loops, each over frames the ones before it did not list
  obtain ⟨hc1, hk1⟩ := threadDown_spec lo (npages - lo) (countPages pages npages, none) [] .nil
    (by simp)
  obtain ⟨hc2, hk2⟩ := threadDown_spec 1 7 _ _ hc1 (by
    intro i hi
    simp only [List.append_nil, List.mem_range'_1] at hi
    omega)
  obtain ⟨hc3, hk3⟩ := threadDown_spec 9 151 _ _ hc2 (by
    intro i hi
    simp only [List.append_nil, List.mem_append, List.mem_range'_1] at hi
    omega)
  rw [List.append_nil] at hc3
  refine ⟨hc3, fun f hf => ?_⟩
  have hcount : (countPages pages npages f).count = int32 ((pages f).count + 1) := by
    rw [countPages_eq, if_pos hf]
  show ((threadDown 9 151 _).1 f).count = _
  rw [hk3 f, hk2 f, hk1 f, hcount]
  simp only [mem_initialFrames]
  split
  · rw [if_pos (by omega)]
  · split
    · rw [if_pos (by omega)]
    · split
      · rw [if_pos (by omega)]
      · rw [if_neg (by omega)]

/-- The state after `init_page`. -/
def Mm.listed (s : Mm) : Mm :=
  { s with
    kusedMem := kva2pa s.kusedMem
    pages := (threadAll s.pages s.npages s.firstFrame).1
    phead := (threadAll s.pages s.npages s.firstFrame).2 }

/-- `init_page` as its loops. -/
theorem initPage_run {s : Mm} (hn : s.npages ≠ 0) (hlo : s.firstFrame ≠ 0) :
    initPage s = .ok () s.listed := by
  have hgo : ¬ (s.npages = 0 ∨ s.firstFrame = 0) := fun h => h.elim hn hlo
  have h7 : trampolineBase / pageSize - 1 = 7 := rfl
  have h9 : trampolineBase / pageSize + 1 = 9 := rfl
  have h151 : 0x000A0000 / pageSize - 1 - trampolineBase / pageSize = 151 := rfl
  unfold initPage
  simp only [Act.modify_bind_apply, Act.gets_bind_apply, h7, h9, h151]
  rw [← Mm.firstFrame, if_neg hgo]
  simp only [Act.modify_bind_apply, Act.modify_apply, threadAll, Mm.listed]

/-- `init_page` over records of nought: the list is `initialFrames`, and every
other frame of the array counts one reference. -/
theorem initPage_spec {s : Mm} (hzero : s.pages = fun _ => {}) (hn : 160 ≤ s.npages)
    (hlo : 160 ≤ s.firstFrame) :
    ∃ s', initPage s = .ok () s' ∧ s'.npages = s.npages ∧
      FreeList s' (initialFrames s.npages s.firstFrame) ∧
      ∀ f, f < s.npages →
        s'.count f = if f ∈ initialFrames s.npages s.firstFrame then 0 else 1 := by
  obtain ⟨hchain, hcount⟩ := @threadAll_spec s.pages s.npages _ hlo
  refine ⟨_, initPage_run (by omega) (by omega), rfl, ⟨hchain, fun f => ?_⟩, fun f hf => ?_⟩
  all_goals
    have hone : int32 ((s.pages f).count + 1) = 1 := by
      rw [hzero]
      rfl
  · constructor
    · intro hm
      have hlt : f < s.npages := by
        rw [mem_initialFrames] at hm
        omega
      exact ⟨hlt, (hcount f hlt).trans (if_pos hm)⟩
    · rintro ⟨hlt, hz⟩
      by_contra hm
      have hnz := (hcount f hlt).trans (if_neg hm)
      rw [hone] at hnz
      cases hz.symm.trans hnz
  · have hf' := hcount f hf
    rw [hone] at hf'
    exact hf'

/-! ## Runs of the allocator -/

/-- A call on the allocator, with what `alloc_page` returned. -/
inductive FrameOp where
  | alloc (flags : Nat) (ret : Option Nat)
  | free (p : Nat)
  | share (p : Nat)

/-- One call: a frame of the array is freed or shared only while it is counted. -/
inductive FrameStep : Mm → FrameOp → Mm → Prop where
  | alloc {s s' : Mm} {flags : Nat} {ret : Option Nat} :
      allocPage flags s = .ok ret s' → FrameStep s (.alloc flags ret) s'
  | free {s s' : Mm} {p : Nat} :
      p < s.npages → 1 ≤ s.count p → freePage (some p) s = .ok () s' → FrameStep s (.free p) s'
  | share {s s' : Mm} {p : Nat} :
      p < s.npages → 1 ≤ s.count p → sharePage p s = .ok () s' → FrameStep s (.share p) s'

/-- The references a call adds to a frame. -/
def FrameOp.gain : FrameOp → Nat → Int
  | .alloc _ ret, f => if ret = some f then 1 else 0
  | .free p, f => if f = p then -1 else 0
  | .share p, f => if f = p then 1 else 0

/-- The references outstanding after the calls, from what was outstanding before. -/
def refs (first : Nat → Int) : List FrameOp → Nat → Int
  | [] => first
  | op :: ops => refs (fun f => first f + op.gain f) ops

/-- The records in step with the references outstanding. A count is an `int`:
a frame shared `2 ^ 31 - 1` times over has a negative count from then on,
and no call is made on it again. -/
structure Counted (s : Mm) (r : Nat → Int) : Prop where
  small : s.npages ≤ 2 ^ 19
  list : ∃ l, FreeList s l
  nonneg : ∀ f, f < s.npages → 0 ≤ r f
  bound : ∀ f, f < s.npages → r f ≤ 2 ^ 31
  count : ∀ f, f < s.npages → s.count f = int32 (r f)

namespace Counted

variable {s s' : Mm} {r : Nat → Int} {f p : Nat} {op : FrameOp}

theorem count_max : int32 (2 ^ 31) = -2 ^ 31 := by decide

/-- A count that is not negative is the number of references. -/
theorem count_eq (h : Counted s r) (hf : f < s.npages) (hpos : 0 ≤ s.count f) :
    s.count f = r f := by
  have h0 := h.nonneg f hf
  have hle := h.bound f hf
  have hc := h.count f hf
  by_cases hmax : r f = 2 ^ 31
  · rw [hmax, count_max] at hc
    omega
  · rw [hc, int32_of_bounds (by omega) (by omega)]

/-- A frame counts nought exactly when no reference is outstanding. -/
theorem zero_iff (h : Counted s r) (hf : f < s.npages) : s.count f = 0 ↔ r f = 0 := by
  constructor
  · intro hz
    rw [← h.count_eq hf (by omega), hz]
  · intro hz
    rw [h.count f hf, hz]
    rfl

/-- A counted reference more, or one less, of a frame in use. -/
theorem setCount (h : Counted s r) (hp : p < s.npages) (h1 : 1 ≤ s.count p) {d : Int}
    (hd : d = 1 ∨ d = -1) (hne : s.count p + d ≠ 0) :
    Counted (s.setCount p (int32 (s.count p + d)))
      (fun f => r f + if f = p then d else 0) := by
  obtain ⟨l, hl⟩ := h.list
  have heq := h.count_eq hp (by omega)
  have hle := h.bound p hp
  have hlt : r p < 2 ^ 31 := by
    rcases Int.lt_or_eq_of_le hle with hlt | hmax
    · exact hlt
    · have hc := h.count p hp
      rw [hmax, count_max] at hc
      omega
  have hnz : int32 (s.count p + d) ≠ 0 := by
    by_cases hmax : s.count p + d = 2 ^ 31
    · rw [hmax, count_max]
      decide
    · rw [int32_of_bounds (by omega) (by omega)]
      exact hne
  refine ⟨h.small, ⟨l, hl.setCount (by omega) hnz⟩, fun f hf => ?_, fun f hf => ?_, fun f hf => ?_⟩
  · have := h.nonneg f hf
    split
    · next hfp => subst hfp; omega
    · omega
  · have := h.bound f hf
    split
    · next hfp => subst hfp; omega
    · omega
  · rw [Mm.setCount_count]
    split
    · next hfp => subst hfp; rw [heq]
    · rw [Int.add_zero]
      exact h.count f hf

/-- STEP: every call keeps the records in step. -/
theorem step (h : Counted s r) (hstep : FrameStep s op s') :
    Counted s' (fun f => r f + op.gain f) ∧ s'.npages = s.npages := by
  obtain ⟨l, hl⟩ := h.list
  cases hstep with
  | @alloc _ flags ret hrun =>
    cases hhead : s.phead with
    | none =>
      rw [allocPage_none hhead] at hrun
      cases hrun
      refine ⟨⟨h.small, ⟨l, hl.congr rfl rfl rfl⟩, ?_, ?_, ?_⟩, rfl⟩
      all_goals intro f hf; simp only [FrameOp.gain, reduceCtorEq, if_false, Int.add_zero]
      · exact h.nonneg f hf
      · exact h.bound f hf
      · exact h.count f hf
    | some p =>
      obtain ⟨l', rfl, hp, hz, -⟩ := hl.phead_some hhead
      rw [allocPage_some hhead (Nat.lt_of_lt_of_le hp h.small)] at hrun
      cases hrun
      have hr := (h.zero_iff hp).mp hz
      refine ⟨⟨by simpa using h.small, ⟨l', hl.taken⟩, ?_, ?_, ?_⟩, Mm.taken_npages s flags p⟩
      all_goals intro f hf; rw [Mm.taken_npages] at hf; simp only [FrameOp.gain, Option.some.injEq]
      · have := h.nonneg f hf
        split <;> omega
      · have := h.bound f hf
        split
        · next hpf => subst hpf; omega
        · omega
      · rw [Mm.taken_count]
        by_cases hfp : f = p
        · subst hfp
          rw [if_pos rfl, if_pos rfl, hz, hr]
        · rw [if_neg hfp, if_neg (Ne.symm hfp), Int.add_zero]
          exact h.count f hf
  | @free _ p hp h1 hrun =>
    by_cases hlast : s.count p = 1
    · rw [freePage_last hlast] at hrun
      cases hrun
      have hr := h.count_eq hp (by omega)
      refine ⟨⟨h.small, ⟨p :: l, hl.released hp hlast⟩, ?_, ?_, ?_⟩, rfl⟩
      all_goals intro f hf; simp only [FrameOp.gain]
      · have := h.nonneg f hf
        split
        · next hfp => subst hfp; omega
        · omega
      · have := h.bound f hf
        split <;> omega
      · rw [Mm.released_count]
        split
        · next hfp => subst hfp; rw [← hr, hlast]; rfl
        · rw [Int.add_zero]
          exact h.count f hf
    · have hkeep := h.setCount hp h1 (d := -1) (.inr rfl) (by omega)
      have hnz : int32 (s.count p - 1) ≠ 0 := by
        have hle := h.bound p hp
        have hr := h.count_eq hp (by omega)
        rw [int32_of_bounds (by omega) (by omega)]
        omega
      rw [freePage_more hnz] at hrun
      cases hrun
      exact ⟨hkeep, rfl⟩
  | @share _ p hp h1 hrun =>
    have hkeep := h.setCount hp h1 (d := 1) (.inl rfl) (by omega)
    cases hrun
    exact ⟨hkeep, rfl⟩

/-- RUN: every sequence of calls keeps the records in step. -/
theorem run {ops : List FrameOp} (hrun : Steps FrameStep s ops s') :
    ∀ {r : Nat → Int}, Counted s r → Counted s' (refs r ops) ∧ s'.npages = s.npages := by
  induction hrun with
  | nil s => intro r h; exact ⟨h, rfl⟩
  | cons hstep _ ih =>
    intro r h
    obtain ⟨h', hn⟩ := h.step hstep
    obtain ⟨h'', hn'⟩ := ih h'
    exact ⟨h'', hn'.trans hn⟩

end Counted

/-- The kernel's own memory ends above low memory. -/
theorem firstFrame_ge {s : Mm} (h1 : kbase + 0xA0000 ≤ s.kusedMem) (h2 : s.kusedMem < 2 ^ 64) :
    160 ≤ s.firstFrame := by
  unfold Mm.firstFrame kva2pa u64 pageSize
  unfold kbase at *
  omega

/-- `init_page` starts the count: what is listed has no reference, the rest one. -/
theorem initPage_counted {s s' : Mm} (hzero : s.pages = fun _ => {}) (hn : 160 ≤ s.npages)
    (hsmall : s.npages < 2 ^ 18) (hlo : 160 ≤ s.firstFrame) (hrun : initPage s = .ok () s') :
    Counted s' s'.count := by
  obtain ⟨t, hrun', hnp, hl, hcount⟩ := initPage_spec hzero hn hlo
  rw [hrun] at hrun'
  cases hrun'
  refine ⟨by omega, ⟨_, hl⟩, fun f hf => ?_, fun f hf => ?_, fun f hf => ?_⟩
  all_goals
    rw [hcount f (by omega)]
    split <;> decide

/-- `alloc_page` on records in step: null only if every frame is in use, else
the head of the list, which was not in use and now counts one. -/
theorem Counted.alloc {s : Mm} {r : Nat → Int} {l : List Nat} (hc : Counted s r)
    (hl : FreeList s l) (flags : Nat) : ∃ ret s', allocPage flags s = .ok ret s' ∧
      (ret = none ↔ ∀ f, f < s.npages → s.count f ≠ 0) ∧
      ∀ p, ret = some p → p ∈ l ∧ s.count p = 0 ∧ s'.count p = 1 ∧
        ∃ l', FreeList s' l' ∧ ∀ f, f ∈ l' ↔ f ∈ l ∧ f ≠ p := by
  cases hhead : s.phead with
  | none =>
    have hnil := hl.phead_none hhead
    refine ⟨none, _, allocPage_none hhead, ⟨fun _ f hf hz => ?_, fun _ => rfl⟩, by simp⟩
    have hmem := (hl.mem f).mpr ⟨hf, hz⟩
    rw [hnil] at hmem
    cases hmem
  | some p =>
    obtain ⟨l', rfl, hp, hz, hpl⟩ := hl.phead_some hhead
    refine ⟨some p, _, allocPage_some hhead (Nat.lt_of_lt_of_le hp hc.small), ?_, ?_⟩
    · constructor
      · intro h; cases h
      · intro h; exact absurd hz (h p hp)
    · intro q hq
      cases hq
      refine ⟨List.mem_cons_self, hz, ?_, l', hl.taken, fun f => ?_⟩
      · rw [Mm.taken_count, if_pos rfl, hz]
        rfl
      · rw [List.mem_cons]
        constructor
        · intro hf
          exact ⟨.inr hf, fun hfp => hpl (hfp ▸ hf)⟩
        · rintro ⟨rfl | hf, hne⟩
          · exact absurd rfl hne
          · exact hf

/-- `free_page` on records in step: the frame is listed exactly when its last
reference goes, and no other frame moves. -/
theorem Counted.free {s : Mm} {r : Nat → Int} {l : List Nat} (hc : Counted s r)
    (hl : FreeList s l) {p : Nat} (hp : p < s.npages) (h1 : 1 ≤ s.count p) :
    ∃ s' l', freePage (some p) s = .ok () s' ∧ FreeList s' l' ∧ (p ∈ l' ↔ r p = 1) ∧
      ∀ f, f ≠ p → (f ∈ l' ↔ f ∈ l) := by
  have hr := hc.count_eq hp (by omega)
  by_cases hlast : s.count p = 1
  · refine ⟨_, p :: l, freePage_last hlast, hl.released hp hlast, ?_, fun f hf => ?_⟩
    · exact ⟨fun _ => by omega, fun _ => List.mem_cons_self⟩
    · rw [List.mem_cons]
      exact ⟨fun h => h.resolve_left hf, .inr⟩
  · have hle := hc.bound p hp
    have hnz : int32 (s.count p - 1) ≠ 0 := by
      rw [int32_of_bounds (by omega) (by omega)]
      omega
    refine ⟨_, l, freePage_more hnz, hl.setCount (by omega) hnz, ?_, fun f _ => Iff.rfl⟩
    constructor
    · intro hm
      exact absurd hm (hl.not_mem (by omega))
    · intro h
      omega

/-- THE ALLOCATOR. After `init_page` on records of nought and any sequence of
`alloc_page`, `free_page` and sharing, the list is finite and free of
repetition and holds exactly the frames with count nought, which are those
with no reference outstanding. `alloc_page` hands out a frame that was not in
use, with count one, and returns null only if every frame is in use;
`free_page` lists a frame exactly when it takes the last reference. -/
theorem frame_allocator {s₀ s₁ s : Mm} {ops : List FrameOp}
    (hzero : s₀.pages = fun _ => {}) (hn : 160 ≤ s₀.npages) (hsmall : s₀.npages < 2 ^ 18)
    (hk : kbase + 0xA0000 ≤ s₀.kusedMem) (hk' : s₀.kusedMem < 2 ^ 64)
    (hinit : initPage s₀ = .ok () s₁) (hrun : Steps FrameStep s₁ ops s) :
    ∃ l, FreeList s l ∧ l.Nodup ∧
      (∀ f, f < s.npages → (f ∈ l ↔ refs s₁.count ops f = 0)) ∧
      (∀ flags, ∃ ret s', allocPage flags s = .ok ret s' ∧
        (ret = none ↔ ∀ f, f < s.npages → s.count f ≠ 0) ∧
        ∀ p, ret = some p → p ∈ l ∧ s.count p = 0 ∧ s'.count p = 1 ∧
          ∃ l', FreeList s' l' ∧ ∀ f, f ∈ l' ↔ f ∈ l ∧ f ≠ p) ∧
      (∀ p, p < s.npages → 1 ≤ s.count p → ∃ s' l', freePage (some p) s = .ok () s' ∧
        FreeList s' l' ∧ (p ∈ l' ↔ refs s₁.count ops p = 1) ∧
        ∀ f, f ≠ p → (f ∈ l' ↔ f ∈ l)) := by
  obtain ⟨hc, -⟩ := Counted.run hrun
    (initPage_counted hzero hn hsmall (firstFrame_ge hk hk') hinit)
  obtain ⟨l, hl⟩ := hc.list
  refine ⟨l, hl, hl.nodup, fun f hf => ?_, hc.alloc hl, fun p hp h1 => hc.free hl hp h1⟩
  rw [hl.mem f, ← hc.zero_iff hf]
  exact ⟨fun h => h.2, fun h => ⟨hf, h⟩⟩

/-- A machine of 16 MB whose kernel ends at 3 MB, before `init_page`. -/
def bootMm : Mm where
  mem := fun _ => 0
  pages := fun _ => {}
  phead := none
  npages := 4096
  kusedMem := kbase + 0x300000
  pagesVa := kbase + 0x280000
  cr3 := 0
  starved := false

/-- The theorem at `bootMm` and one call: frame 9 is handed out. -/
theorem frame_allocator_boot : ∃ s₁ s, initPage bootMm = .ok () s₁ ∧
    Steps FrameStep s₁ [.alloc pgzero (some 9)] s ∧
    ∃ l, FreeList s l ∧ l.Nodup ∧
      ∀ f, f < s.npages → (f ∈ l ↔ refs s₁.count [.alloc pgzero (some 9)] f = 0) := by
  have hk : kbase + 0xA0000 ≤ bootMm.kusedMem := Nat.add_le_add_left (by decide) kbase
  have hk' : bootMm.kusedMem < 2 ^ 64 := by
    show kbase + 0x300000 < 2 ^ 64
    unfold kbase
    omega
  obtain ⟨s₁, hinit, -, hl, -⟩ := initPage_spec (s := bootMm) rfl (by decide)
    (firstFrame_ge hk hk')
  have hhead : s₁.phead = some 9 := by
    have hc := hl.chain
    rw [initialFrames, List.range'_succ, List.cons_append] at hc
    exact hc.of_cons.1
  have hstep : Steps FrameStep s₁ [.alloc pgzero (some 9)] (s₁.taken pgzero 9) :=
    .cons (.alloc (allocPage_some hhead (by decide))) (.nil _)
  obtain ⟨l, h1, h2, h3, -⟩ := @frame_allocator bootMm s₁ _ _ rfl (by decide) (by decide)
    hk hk' hinit hstep
  exact ⟨s₁, _, hinit, hstep, l, h1, h2, h3⟩

end Myos.Kernel
