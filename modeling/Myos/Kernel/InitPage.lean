import Myos.Lib.Loop
import Myos.Kernel.Page

/-!
# The loops of `init_page`

`initPage` counts its turns beforehand. Here the three loops run as they are
written: the index is an `int`, and each condition converts it in its own way,
to `unsigned int` beside `npages`, to `unsigned long` beside the end of the
kernel's memory, not at all beside the constants. A record outside of the array
stops the code. From the kernel's end in range the two are the same
(`initPageLoops_run`).
-/

namespace Myos.Kernel

open Myos.Lib

/-- The records, and the local variable `p`. -/
structure Threading where
  mm : Mm
  p : Option Nat

/-- The conversion of an `int` to `unsigned int`, and to `unsigned long`. -/
def uintOf (i : Int) : Nat := (i % 2 ^ 32).toNat
def ulongOf (i : Int) : Nat := (i % 2 ^ 64).toNat

/-- `pages[i].count++; pages[i].link = NULL`. -/
def countBody (i : Int) : Act Threading Unit :=
  if 0 ≤ i then
    Act.modify fun t =>
      let page : Page := { link := none, count := int32 (t.mm.count i.toNat + 1) }
      { t with mm := t.mm.setPage i.toNat page }
  else Act.stop

/-- `pages[i].link = p; p = &pages[i]; p->count = 0`. -/
def threadBody (i : Int) : Act Threading Unit :=
  if 0 ≤ i then
    Act.modify fun t =>
      { t with mm := t.mm.setPage i.toNat { link := t.p, count := 0 }, p := some i.toNat }
  else Act.stop

/-- `i < npages`. -/
def belowNpages (npages : Nat) (i : Int) : Bool := uintOf i < npages

/-- `i >= (kused_mem + PAGESIZE - 1) / PAGESIZE`. -/
def fromKernelEnd (kused : Nat) (i : Int) : Bool :=
  u64 (kused + pageSize - 1) / pageSize ≤ ulongOf i

/-- The loop of `init_page` that counts. -/
def countLoop (npages : Nat) : Nat → Int → Act Threading Unit :=
  Act.forLoop (belowNpages npages) (fun i => int32 (i + 1)) countBody

/-- A loop of `init_page` that goes down. -/
def threadLoop (cond : Int → Bool) : Nat → Int → Act Threading Unit :=
  Act.forLoop cond (fun i => int32 (i - 1)) threadBody

/-- The loops of `init_page`, each given up after `turns` turns, and the
assignment to `phead`. -/
def initLoops (turns npages kused : Nat) : Act Threading Unit := do
  countLoop npages turns 0
  threadLoop (fromKernelEnd kused) turns (int32 (npages - 1))
  threadLoop (fun i => 1 ≤ i) turns (trampolineBase / pageSize - 1)
  threadLoop (fun i => trampolineBase / pageSize < i) turns (0x000A0000 / pageSize - 1)
  Act.modify fun t => { t with mm := t.mm.setPhead t.p }

/-- `init_page`. -/
def initPageLoops (turns : Nat) : Act Threading Unit := do
  Act.modify fun t => { t with mm := { t.mm with kusedMem := kva2pa t.mm.kusedMem } }
  let npages ← Act.gets fun t => t.mm.npages
  let kused ← Act.gets fun t => t.mm.kusedMem
  initLoops turns npages kused

/-- The records and `p` in the course of the loops. -/
def Threading.after (s : Mm) (t : (Nat → Page) × Option Nat) : Threading :=
  { mm := { s with pages := t.1 }, p := t.2 }

section Loops

variable {s : Mm}

/-- A loop that goes down comes to what `threadDown` says, if its condition
holds from `lo` on and not below. -/
theorem threadLoop_run (cond : Int → Bool) (lo n turns : Nat)
    (hin : ∀ i : Nat, lo ≤ i → i < lo + n → cond i = true) (hout : cond ((lo : Int) - 1) = false)
    (hsmall : lo + n ≤ 2 ^ 31) (hturns : n < turns) (t : (Nat → Page) × Option Nat) :
    threadLoop cond turns ((lo : Int) + n - 1) (Threading.after s t) =
      .ok () (Threading.after s (threadDown lo n t)) := by
  unfold threadLoop
  induction n generalizing t turns with
  | zero =>
    obtain ⟨k, rfl⟩ := Nat.exists_eq_succ_of_ne_zero (show turns ≠ 0 by omega)
    rw [Act.forLoop_end (by simpa using hout)]
    rfl
  | succ n ih =>
    obtain ⟨k, rfl⟩ := Nat.exists_eq_succ_of_ne_zero (show turns ≠ 0 by omega)
    have hindex : (lo : Int) + (n + 1 : Nat) - 1 = (lo + n : Nat) := by omega
    have hbody : threadBody (lo + n : Nat) (Threading.after s t) =
        .ok () (Threading.after s (threadPage (lo + n) t)) := by
      unfold threadBody
      rw [if_pos (Int.natCast_nonneg _)]
      rfl
    have hnext : int32 (((lo + n : Nat) : Int) - 1) = (lo : Int) + n - 1 := by
      rw [int32_of_bounds (by omega) (by omega)]
      omega
    rw [hindex, Act.forLoop_turn (hin _ (by omega) (by omega)) hbody, hnext, threadDown]
    exact ih k (fun i h1 h2 => hin i h1 (by omega)) (by omega) (by omega) _

theorem uintOf_int32 (x : Int) : uintOf (int32 x) = uintOf x := by
  unfold uintOf int32
  exact congrArg Int.toNat (Int.bmod_emod (x := x) (m := 2 ^ 32))

/-- The loop that counts comes to what `countPages` says. -/
theorem countLoop_run {i n turns : Nat} (hn : i + n = s.npages) (hsmall : s.npages ≤ 2 ^ 31)
    (hturns : n < turns) (pages : Nat → Page) :
    countLoop s.npages turns (int32 i) (Threading.after s (countPages pages i, none)) =
      .ok () (Threading.after s (countPages pages s.npages, none)) := by
  unfold countLoop
  induction n generalizing i turns with
  | zero =>
    obtain ⟨k, rfl⟩ := Nat.exists_eq_succ_of_ne_zero (show turns ≠ 0 by omega)
    have hi : i = s.npages := hn
    have hcond : belowNpages s.npages (int32 i) = false := by
      refine decide_eq_false ?_
      rw [uintOf_int32]
      unfold uintOf
      omega
    rw [Act.forLoop_end hcond, hi]
  | succ n ih =>
    obtain ⟨k, rfl⟩ := Nat.exists_eq_succ_of_ne_zero (show turns ≠ 0 by omega)
    have hindex : int32 i = i := int32_of_bounds (by omega) (by omega)
    have hbody : countBody (i : Nat) (Threading.after s (countPages pages i, none)) =
        .ok () (Threading.after s (countPages pages (i + 1), none)) := by
      unfold countBody
      rw [if_pos (Int.natCast_nonneg _)]
      rfl
    have hcond : belowNpages s.npages i = true := by
      refine decide_eq_true ?_
      unfold uintOf
      omega
    have hnext : int32 ((i : Int) + 1) = int32 (i + 1 : Nat) := rfl
    rw [hindex, Act.forLoop_turn hcond hbody, hnext]
    exact ih (by omega) (by omega)

/-- The loops come to an end, with the records and the head `threadAll` says. -/
theorem initLoops_run {turns kused lo : Nat} (hk : u64 (kused + pageSize - 1) / pageSize = lo)
    (hlo : 160 ≤ lo) (hlt : lo < s.npages) (hsmall : s.npages ≤ 2 ^ 31) (hturns : s.npages < turns) :
    initLoops turns s.npages kused ⟨s, none⟩ = .ok ()
      { mm := { s with
          pages := (threadAll s.pages s.npages lo).1, phead := (threadAll s.pages s.npages lo).2 }
        p := (threadAll s.pages s.npages lo).2 } := by
  have hcount : countLoop s.npages turns 0 ⟨s, none⟩ = _ :=
    countLoop_run (Nat.zero_add s.npages) hsmall hturns s.pages
  have hstart : int32 ((s.npages : Int) - 1) = (lo : Int) + (s.npages - lo : Nat) - 1 := by
    rw [int32_of_bounds (by omega) (by omega)]
    omega
  have hcond : ∀ i, fromKernelEnd kused i = decide (lo ≤ ulongOf i) := by
    intro i
    rw [fromKernelEnd, hk]
  have hhigh := threadLoop_run (s := s) (fromKernelEnd kused) lo (s.npages - lo) turns
    (fun i h1 h2 => by
      rw [hcond]
      refine decide_eq_true ?_
      unfold ulongOf
      omega) (by
      rw [hcond]
      refine decide_eq_false ?_
      unfold ulongOf
      omega) (by omega) (by omega) (countPages s.pages s.npages, none)
  rw [← hstart] at hhigh
  have hlow : ∀ t, threadLoop (fun i => 1 ≤ i) turns (trampolineBase / pageSize - 1)
      (Threading.after s t) = .ok () (Threading.after s (threadDown 1 7 t)) :=
    threadLoop_run (fun i => decide (1 ≤ i)) 1 7 turns (fun i h1 h2 => decide_eq_true (by omega))
      (by decide) (by decide) (by omega)
  have hmid : ∀ t, threadLoop (fun i => trampolineBase / pageSize < i) turns
      (0x000A0000 / pageSize - 1) (Threading.after s t) =
        .ok () (Threading.after s (threadDown 9 151 t)) :=
    threadLoop_run (fun i => decide (8 < i)) 9 151 turns
      (fun i h1 h2 => decide_eq_true (by omega)) (by decide) (by decide) (by omega)
  unfold initLoops threadAll
  rw [Act.bind_ok hcount, Act.bind_ok hhigh, Act.bind_ok (hlow _), Act.bind_ok (hmid _),
    Act.modify_apply]
  generalize threadDown 9 151 _ = t
  rfl

/-- From a kernel's end past low memory and in range, the loops come to what
`initPage` comes to. -/
theorem initPageLoops_run {turns : Nat} (hlo : 160 ≤ s.firstFrame) (hlt : s.firstFrame < s.npages)
    (hsmall : s.npages ≤ 2 ^ 31) (hturns : s.npages < turns) :
    initPageLoops turns ⟨s, none⟩ = .ok () ⟨s.listed, s.listed.phead⟩ ∧
      initPage s = .ok () s.listed := by
  refine ⟨?_, initPage_run (by omega) (by omega)⟩
  have hrun := @initLoops_run { s with kusedMem := kva2pa s.kusedMem } turns (kva2pa s.kusedMem)
    s.firstFrame (by rw [Mm.firstFrame]) hlo hlt hsmall hturns
  unfold initPageLoops
  rw [Act.modify_bind_apply, Act.gets_bind_apply, Act.gets_bind_apply]
  exact hrun

/-- A kernel that ends at the physical address `kused`. -/
theorem firstFrame_eq {kused : Nat} (hk : kva2pa s.kusedMem = kused) (hlt : kused < 2 ^ 63) :
    s.firstFrame = (kused + (pageSize - 1)) / pageSize := by
  unfold Mm.firstFrame
  rw [hk, u64, Nat.mod_eq_of_lt (by unfold pageSize; omega)]
  rfl

/-- THE INITIAL LIST. `init_page` comes to an end with a list that visits low
memory without frame 0 and the trampoline's, then what lies past the kernel, every
frame once and with count nought; every other frame counts one more than before.
There are as many frames as the index, an `int`, can count. -/
theorem init_page_list {kused : Nat} (hk : kva2pa s.kusedMem = kused) (hlow : 0xA0000 ≤ kused)
    (hend : (kused + (pageSize - 1)) / pageSize < s.npages) (hsmall : s.npages ≤ 2 ^ 31) :
    ∃ t, (∀ turns, s.npages < turns → initPageLoops turns ⟨s, none⟩ = .ok () t) ∧
      Chain t.mm.link t.mm.phead (initialFrames s.npages ((kused + (pageSize - 1)) / pageSize)) ∧
      (initialFrames s.npages ((kused + (pageSize - 1)) / pageSize)).Nodup ∧
      ∀ f, f < s.npages → t.mm.count f =
        if f ∈ initialFrames s.npages ((kused + (pageSize - 1)) / pageSize) then 0
        else int32 (s.count f + 1) := by
  have hlt : kused < 2 ^ 63 := by
    unfold pageSize at hend
    omega
  have hfirst := firstFrame_eq hk hlt
  have hlo : 160 ≤ s.firstFrame := by
    rw [hfirst]
    unfold pageSize
    omega
  rw [← hfirst] at hend ⊢
  obtain ⟨hchain, hcount⟩ := @threadAll_spec s.pages s.npages _ hlo
  exact ⟨⟨s.listed, s.listed.phead⟩,
    fun turns hturns => (initPageLoops_run hlo hend hsmall hturns).1, hchain, hchain.nodup, hcount⟩

end Loops

/-- The list of a machine of 16 MB whose kernel ends at 3 MB. -/
theorem init_page_list_boot : ∃ t,
    (∀ turns, 4096 < turns → initPageLoops turns ⟨bootMm, none⟩ = .ok () t) ∧
      Chain t.mm.link t.mm.phead (initialFrames 4096 768) ∧ t.mm.count 8 = 1 := by
  have hk : kva2pa bootMm.kusedMem = 0x300000 := by
    unfold kva2pa u64 bootMm kbase
    rfl
  obtain ⟨t, hrun, hchain, -, hcount⟩ := init_page_list (s := bootMm) hk (by decide) (by decide)
    (by decide)
  refine ⟨t, hrun, hchain, ?_⟩
  rw [hcount 8 (by decide), if_neg (by rw [mem_initialFrames]; decide)]
  rfl

end Myos.Kernel
