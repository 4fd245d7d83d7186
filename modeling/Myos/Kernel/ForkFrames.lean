import Myos.Kernel.Mapping
import Myos.Kernel.Process

/-!
# The frames that a fault and a fork take

The page fault and `sys_fork` are right as long as `alloc_page` finds frames, and
how many that takes can be told before. A fault takes four at most, and a fork
three for each page that it shares and five besides.
-/

namespace Myos.Kernel

open Myos.Lib

/-! ## A fault -/

section Fault

variable {s : Mm} {root : Nat → Option Nat} {kdir p g va f errCode : Nat}

/-- The page, and the tables on the way to it. -/
theorem pageFault_absent_spends (pgdir : Option Nat) (cr2 : Nat) (herr : errCode &&& pfecP = 0) :
    Spends id 4 (pageFault pgdir cr2 errCode) := by
  unfold pageFault
  simp only [if_pos herr]
  exact Spends.bind (k := 3) (Spends.allocPage 1) fun pp =>
    Spends.next (Spends.deref pgdir) fun dir =>
      Spends.bind (k := 0) (Spends.insertPage dir _ pp _) fun _ => Spends.pure ()

theorem Vm.pageFault_cow_spends (h : Vm s root kdir ∅) (hroot : root p = some g)
    (hcr3 : s.cr3 = pageSize * g) (hva : UserVa va)
    (hf : target (leaf s.mem root p va) = some f) (herr : errCode &&& pfecP ≠ 0)
    (herr' : errCode &&& pfecW ≠ 0) :
    s.Spends 4 (pageFault (some (frameVa g)) va errCode s).state := by
  intro l hl hle hlen hst
  cases l with
  | nil => exact absurd hlen (by decide)
  | cons n l =>
    obtain ⟨s₁, heq, h₁⟩ :=
      h.pageFault_detaches hroot hcr3 hva hf herr herr' hl.chain.of_cons.1
    obtain ⟨hnl, hnd⟩ := List.nodup_cons.mp hl.nodup
    obtain ⟨l₁, hl₁⟩ := h₁.vm.tables.list
    -- the frames behind the one that was taken are still free
    have hlen₁ : l.length ≤ l₁.length := by
      refine hl₁.length_le hnd fun k hk => h₁.free ?_ ((hl.mem k).mp (List.mem_cons_of_mem n hk))
      rintro rfl
      exact hnl hk
    have hinsert : Spends id 3 (insertPage (frameVa g) (va / pageSize * pageSize) (some n)
        (pteU ||| pteP ||| pteW) >>= fun _ => pure ()) :=
      Spends.bind (k := 0) (Spends.insertPage _ _ _ _) fun _ => Spends.pure ()
    rw [List.length_cons] at hlen ⊢
    obtain ⟨hns, hle', l', hl', hlen'⟩ := hinsert s₁ l₁ hl₁ h₁.vm.tables.small (by omega)
      (h₁.starved.trans hst)
    rw [heq]
    exact ⟨hns, hle', l', hl', by omega⟩

/-- FAULT: four frames are enough for any fault of the running process. -/
theorem Vm.pageFault_spends (h : Vm s root kdir ∅) (hroot : root p = some g)
    (hcr3 : s.cr3 = pageSize * g) (hva : UserVa va) {w : Bool}
    (hcode : faultCode w (mmu s.mem (pageSize * g) va ⟨true, w⟩) = some errCode) :
    s.Spends 4 (pageFault (some (frameVa g)) va errCode s).state := by
  by_cases herr : errCode &&& pfecP = 0
  · exact pageFault_absent_spends _ _ herr s
  · rw [h.mmu_user hroot hva] at hcode
    cases hf : target (leaf s.mem root p va) with
    | none =>
      rw [hf] at hcode
      cases hcode
      refine absurd ?_ herr
      cases w <;> decide
    | some f =>
      refine h.pageFault_cow_spends hroot hcr3 hva hf herr ?_
      rw [hf] at hcode
      by_cases hper : Access.permits ⟨true, w⟩ (leaf s.mem root p va) = true
      · simp only [hper, if_true] at hcode
        cases hcode
      · cases w with
        | true =>
          simp only [hper] at hcode
          cases hcode
          decide
        | false => exact absurd ((h.permits_user hva hf).mpr fun hw => by cases hw) hper

end Fault

/-! ## A fork -/

/-- The pages of `p` that are mapped, of the `n` from `addr` on. -/
def sharedPages (m : Mem) (root : Nat → Option Nat) (p : Nat) : Nat → Nat → Nat
  | 0, _ => 0
  | n + 1, addr => (if target (leaf m root p addr) = none then 0 else 1) +
      sharedPages m root p n (addr + pageSize)

/-- They are those of the leaves. -/
theorem sharedPages_congr {m m' : Mem} {root root' : Nat → Option Nat} {p n addr : Nat}
    (hlo : utext ≤ addr) (hhi : addr + pageSize * n ≤ ustacktop)
    (h : ∀ va, UserVa va → leaf m root p va = leaf m' root' p va) :
    sharedPages m root p n addr = sharedPages m' root' p n addr := by
  induction n generalizing addr with
  | zero => rfl
  | succ n ih =>
    rw [Nat.mul_succ] at hhi
    have hva : UserVa addr := by
      refine ⟨hlo, ?_⟩
      unfold pageSize at hhi
      omega
    rw [sharedPages, sharedPages, h addr hva,
      ih (Nat.le_add_right_of_le hlo) (by omega)]

theorem sharedPages_zero {m : Mem} {root : Nat → Option Nat} {p n addr : Nat}
    (h : ∀ va, addr ≤ va → va < addr + pageSize * n → target (leaf m root p va) = none) :
    sharedPages m root p n addr = 0 := by
  induction n generalizing addr with
  | zero => rfl
  | succ n ih =>
    have hpos : 0 < pageSize := by decide
    rw [Nat.mul_succ] at h
    rw [sharedPages, if_pos (h addr (Nat.le_refl _) (by omega)), Nat.zero_add]
    exact ih fun va hlo hhi => h va (by omega) (by omega)

section Fork

variable {s s₀ : Mm} {root : Nat → Option Nat} {kdir p q g gc addr : Nat}

/-- RUN: the loop takes three frames for each page that it shares. -/
theorem Vm.SharedTo.spends (h : Vm.SharedTo root kdir p q s₀ s addr) (hpq : p ≠ q)
    (hroot : root p = some g) (hrootq : root q = some gc) (turns : Nat)
    (hpage : addr % pageSize = 0) (hlo : utext ≤ addr) (hhi : addr + pageSize * turns ≤ ustacktop) :
    s.Spends (3 * sharedPages s₀.mem root p turns addr)
      (sharePages (frameVa g) (frameVa gc) turns addr s).state := by
  induction turns generalizing s addr with
  | zero => exact Spends.of_same rfl rfl rfl rfl
  | succ turns ih =>
    have hva : UserVa addr := by
      refine ⟨hlo, ?_⟩
      unfold pageSize at hhi
      omega
    have hnext : (addr + pageSize) % pageSize = 0 := by rw [Nat.add_mod_right, hpage]
    have hlo' : utext ≤ addr + pageSize := Nat.le_add_right_of_le hlo
    have hhi' : addr + pageSize + pageSize * turns ≤ ustacktop := by
      rw [Nat.mul_succ] at hhi
      omega
    have hmapped := h.mapped hpq hva
    cases hf : target (leaf s.mem root p addr) with
    | none =>
      rw [h.turn_absent hroot hva hf, sharedPages, if_pos (hmapped.mp hf), Nat.zero_add]
      exact ih (h.skip hpq hpage hf) hnext hlo' hhi'
    | some f =>
      have hne : target (leaf s₀.mem root p addr) ≠ none := fun hz => by
        rw [hmapped.mpr hz] at hf
        cases hf
      rw [sharedPages, if_neg hne]
      intro l hl hle hlen hst
      obtain ⟨hns, -, l₁, hl₁, hlen₁⟩ := Spends.insertPage (frameVa gc) addr (some f)
        (pteU ||| pteP ||| pteCow) s l hl hle (by omega) hst
      obtain ⟨s₁, s', hrun, hturn, h', hst', hfree⟩ :=
        h.turn hpq hroot hrootq hva hpage hf hns turns
      rw [hrun] at hns hl₁
      -- what is stored besides takes no frame
      obtain ⟨l', hl'⟩ := h'.vm.tables.list
      have hlen' : l₁.length ≤ l'.length :=
        hl'.length_le hl₁.nodup fun k hk => hfree k ((hl₁.mem k).mp hk)
      obtain ⟨hend, hle', l₂, hl₂, hlen₂⟩ := ih h' hnext hlo' hhi' l' hl' h'.vm.tables.small
        (by omega) (hst'.trans hns)
      rw [hturn]
      exact ⟨hend, hle', l₂, hl₂, by omega⟩

theorem allocVm_spends (kpgdir : Nat) : Spends id 1 (allocVm kpgdir) := by
  refine Spends.bind (k := 0) (Spends.allocPage 1) fun o => ?_
  cases o with
  | none => exact Spends.pure _
  | some p =>
    exact Spends.next (Spends.gets _) fun dir =>
      Spends.next (Spends.memcpy dir _ _) fun _ => Spends.pure dir

theorem copyStack_spends (child : Nat) : Spends id 4 (copyStack child) :=
  Spends.bind (n := 1) (k := 3) (Spends.allocPage 1) fun pp =>
    Spends.next (Spends.gets _) fun va => Spends.next (Spends.memcpy va _ _) fun _ =>
      Spends.bind (k := 0) (Spends.insertPage child _ pp _) fun _ => Spends.pure ()

theorem copyFiles_spends (cur p n i : Nat) : Spends KState.mm 0 (copyFiles cur p n i) := fun k => by
  obtain ⟨k', hrun, h⟩ := copyFiles_run cur p n i k
  have hmm : k'.mm = k.mm := h.mm
  rw [hrun]
  show k.mm.Spends 0 k'.mm
  rw [hmm]
  exact Spends.of_same rfl rfl rfl rfl

theorem Spends.onMm {α : Type} {x : Act Mm α} {n : Nat} (h : Spends id n x) :
    Spends KState.mm n (onMm x) :=
  zoom (fun _ => rfl) (fun _ _ => rfl) h

theorem frameVa_ne_zero (n : Nat) : frameVa n ≠ 0 := by
  unfold frameVa kbase
  omega

/-- FORK: a directory, a stack page with its tables, and what sharing takes. -/
theorem forkSpace_spends {k : KState} (hvm : Vm k.mm root kdir ∅) (hk : k.kpgdir = frameVa kdir)
    (hroot : root p = some g) (hdir : (k.procs p).pgdir = frameVa g) (hq : q < maxProc)
    (hrootq : root q = none) :
    k.mm.Spends (5 + 3 * sharedPages k.mm.mem root p (turns utext stackPage) utext)
      (forkSpace p q k).state.mm := by
  have hqp : p ≠ q := by
    rintro rfl
    rw [hrootq] at hroot
    cases hroot
  intro l hl hle hlen hst
  obtain ⟨hns, -, l₁, hl₁, hlen₁⟩ := allocVm_spends (frameVa kdir) k.mm l hl hle (by omega) hst
  obtain ⟨n, s₁, hrun₁, hvm₁, -, -, hleaf₁⟩ := hvm.allocVm_run hq hrootq hns
  rw [hrun₁] at hns hl₁
  have hrootp : Function.update root q (some n) p = some g := by
    rw [Function.update_of_ne hqp, hroot]
  have hrootn : Function.update root q (some n) q = some n := Function.update_self q _ root
  have hset : setProc q (fun r => { r with pgdir := frameVa n }) (KState.setMm s₁ k) =
      .ok () ((KState.setMm s₁ k).setProc q { k.procs q with pgdir := frameVa n }) := rfl
  have hstart : Vm.SharedTo (Function.update root q (some n)) kdir p q s₁ s₁ utext :=
    .start hvm₁ fun va hva => by rw [hleaf₁ q va hva, if_pos rfl]
  have hshare := hstart.spends hqp hrootp hrootn (turns utext stackPage) (by decide)
    (Nat.le_refl _) (by decide)
  have hsame : sharedPages s₁.mem (Function.update root q (some n)) p (turns utext stackPage) utext =
      sharedPages k.mm.mem root p (turns utext stackPage) utext :=
    sharedPages_congr (Nat.le_refl _) (by decide) fun va hva => by
      rw [hleaf₁ p va hva, if_neg hqp]
  rw [hsame] at hshare
  have hrest : ∀ r : Int, Spends KState.mm 4 (if r < 0 then (pure r : Act KState Int) else do
      onMm (copyStack (frameVa n))
      copyFiles p q maxOpenFile 0
      setProc q fun r => { r with status := .runnable }
      Act.gets fun k => ((k.procs q).pid : Int)) := fun r => by
    split
    · exact (Spends.pure r).mono (Nat.zero_le 4)
    · exact Spends.bind (k := 0) (Spends.onMm (copyStack_spends _)) fun _ =>
        Spends.next (copyFiles_spends p q _ 0) fun _ =>
          Spends.next (Spends.modify fun _ => rfl) fun _ => Spends.gets _
  have hall := @Spends.bind_from _ _ _ KState.mm _ _
    (onMm (sharePages (frameVa g) (frameVa n) (turns utext stackPage) utext)) _
    ((KState.setMm s₁ k).setProc q { k.procs q with pgdir := frameVa n })
    (by unfold onMm; rw [Act.zoom_state]; exact hshare) hrest
  obtain ⟨hend, hle', l', hl', hlen'⟩ := hall l₁ hl₁ hvm₁.tables.small (by omega) hns
  unfold forkSpace
  rw [Act.gets_bind_apply, hk, Act.bind_ok (onMm_ok hrun₁), Act.bind_ok hset,
    if_neg (frameVa_ne_zero n), Act.gets_bind_apply, KState.setProc_procs, if_neg hqp,
    KState.setMm_procs, hdir]
  exact ⟨hend, hle', l', hl', by omega⟩

end Fork

end Myos.Kernel
