import Myos.Kernel.File
import Myos.Kernel.Proc

/-!
# Opening and closing

What `sys_open`, `sys_opencons` and `sys_close` do to the descriptors and to
`filetable`. The two that open have one outcome in common (`Opening`): they
always work on descriptor 0, whatever `allocfd` found, because the comparison
in the condition binds tighter than the assignment.
-/

namespace Myos.Kernel

open Myos.Lib

section Loops

variable {k k' : KState} {p n i : Nat}

/-- `allocfd` looks for the first descriptor that is free. -/
theorem allocfdLoop_run (k : KState) (p n i : Nat) : ∃ r, allocfdLoop p n i k = .ok r k ∧
    (0 ≤ r ∧ (∃ j, i ≤ j ∧ j < i + n ∧ (k.procs p).fdtable j = none) ∨
      r < 0 ∧ ∀ j, i ≤ j → j < i + n → (k.procs p).fdtable j ≠ none) := by
  induction n generalizing i with
  | zero => exact ⟨-1, rfl, .inr ⟨by decide, fun j h1 h2 => by omega⟩⟩
  | succ n ih =>
    unfold allocfdLoop
    rw [Act.gets_bind_apply]
    cases hfd : (k.procs p).fdtable i with
    | none => exact ⟨i, rfl, .inl ⟨Int.natCast_nonneg i, i, Nat.le_refl i, by omega, hfd⟩⟩
    | some f =>
      obtain ⟨r, hrun, ⟨hr, j, h1, h2, hj⟩ | ⟨hr, hall⟩⟩ := ih (i + 1)
      · exact ⟨r, hrun, .inl ⟨hr, j, by omega, by omega, hj⟩⟩
      · refine ⟨r, hrun, .inr ⟨hr, fun j h1 h2 => ?_⟩⟩
        by_cases hji : j = i
        · rw [hji, hfd]
          exact Option.some_ne_none f
        · exact hall j (by omega) (by omega)

/-- `allocfile` takes the first entry without references, cleared. -/
theorem allocfileLoop_run (k : KState) (n i : Nat) :
    (∃ f, i ≤ f ∧ f < i + n ∧ (k.filetable f).refcount = 0 ∧
      allocfileLoop n i k = .ok (some f) (k.setFile f {})) ∨
    (∀ f, i ≤ f → f < i + n → (k.filetable f).refcount ≠ 0) ∧
      allocfileLoop n i k = .ok none k := by
  induction n generalizing i with
  | zero => exact .inr ⟨fun f h1 h2 => by omega, rfl⟩
  | succ n ih =>
    unfold allocfileLoop
    rw [Act.gets_bind_apply]
    by_cases hz : (k.filetable i).refcount = 0
    · rw [if_pos hz]
      exact .inl ⟨i, Nat.le_refl i, by omega, hz, rfl⟩
    · rw [if_neg hz]
      rcases ih (i + 1) with ⟨f, h1, h2, hf, hrun⟩ | ⟨hall, hrun⟩
      · exact .inl ⟨f, by omega, by omega, hf, hrun⟩
      · refine .inr ⟨fun f h1 h2 => ?_, hrun⟩
        by_cases hfi : f = i
        · rw [hfi]
          exact hz
        · exact hall f (by omega) (by omega)

end Loops

/-! ## Opening -/

/-- Some descriptor of the process is free. -/
def KState.HasFd (k : KState) (p : Nat) : Prop :=
  ∃ i, i < maxOpenFile ∧ (k.procs p).fdtable i = none

/-- Some entry of `filetable` is free. -/
def KState.HasFile (k : KState) : Prop := ∃ f, f < maxFile ∧ (k.filetable f).refcount = 0

/-- The name is found in the root directory. -/
def KState.Finds (k : KState) (fname : Nat) : Prop :=
  ∃ r inode s, walkPath fname k.fs = .ok (r, some inode) s ∧ 0 ≤ r

/-- How a call that opens comes out, the caller being `p`: an entry is taken
and descriptor 0 set to it; or nothing was free, or the file was not there,
and the references are as they were. -/
inductive Opening (k : KState) (p : Nat) (found : Prop) : Int → KState → Prop where
  | opened {f : Nat} {x : File} {s : Fs} (fd : k.HasFd p) (hf : f < maxFile)
      (free : (k.filetable f).refcount = 0) (there : found) (one : x.refcount = 1) :
      Opening k p found 0
        ({ k.setFile f x with fs := s }.setProc p
          { k.procs p with fdtable := Function.update (k.procs p).fdtable 0 (some f) })
  | noFd (none : ¬ k.HasFd p) : Opening k p found 1 k
  | noFile (fd : k.HasFd p) (none : ¬ k.HasFile) : Opening k p found (-1) k
  | notFound {f : Nat} {x : File} {s : Fs} (fd : k.HasFd p) (hf : f < maxFile)
      (free : (k.filetable f).refcount = 0) (missing : ¬ found) (zero : x.refcount = 0) :
      Opening k p found 1 { k.setFile f x with fs := s }

/-! ### The name -/

section Name

variable {s : Mm} {va n : Nat} {cs : List UInt8}

/-- There is a string to be read. -/
def Mm.Readable (s : Mm) (va : Nat) : Prop := ∃ cs, s.Reads va cs

theorem Mm.kpa_lt {pa : Nat} (h : s.kpa va = some pa) : va < 2 ^ 64 := by
  by_contra hge
  have hmmu : mmu s.mem s.cr3 va ⟨false, false⟩ = .notPresent := by
    unfold mmu canonical
    rw [if_pos]
    simp only [Bool.not_eq_true', Bool.or_eq_false_iff, decide_eq_false_iff_not,
      Bool.and_eq_false_iff]
    omega
  rw [Mm.kpa, if_neg (by omega), hmmu] at h
  cases h

theorem Mm.Has.kpa {v : Nat} (h : s.Has n va v) : ∃ pa, s.kpa va = some pa := by
  unfold Mm.Has load at h
  cases hpa : s.kpa va with
  | some pa => exact ⟨pa, rfl⟩
  | none =>
    rw [hpa] at h
    cases h

/-- A string ends below the end of the address space. -/
theorem Mm.Reads.lt (h : s.Reads va cs) : va + cs.length < 2 ^ 64 := by
  induction cs generalizing va with
  | nil =>
    obtain ⟨pa, hpa⟩ := Mm.Has.kpa h
    exact Mm.kpa_lt hpa
  | cons c cs ih =>
    obtain ⟨-, -, hrest⟩ := h
    have hlt := ih hrest
    rw [List.length_cons]
    omega

/-- The name is read to its end, or the code stops in it. -/
theorem printStrLoop_run (s : Mm) (n va : Nat) :
    (∃ cs, s.Reads va cs ∧ cs.length < n ∧ printStrLoop n va s = .ok () s) ∨
      (∀ cs, s.Reads va cs → n ≤ cs.length) ∧ printStrLoop n va s = .fault s := by
  induction n generalizing va with
  | zero => exact .inr ⟨fun cs _ => Nat.zero_le _, rfl⟩
  | succ n ih =>
    unfold printStrLoop
    cases hpa : s.kpa va with
    | none =>
      have hload : load 1 va s = .fault s := by
        unfold load
        rw [hpa]
      refine .inr ⟨fun cs hcs => ?_, Act.bind_fault hload⟩
      have hfirst : ∃ v, s.Has 1 va v := by
        cases cs with
        | nil => exact ⟨0, hcs⟩
        | cons c cs => exact ⟨_, hcs.1⟩
      obtain ⟨v, hv⟩ := hfirst
      cases hload.symm.trans hv
    | some pa =>
      have hload : load 1 va s = .ok (s.mem pa).toNat s := by
        rw [load_ok hpa]
        simp [Mem.rd]
      rw [Act.bind_ok hload]
      by_cases hz : s.mem pa = 0
      · have hnil : s.Has 1 va 0 := by
          rw [hz] at hload
          exact hload
        rw [hz, if_neg (by decide)]
        exact .inl ⟨[], hnil, Nat.succ_pos n, rfl⟩
      · have hne : (s.mem pa).toNat ≠ 0 := fun h => hz (UInt8.toNat_inj.mp h)
        rw [if_pos hne]
        rcases ih (va + 1) with ⟨cs, hcs, hlen, hrun⟩ | ⟨hall, hrun⟩
        · exact .inl ⟨s.mem pa :: cs, ⟨hload, hz, hcs⟩, Nat.succ_lt_succ hlen, hrun⟩
        · refine .inr ⟨fun cs hcs => ?_, hrun⟩
          cases cs with
          | nil =>
            have hsame := hload.symm.trans hcs
            injection hsame with hzero
            exact absurd hzero hne
          | cons c cs => exact Nat.succ_le_succ (hall cs hcs.2.2)

/-- PRINT: reading the name changes nothing, and gets through just if it is there. -/
theorem printStr_run (s : Mm) (va : Nat) :
    s.Readable va ∧ printStr va s = .ok () s ∨ ¬ s.Readable va ∧ printStr va s = .fault s := by
  rcases printStrLoop_run s (2 ^ 64) va with ⟨cs, hcs, -, hrun⟩ | ⟨hall, hrun⟩
  · exact .inl ⟨⟨cs, hcs⟩, hrun⟩
  · refine .inr ⟨fun ⟨cs, hcs⟩ => ?_, hrun⟩
    have hlt := hcs.lt
    have hge := hall cs hcs
    omega

end Name

section Opening

variable {k k' : KState} {p fname : Nat} {r : Int} {found : Prop}

/-- The kernel goes on after it has printed a name that is there. -/
theorem onMm_printStr (h : k.mm.Readable fname) : onMm (printStr fname) k = .ok () k := by
  rcases printStr_run k.mm fname with ⟨-, hrun⟩ | ⟨hnot, -⟩
  · rw [onMm_ok hrun, KState.setMm_self]
  · exact absurd h hnot

theorem onMm_printStr_eq_ok (h : onMm (printStr fname) k = .ok () k') :
    k.mm.Readable fname ∧ k' = k := by
  rcases printStr_run k.mm fname with ⟨hread, -⟩ | ⟨-, hrun⟩
  · rw [onMm_printStr hread] at h
    cases h
    exact ⟨hread, rfl⟩
  · unfold onMm at h
    rw [Act.zoom_fault hrun] at h
    cases h

theorem Opening.opened_eq {f : Nat} {x : File} {s : Fs} (fd : k.HasFd p) (hf : f < maxFile)
    (free : (k.filetable f).refcount = 0) (there : found) (one : x.refcount = 1)
    (hk : Res.ok 0 ({ k.setFile f x with fs := s }.setProc p
      { k.procs p with fdtable := Function.update (k.procs p).fdtable 0 (some f) }) =
        Res.ok r k') : Opening k p found r k' := by
  cases hk
  exact .opened fd hf free there one

theorem currentProc_ok (hcur : k.current = some p) : currentProc k = .ok p k := by
  unfold currentProc
  rw [Act.gets_bind_apply, hcur]
  rfl

theorem allocfd_run (hcur : k.current = some p) :
    ∃ r, allocfd k = .ok r k ∧ (0 ≤ r ∧ k.HasFd p ∨ r < 0 ∧ ¬ k.HasFd p) := by
  obtain ⟨r, hrun, hr⟩ := allocfdLoop_run k p maxOpenFile 0
  refine ⟨r, ?_, ?_⟩
  · unfold allocfd
    rw [Act.bind_ok (currentProc_ok hcur), hrun]
  · rcases hr with ⟨hr, j, -, hj, hnone⟩ | ⟨hr, hall⟩
    · exact .inl ⟨hr, j, by omega, hnone⟩
    · exact .inr ⟨hr, fun ⟨j, hj, hnone⟩ => hall j (Nat.zero_le j) (by omega) hnone⟩

theorem allocfile_run (k : KState) :
    (∃ f, f < maxFile ∧ (k.filetable f).refcount = 0 ∧
      allocfile k = .ok (some f) (k.setFile f {})) ∨
    ¬ k.HasFile ∧ allocfile k = .ok none k := by
  rcases allocfileLoop_run k maxFile 0 with ⟨f, -, hf, hz, hrun⟩ | ⟨hall, hrun⟩
  · exact .inl ⟨f, by omega, hz, hrun⟩
  · exact .inr ⟨fun ⟨f, hf, hz⟩ => hall f (Nat.zero_le f) (by omega) hz, hrun⟩

/-- `sys_opencons`: there is nothing to be found. -/
theorem sysOpencons_run (hcur : k.current = some p) :
    ∃ r k', sysOpencons k = .ok r k' ∧ Opening k p True r k' := by
  obtain ⟨fd, hfd, hcase⟩ := allocfd_run hcur
  unfold sysOpencons
  rw [Act.bind_ok hfd]
  rcases hcase with ⟨hpos, hhas⟩ | ⟨hneg, hnone⟩
  · simp only [if_neg (Int.not_lt.mpr hpos), ne_eq, not_true_eq_false, if_false]
    rcases allocfile_run k with ⟨f, hf, hz, hfile⟩ | ⟨hno, hfile⟩
    · refine ⟨0, _, ?_, .opened (x := { refcount := 1, type := .cons }) (s := k.fs) hhas hf hz
        trivial rfl⟩
      have hcur' : ∀ x, ((k.setFile f {}).setFile f x).current = some p := fun _ => hcur
      rw [Act.bind_ok hfile]
      show (setFile f _ >>= _) (k.setFile f {}) = _
      rw [Act.bind_ok (setFile_apply _ _ _), Act.bind_ok (currentProc_ok (hcur' _))]
      simp only [setFd, KState.setFile, setProc, KState.setProc, Function.update_idem,
        Function.update_self, Act.modify_bind_apply]
      rfl
    · refine ⟨-1, k, ?_, .noFile hhas hno⟩
      rw [Act.bind_ok hfile]
      rfl
  · refine ⟨1, k, ?_, .noFd hnone⟩
    simp only [if_pos hneg]
    rfl

/-- What `file_open` comes to, seen from the kernel. -/
theorem onFile_fileOpen (fname : Nat) {f : Nat} : onFile f (fileOpen fname) k =
    match walkPath fname k.fs with
    | .fault s => .fault { k.setFile f (k.filetable f) with fs := s }
    | .ok (r, o) s => if r < 0 then .ok r { k.setFile f (k.filetable f) with fs := s } else
      match o with
      | none => .fault { k.setFile f (k.filetable f) with fs := s }
      | some inode =>
        .ok 0 { k.setFile f { k.filetable f with inode := inode } with fs := s } := by
  unfold onFile fileOpen Act.zoom
  cases hw : walkPath fname k.fs with
  | fault s =>
    have hx : fileFs (walkPath fname) ⟨k.fs, k.filetable f⟩ = .fault ⟨s, k.filetable f⟩ :=
      Act.zoom_fault hw
    rw [Act.bind_fault hx]
    rfl
  | ok a s =>
    obtain ⟨r, o⟩ := a
    have hx : fileFs (walkPath fname) ⟨k.fs, k.filetable f⟩ = .ok (r, o) ⟨s, k.filetable f⟩ :=
      Act.zoom_ok hw
    rw [Act.bind_ok hx]
    by_cases hr : r < 0
    · simp only [if_pos hr]
      rfl
    · simp only [if_neg hr]
      cases o with
      | none => rfl
      | some inode => rfl

/-- `sys_open`, if it returns. -/
theorem sysOpen_run (hcur : k.current = some p) (hrun : sysOpen fname k = .ok r k') :
    k.mm.Readable fname ∧ Opening k p (k.Finds fname) r k' := by
  obtain ⟨fd, hfd, hcase⟩ := allocfd_run hcur
  unfold sysOpen at hrun
  obtain ⟨u, k₀, hprint, hbody⟩ := Act.bind_eq_ok.mp hrun
  obtain ⟨hread, hk⟩ := onMm_printStr_eq_ok hprint
  refine ⟨hread, ?_⟩
  rw [hk, Act.bind_ok hfd] at hbody
  rcases hcase with ⟨hpos, hhas⟩ | ⟨hneg, hnone⟩
  · simp only [if_neg (Int.not_lt.mpr hpos), ne_eq, not_true_eq_false, if_false] at hbody
    rcases allocfile_run k with ⟨f, hf, hz, hfile⟩ | ⟨hno, hfile⟩
    · rw [Act.bind_ok hfile] at hbody
      obtain ⟨r', k₁, hopen, hrest⟩ := Act.bind_eq_ok.mp hbody
      rw [onFile_fileOpen] at hopen
      simp only [KState.setFile_self, KState.setFile_setFile] at hopen
      cases hw : walkPath fname (k.setFile f {}).fs with
      | fault s =>
        rw [hw] at hopen
        cases hopen
      | ok a s =>
        obtain ⟨rw_, o⟩ := a
        rw [hw] at hopen
        by_cases hneg : rw_ < 0
        · simp only [if_pos hneg, Res.ok.injEq] at hopen
          obtain ⟨rfl, rfl⟩ := hopen
          simp only [if_pos hneg, one_ne_zero, not_false_eq_true, if_true] at hrest
          cases hrest
          refine .notFound (x := {}) hhas hf hz ?_ rfl
          rintro ⟨r₁, inode, s₁, hw₁, hr₁⟩
          cases hw.symm.trans hw₁
          omega
        · simp only [if_neg hneg] at hopen
          cases o with
          | none => cases hopen
          | some inode =>
            simp only [Res.ok.injEq] at hopen
            obtain ⟨rfl, rfl⟩ := hopen
            have hfound : k.Finds fname := ⟨rw_, inode, s, hw, Int.not_lt.mp hneg⟩
            simp only [Int.lt_irrefl, if_false, not_true_eq_false] at hrest
            rw [Act.bind_ok (setFile_apply _ _ _)] at hrest
            refine Opening.opened_eq (s := s)
              (x := { refcount := 1, inode := inode, type := .file }) hhas hf hz hfound rfl ?_
            rw [← hrest]
            simp only [KState.setFile, Function.update_self, Function.update_idem]
            rw [Act.bind_ok (currentProc_ok (by exact hcur))]
            simp only [setFd, setProc, KState.setProc, Act.modify_bind_apply]
            rfl
    · rw [Act.bind_ok hfile] at hbody
      cases hbody
      exact .noFile hhas hno
  · simp only [if_pos hneg] at hbody
    cases hbody
    exact .noFd hnone

/-- `sys_open` returns if the name is there, unless there is an entry for the file and it
cannot be found. -/
theorem sysOpen_returns (hcur : k.current = some p) (hread : k.mm.Readable fname)
    (h : k.HasFd p → k.HasFile → k.Finds fname) : ∃ r k', sysOpen fname k = .ok r k' := by
  obtain ⟨fd, hfd, hcase⟩ := allocfd_run hcur
  unfold sysOpen
  rw [Act.bind_ok (onMm_printStr hread), Act.bind_ok hfd]
  rcases hcase with ⟨hpos, hhas⟩ | ⟨hneg, -⟩
  · simp only [if_neg (Int.not_lt.mpr hpos), ne_eq, not_true_eq_false, if_false]
    rcases allocfile_run k with ⟨f, hf, hz, hfile⟩ | ⟨-, hfile⟩
    · obtain ⟨r, inode, s, hw, hr⟩ := h hhas ⟨f, hf, hz⟩
      have hopen := onFile_fileOpen fname (k := k.setFile f {}) (f := f)
      rw [show walkPath fname (k.setFile f {}).fs = _ from hw] at hopen
      simp only [if_neg (Int.not_lt.mpr hr)] at hopen
      rw [Act.bind_ok hfile]
      dsimp only
      rw [Act.bind_ok hopen]
      simp only [Int.lt_irrefl, if_false, not_true_eq_false]
      rw [Act.bind_ok (setFile_apply _ _ _), Act.bind_ok (currentProc_ok (by exact hcur))]
      exact ⟨_, _, rfl⟩
    · rw [Act.bind_ok hfile]
      exact ⟨_, _, rfl⟩
  · simp only [if_pos hneg]
    exact ⟨_, _, rfl⟩

end Opening

/-! ## What the allocation of a descriptor should come to -/

/-- A call that opens took a free descriptor and a free entry of `filetable`,
or there was none, or no such file, and it took nothing. -/
def Allocates (k : KState) (p : Nat) (found : Prop) (r : Int) (k' : KState) : Prop :=
  (∃ fd f : Nat, r = fd ∧ fd < maxOpenFile ∧ (k.procs p).fdtable fd = none ∧
    f < maxFile ∧ (k.filetable f).refcount = 0 ∧ (k'.filetable f).refcount = 1 ∧
    (∀ g, g ≠ f → (k'.filetable g).refcount = (k.filetable g).refcount) ∧
    ∀ q i, (k'.procs q).fdtable i =
      if q = p ∧ i = fd then some f else (k.procs q).fdtable i) ∨
  (¬ k.HasFd p ∨ ¬ k.HasFile ∨ ¬ found) ∧ r < 0 ∧
    (∀ q i, (k'.procs q).fdtable i = (k.procs q).fdtable i) ∧
    ∀ f, (k'.filetable f).refcount = (k.filetable f).refcount

/-- The outcomes in which that is so. -/
theorem Opening.allocates {k k' : KState} {p : Nat} {found : Prop} {r : Int}
    (h : Opening k p found r k') : Allocates k p found r k' ↔
      k.HasFd p ∧ (k.HasFile → (k.procs p).fdtable 0 = none ∧ found) := by
  cases h with
  | @opened f x s fd hf free there one =>
    refine ⟨fun hall => ⟨fd, fun _ => ⟨?_, there⟩⟩, fun hcond => .inl ?_⟩
    · rcases hall with ⟨fd', f', hr, -, hnone, -⟩ | ⟨-, hr, -⟩
      · rw [Int.natCast_eq_zero.mp hr.symm] at hnone
        exact hnone
      · exact absurd hr (by decide)
    · refine ⟨0, f, rfl, by decide, (hcond.2 ⟨f, hf, free⟩).1, hf, free, ?_, fun g hg => ?_,
        fun q i => ?_⟩
      · rw [KState.setProc_filetable, KState.setFile_self, one]
      · rw [KState.setProc_filetable, KState.setFile_filetable, if_neg hg]
      · rw [KState.setProc_procs]
        by_cases hq : q = p
        · subst hq
          simp only [if_true, Function.update_apply, true_and]
        · rw [if_neg hq, if_neg fun hk => hq hk.1]
          rfl
  | noFd none =>
    refine ⟨fun hall => ?_, fun hcond => absurd hcond.1 none⟩
    rcases hall with ⟨fd, -, -, hlt, hnone, -⟩ | ⟨-, hr, -⟩
    · exact absurd ⟨fd, hlt, hnone⟩ none
    · exact absurd hr (by decide)
  | noFile fd none =>
    exact ⟨fun _ => ⟨fd, fun hfile => absurd hfile none⟩,
      fun _ => .inr ⟨.inr (.inl none), by decide, fun _ _ => rfl, fun _ => rfl⟩⟩
  | @notFound f x s fd hf free missing zero =>
    refine ⟨fun hall => ?_, fun hcond => absurd (hcond.2 ⟨f, hf, free⟩).2 missing⟩
    rcases hall with ⟨fd', f', -, -, hnone, -, -, -, -, hfds⟩ | ⟨-, hr, -⟩
    · have := hfds p fd'
      rw [if_pos ⟨rfl, rfl⟩] at this
      exact absurd (this.symm.trans hnone) (Option.some_ne_none f')
    · exact absurd hr (by decide)

/-- DESCRIPTOR ALLOCATION: exactly when `sys_open` and `sys_opencons` allocate
as they should. A name that is not mapped stops `sys_open` before it does anything. -/
theorem descriptor_allocation {k : KState} {p : Nat} (hcur : k.current = some p) (fname : Nat) :
    ((∃ r k', sysOpen fname k = .ok r k' ∧ Allocates k p (k.Finds fname) r k') ↔
      k.mm.Readable fname ∧ k.HasFd p ∧
        (k.HasFile → (k.procs p).fdtable 0 = none ∧ k.Finds fname)) ∧
    ((∃ r k', sysOpencons k = .ok r k' ∧ Allocates k p True r k') ↔
      k.HasFd p ∧ (k.HasFile → (k.procs p).fdtable 0 = none)) := by
  constructor
  · constructor
    · rintro ⟨r, k', hrun, hall⟩
      obtain ⟨hread, hopening⟩ := sysOpen_run hcur hrun
      exact ⟨hread, hopening.allocates.mp hall⟩
    · rintro ⟨hread, hcond⟩
      obtain ⟨r, k', hrun⟩ := sysOpen_returns hcur hread fun _ hfile => (hcond.2 hfile).2
      exact ⟨r, k', hrun, (sysOpen_run hcur hrun).2.allocates.mpr hcond⟩
  · obtain ⟨r, k', hrun, hopening⟩ := sysOpencons_run hcur
    constructor
    · rintro ⟨r₁, k₁, hrun₁, hall⟩
      cases hrun.symm.trans hrun₁
      exact ⟨(hopening.allocates.mp hall).1, fun hfile => ((hopening.allocates.mp hall).2 hfile).1⟩
    · rintro ⟨hfd, hnone⟩
      exact ⟨r, k', hrun, hopening.allocates.mpr ⟨hfd, fun hfile => ⟨hnone hfile, trivial⟩⟩⟩

/-! ## One descriptor open -/

/-- Process 0 runs, and has the console open. -/
def oneOpen : KState :=
  { KState.zero with
    procs := fun p => if p = 0 then
      { status := .runnable, fdtable := fun i => if i = 0 then some 0 else none } else {}
    current := some 0
    filetable := fun f => if f = 0 then { refcount := 1, type := .cons } else {} }

/-- The descriptor that is open is taken for the second one. -/
theorem descriptor_allocation_open : ¬ ∃ r k', sysOpencons oneOpen = .ok r k' ∧
    Allocates oneOpen 0 True r k' := by
  rintro ⟨r, k', hrun, hall⟩
  obtain ⟨r₁, k₁, hrun₁, hopening⟩ := sysOpencons_run (k := oneOpen) (p := 0) rfl
  cases hrun.symm.trans hrun₁
  have hnone := ((hopening.allocates.mp hall).2 ⟨1, by decide, rfl⟩).1
  cases hnone

/-- A process without descriptors. -/
theorem descriptor_allocation_zero :
    (∃ r k', sysOpencons { KState.zero with current := some 0 } = .ok r k' ∧
      Allocates { KState.zero with current := some 0 } 0 True r k') :=
  (descriptor_allocation (k := { KState.zero with current := some 0 }) rfl 0).2.mpr
    ⟨⟨0, by decide, rfl⟩, fun _ => rfl⟩

end Myos.Kernel
