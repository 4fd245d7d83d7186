import Myos.Kernel.Descriptors

/-!
# Descriptors that are not open

`sys_read`, `sys_write` and `sys_lseek` on any `int`. `sys_close` looks at the
range and at the pointer before it follows it; of these three `sys_lseek` looks
at the pointer only, and the other two at neither. And `sys_lseek` prints the
size of the file whatever the descriptor is open for: a console has no inode.

That a call follows a pointer to no other `struct file` and does not use the
inode is said by what it ignores (`Act.Ignores`): the entry, or the inode, may
be changed before the call as well as after it. That it does not index
`fdtable` out of range is said in the same way: what stands beside the table
(`Stray`) may be anything.
-/

namespace Myos.Kernel

open Myos.Lib

/-! ## The calls -/

/-- The system calls with a descriptor, and their other arguments. -/
inductive FdCall where
  | read (buf count : Nat)
  | write (buf count : Nat)
  | lseek (offset : Int)

def FdCall.run (w : Stray) (fd : Int) : FdCall → Act KState Int
  | .read buf count => sysRead w fd buf count
  | .write buf count => sysWrite w fd buf count
  | .lseek offset => sysLseek w fd offset

/-- The descriptor is in `fdtable`, and open. -/
def KState.IsOpen (k : KState) (p : Nat) (fd : Int) (f : Nat) : Prop :=
  0 ≤ fd ∧ fd < maxOpenFile ∧ (k.procs p).fdtable fd.toNat = some f

/-- `filetable` changed, and nothing else. -/
def KState.withFiles (F : (Nat → File) → Nat → File) (k : KState) : KState :=
  { k with filetable := F k.filetable }

/-- Another entry of `filetable`. -/
def KState.withFile (g : Nat) (y : File) : KState → KState :=
  KState.withFiles fun t => Function.update t g y

/-- Another inode in an entry of `filetable`. -/
def KState.withInode (f i : Nat) : KState → KState :=
  KState.withFiles fun t => Function.update t f { t f with inode := i }

/-- What a call of the process `p` should come to: it reads nothing beside
`fdtable`; a descriptor that is not open is refused and nothing changes;
otherwise only the entry it is open for is used, and its inode only if it is a
file. -/
structure Checks (w : Stray) (k : KState) (p : Nat) (fd : Int) (x : FdCall) : Prop where
  index : ∀ w', x.run w' fd k = x.run w fd k
  refuses : (¬ ∃ f, k.IsOpen p fd f) → ∃ r, r < 0 ∧ x.run w fd k = .ok r k
  others : ∀ {f}, k.IsOpen p fd f → ∀ g y, g ≠ f →
    x.run w fd (k.withFile g y) = (x.run w fd k).map (KState.withFile g y)
  inode : ∀ {f}, k.IsOpen p fd f → (k.filetable f).type ≠ .file → ∀ i,
    x.run w fd (k.withInode f i) = (x.run w fd k).map (KState.withInode f i)

/-- What of that the caller has to see to. -/
def FdCall.Guarded (k : KState) (p : Nat) (fd : Int) : FdCall → Prop
  | .read _ _ => ∃ f, k.IsOpen p fd f
  | .write _ _ => ∃ f, k.IsOpen p fd f
  | .lseek _ => 0 ≤ fd ∧ fd < maxOpenFile ∧
      ∀ f, (k.procs p).fdtable fd.toNat = some f → (k.filetable f).type = .file

/-! ## A descriptor that is open -/

section Entry

variable {w : Stray} {k : KState} {p f g : Nat} {fd : Int}

theorem fdFile_ok (hcur : k.current = some p) (fd : Int) :
    fdFile fd k = .ok ((k.procs p).fdtable fd.toNat) k := by
  unfold fdFile
  rw [Act.bind_ok (currentProc_ok hcur)]
  rfl

/-- What a call does with the entry its descriptor is open for. -/
def FdCall.onEntry (f : Nat) : FdCall → Act KState Int
  | .read buf count => do
    let offset ← Act.gets fun k => (k.filetable f).offset
    match ← Act.gets fun k => (k.filetable f).type with
    | .file => onFile f (fileRead buf count offset)
    | .cons => consRead buf count
    | .unknown => return -1
  | .write buf count => do
    match ← Act.gets fun k => (k.filetable f).type with
    | .file => onFile f (fileWrite buf count)
    | .cons => consWrite buf count
    | .unknown => return -1
  | .lseek offset => do
    let inode ← Act.gets fun k => (k.filetable f).inode
    let _ ← onMm (load 4 (inode + diSizeOff))
    setFile f fun x => { x with offset := offset }
    return offset

/-- What a call does with a word of `fdtable`. -/
def FdCall.onWord (fd : Int) : FdCall → Act KState Int
  | .read buf count => do
    let f ← Act.deref (← fdFile fd)
    FdCall.onEntry f (.read buf count)
  | .write buf count => do
    let f ← Act.deref (← fdFile fd)
    FdCall.onEntry f (.write buf count)
  | .lseek offset => do
    match ← fdFile fd with
    | none => return -1
    | some f => FdCall.onEntry f (.lseek offset)

/-- What a call does with the word beside `fdtable` that its descriptor names. -/
def FdCall.stray (w : Stray) (fd : Int) : FdCall → Act KState Int
  | .read buf count => w.read fd buf count
  | .write buf count => w.write fd buf count
  | .lseek offset => w.lseek fd offset

theorem FdCall.run_inside (h : 0 ≤ fd ∧ fd < maxOpenFile) (x : FdCall) :
    x.run w fd = x.onWord fd := by
  cases x with
  | read buf count => exact if_pos h
  | write buf count => exact if_pos h
  | lseek offset => exact if_pos h

theorem FdCall.run_beside (h : ¬ (0 ≤ fd ∧ fd < maxOpenFile)) (x : FdCall) :
    x.run w fd = x.stray w fd := by
  cases x with
  | read buf count => exact if_neg h
  | write buf count => exact if_neg h
  | lseek offset => exact if_neg h

/-- INDEX: a call leaves alone what stands beside the table just if its descriptor is
in the table. -/
theorem FdCall.index_iff (k : KState) (w : Stray) (fd : Int) (x : FdCall) :
    (∀ w', x.run w' fd k = x.run w fd k) ↔ 0 ≤ fd ∧ fd < maxOpenFile := by
  constructor
  · intro h
    by_contra hout
    -- two words that come to different things
    have hstop := h ⟨fun _ _ _ => Act.stop, fun _ _ _ => Act.stop, fun _ _ => Act.stop⟩
    have hgo := h ⟨fun _ _ _ => return 0, fun _ _ _ => return 0, fun _ _ => return 0⟩
    rw [run_beside hout] at hstop hgo
    have hsame := hstop.trans hgo.symm
    cases x with
    | read buf count => cases hsame
    | write buf count => cases hsame
    | lseek offset => cases hsame
  · intro hin w'
    rw [run_inside hin, run_inside hin]

theorem FdCall.run_open (hcur : k.current = some p) (h : k.IsOpen p fd f) (x : FdCall) :
    x.run w fd k = x.onEntry f k := by
  obtain ⟨h0, h1, hfd⟩ := h
  have hfile := fdFile_ok hcur fd
  rw [hfd] at hfile
  rw [run_inside ⟨h0, h1⟩]
  cases x with
  | read buf count =>
    show (fdFile fd >>= _) k = _
    rw [Act.bind_ok hfile, Act.deref_bind_apply]
  | write buf count =>
    show (fdFile fd >>= _) k = _
    rw [Act.bind_ok hfile, Act.deref_bind_apply]
  | lseek offset =>
    show (fdFile fd >>= _) k = _
    rw [Act.bind_ok hfile]

/-- The console is read without a look at `filetable`. -/
theorem consRead_ignores (F : (Nat → File) → Nat → File) (buf count : Nat) :
    Act.Ignores (KState.withFiles F) (consRead buf count) := by
  have hloop : ∀ n i b, Act.Ignores (KState.withFiles F) (consReadLoop n i b) := by
    intro n
    induction n with
    | zero => exact fun i b => .pure _
    | succ n ih =>
      intro i b
      unfold consReadLoop
      refine .bind (fun k => rfl) fun ch => ?_
      split
      · exact .pure _
      · exact .bind (.zoom _ (fun _ => rfl) fun _ _ => rfl) fun _ => ih (i + 1) (b + 1)
  exact hloop count 0 buf

/-- And so it is written. -/
theorem consWrite_ignores (F : (Nat → File) → Nat → File) (buf count : Nat) :
    Act.Ignores (KState.withFiles F) (consWrite buf count) := by
  have hloop : ∀ n i b, Act.Ignores (KState.withFiles F) (consWriteLoop n i b) := by
    intro n
    induction n with
    | zero => exact fun i b => .pure _
    | succ n ih =>
      intro i b
      unfold consWriteLoop
      exact .bind (.zoom _ (fun _ => rfl) fun _ _ => rfl) fun _ => ih (i + 1) (b + 1)
  exact hloop count 0 buf

section Other

variable {y : File} (hg : g ≠ f)

include hg

theorem withFile_entry (k : KState) : (k.withFile g y).filetable f = k.filetable f := by
  show Function.update k.filetable g y f = _
  rw [Function.update_of_ne hg.symm]

/-- A file is read and written through its own entry. -/
theorem onFile_ignores {α : Type} (x : Act FileSt α) :
    Act.Ignores (KState.withFile g y) (onFile f x) := by
  refine .zoom x (fun k => ?_) fun s k => ?_
  · show (⟨k.fs, (k.withFile g y).filetable f⟩ : FileSt) = _
    rw [withFile_entry hg]
  · have hcomm := Function.update_comm hg y s.file k.filetable
    exact congrArg (fun t => ({ k with fs := s.fs, filetable := t } : KState)) hcomm

/-- OTHERS: a call uses no entry but its own. -/
theorem FdCall.onEntry_ignores (x : FdCall) :
    Act.Ignores (KState.withFile g y) (x.onEntry f) := by
  have htype : Act.Ignores (KState.withFile g y)
      (Act.gets fun k => (k.filetable f).type) := .gets fun k => by rw [withFile_entry hg]
  cases x with
  | read buf count =>
    refine .bind (.gets fun k => by rw [withFile_entry hg]) fun offset => .bind htype fun t => ?_
    cases t with
    | file => exact onFile_ignores hg _
    | cons => exact consRead_ignores _ buf count
    | unknown => exact .pure _
  | write buf count =>
    refine .bind htype fun t => ?_
    cases t with
    | file => exact onFile_ignores hg _
    | cons => exact consWrite_ignores _ buf count
    | unknown => exact .pure _
  | lseek offset =>
    refine .bind (.gets fun k => by rw [withFile_entry hg]) fun inode =>
      .bind (.zoom _ (fun _ => rfl) fun _ _ => rfl) fun _ => .bind (fun k => ?_) fun _ => .pure _
    rw [setFile_apply, setFile_apply, withFile_entry hg]
    have hcomm := Function.update_comm hg y { k.filetable f with offset := offset } k.filetable
    exact congrArg (fun t => Res.ok () ({ k with filetable := t } : KState)) hcomm

end Other

theorem withInode_entry (k : KState) (f i : Nat) :
    (k.withInode f i).filetable f = { k.filetable f with inode := i } := by
  show Function.update k.filetable f { k.filetable f with inode := i } f = _
  rw [Function.update_self]

/-- INODE: a console, or what is not known, is read and written without it. -/
theorem FdCall.onEntry_inode {x : FdCall} (hx : ∀ offset, x ≠ .lseek offset)
    (htype : (k.filetable f).type ≠ .file) (i : Nat) :
    x.onEntry f (k.withInode f i) = (x.onEntry f k).map (KState.withInode f i) := by
  have hself := withInode_entry k f i
  cases x with
  | read buf count =>
    show (Act.gets _ >>= _) (k.withInode f i) = ((Act.gets _ >>= _) k).map _
    rw [Act.gets_bind_apply, Act.gets_bind_apply, Act.gets_bind_apply, Act.gets_bind_apply, hself]
    dsimp only
    cases ht : (k.filetable f).type with
    | file => exact absurd ht htype
    | cons => exact consRead_ignores _ buf count k
    | unknown => rfl
  | write buf count =>
    show (Act.gets _ >>= _) (k.withInode f i) = ((Act.gets _ >>= _) k).map _
    rw [Act.gets_bind_apply, Act.gets_bind_apply, hself]
    dsimp only
    cases ht : (k.filetable f).type with
    | file => exact absurd ht htype
    | cons => exact consWrite_ignores _ buf count k
    | unknown => rfl
  | lseek offset => exact absurd rfl (hx offset)

/-- LSEEK: the inode is used whatever the descriptor is open for: one that is
nowhere stops the call, and one that is mapped does not. -/
theorem FdCall.lseek_inode (k : KState) (f : Nat) (offset : Int) : ¬ ∀ i,
    (FdCall.lseek offset).onEntry f (k.withInode f i) =
      ((FdCall.lseek offset).onEntry f k).map (KState.withInode f i) := by
  intro h
  have hinode : ∀ i, ((k.withInode f i).filetable f).inode = i := fun i =>
    congrArg File.inode (withInode_entry k f i)
  -- the end of the canonical addresses, and the start of the direct map
  have hhole : (k.withInode f (2 ^ 47)).mm.kpa (2 ^ 47 + diSizeOff) = none := by
    unfold Mm.kpa mmu canonical diSizeOff kbase
    rw [if_neg (by decide)]
    rfl
  have hmap : (k.withInode f kbase).mm.kpa (kbase + diSizeOff) = some diSizeOff :=
    Mm.kpa_direct (by decide)
  have hstop : ∃ k', (FdCall.lseek offset).onEntry f (k.withInode f (2 ^ 47)) = .fault k' := by
    refine ⟨KState.setMm (k.withInode f (2 ^ 47)).mm (k.withInode f (2 ^ 47)), ?_⟩
    show (Act.gets _ >>= _) _ = _
    rw [Act.gets_bind_apply, hinode]
    exact Act.bind_fault (Act.zoom_fault (by unfold load; rw [hhole]))
  have hret : ∃ r k', (FdCall.lseek offset).onEntry f (k.withInode f kbase) = .ok r k' := by
    refine ⟨offset, (k.withInode f kbase).setFile f
      { (k.withInode f kbase).filetable f with offset := offset }, ?_⟩
    show (Act.gets _ >>= _) _ = _
    rw [Act.gets_bind_apply, hinode, Act.bind_ok (onMm_ok (load_ok hmap))]
    rfl
  obtain ⟨k₁, h₁⟩ := hstop
  obtain ⟨r, k₂, h₂⟩ := hret
  rw [h] at h₁ h₂
  cases hx : (FdCall.lseek offset).onEntry f k with
  | ok a s =>
    rw [hx] at h₁
    cases h₁
  | fault s =>
    rw [hx] at h₂
    cases h₂

end Entry

/-! ## A descriptor that is not -/

section Bad

variable {w : Stray} {k : KState} {p : Nat} {fd : Int}

/-- A closed descriptor is a null pointer. -/
theorem fdFile_closed (hcur : k.current = some p) (hin : 0 ≤ fd ∧ fd < maxOpenFile)
    (h : ¬ ∃ f, k.IsOpen p fd f) : fdFile fd k = .ok none k := by
  rw [fdFile_ok hcur]
  cases hfd : (k.procs p).fdtable fd.toNat with
  | none => rfl
  | some f => exact absurd ⟨f, hin.1, hin.2, hfd⟩ h

/-- Reading and writing follow it. -/
theorem FdCall.run_closed (hcur : k.current = some p) (hin : 0 ≤ fd ∧ fd < maxOpenFile)
    (h : ¬ ∃ f, k.IsOpen p fd f) {x : FdCall} (hx : ∀ offset, x ≠ .lseek offset) :
    x.run w fd k = .fault k := by
  rw [run_inside hin]
  cases x with
  | read buf count =>
    show (fdFile fd >>= _) k = _
    rw [Act.bind_ok (fdFile_closed hcur hin h)]
    rfl
  | write buf count =>
    show (fdFile fd >>= _) k = _
    rw [Act.bind_ok (fdFile_closed hcur hin h)]
    rfl
  | lseek offset => exact absurd rfl (hx offset)

/-- `sys_lseek` does not. -/
theorem FdCall.lseek_closed (hcur : k.current = some p) (hin : 0 ≤ fd ∧ fd < maxOpenFile)
    (h : ¬ ∃ f, k.IsOpen p fd f) (offset : Int) :
    (FdCall.lseek offset).run w fd k = .ok (-1) k := by
  rw [run_inside hin]
  show (fdFile fd >>= _) k = _
  rw [Act.bind_ok (fdFile_closed hcur hin h)]
  rfl

theorem FdCall.run_others (hcur : k.current = some p) (x : FdCall) {f : Nat}
    (hopen : k.IsOpen p fd f) (g : Nat) (y : File) (hg : g ≠ f) :
    x.run w fd (k.withFile g y) = (x.run w fd k).map (KState.withFile g y) := by
  have hother := run_open (w := w) (k := k.withFile g y) hcur hopen x
  rw [run_open hcur hopen, hother]
  exact onEntry_ignores hg x k

theorem FdCall.run_inode (hcur : k.current = some p) {x : FdCall} {f : Nat}
    (hopen : k.IsOpen p fd f) (i : Nat) :
    x.run w fd (k.withInode f i) = (x.run w fd k).map (KState.withInode f i) ↔
      x.onEntry f (k.withInode f i) = (x.onEntry f k).map (KState.withInode f i) := by
  have hother := run_open (w := w) (k := k.withInode f i) hcur hopen x
  rw [run_open hcur hopen, hother]

/-- BAD DESCRIPTORS: reading and writing check none, and `lseek` what it finds
in `fdtable`, where only a file is safe. -/
theorem bad_descriptors (hcur : k.current = some p) (w : Stray) (fd : Int) (x : FdCall) :
    Checks w k p fd x ↔ x.Guarded k p fd := by
  -- reading and writing follow the pointer, and a console has what they need
  have hfollow : (∀ offset, x ≠ .lseek offset) → (Checks w k p fd x ↔ ∃ f, k.IsOpen p fd f) := by
    intro hx
    constructor
    · intro h
      have hin := (FdCall.index_iff k w fd x).mp h.index
      by_contra hbad
      obtain ⟨r, -, hrun⟩ := h.refuses hbad
      rw [FdCall.run_closed hcur hin hbad hx] at hrun
      cases hrun
    · intro hopen
      have hin : 0 ≤ fd ∧ fd < maxOpenFile := by
        obtain ⟨f, h0, h1, -⟩ := hopen
        exact ⟨h0, h1⟩
      refine ⟨(FdCall.index_iff k w fd x).mpr hin, fun hbad => absurd hopen hbad,
        fun hf g y hg => FdCall.run_others hcur x hf g y hg, fun hf htype i => ?_⟩
      exact (FdCall.run_inode hcur hf i).mpr (FdCall.onEntry_inode hx htype i)
  cases x with
  | read buf count => exact hfollow fun _ h => by cases h
  | write buf count => exact hfollow fun _ h => by cases h
  | lseek offset =>
    constructor
    · intro h
      obtain ⟨h0, h1⟩ := (FdCall.index_iff k w fd _).mp h.index
      refine ⟨h0, h1, fun f hfd => ?_⟩
      by_contra htype
      have hopen : k.IsOpen p fd f := ⟨h0, h1, hfd⟩
      refine FdCall.lseek_inode k f offset fun i => ?_
      exact (FdCall.run_inode hcur hopen i).mp (h.inode hopen htype i)
    · rintro ⟨h0, h1, hfile⟩
      refine ⟨(FdCall.index_iff k w fd _).mpr ⟨h0, h1⟩, fun hbad => ?_,
        fun hf g y hg => FdCall.run_others hcur _ hf g y hg,
        fun hf htype => absurd (hfile _ hf.2.2) htype⟩
      exact ⟨-1, by decide, FdCall.lseek_closed hcur ⟨h0, h1⟩ hbad offset⟩

end Bad

/-- A word beside the table that is taken for a file of no known type, as descriptor -1
finds it in the directory. -/
def Stray.refused : Stray where
  read _ _ _ := return -1
  write _ _ _ := return -1
  lseek _ offset := return offset

/-- The console is open as descriptor 0, and may be read. -/
theorem bad_descriptors_oneOpen : Checks Stray.refused oneOpen 0 0 (.read 0 1) :=
  (bad_descriptors rfl Stray.refused 0 (.read 0 1)).mpr ⟨0, by decide, by decide, rfl⟩

/-- A read from descriptor 5, which is closed, stops the kernel. -/
theorem bad_descriptor_stops : ¬ ∀ w k p fd x, k.current = some p → Checks w k p fd x := by
  intro hall
  have hclosed : ¬ ∃ f, oneOpen.IsOpen 0 5 f := by
    rintro ⟨f, -, -, hfd⟩
    cases hfd
  obtain ⟨r, -, hrun⟩ := (hall Stray.refused oneOpen 0 5 (.read 0 1) rfl).refuses hclosed
  rw [FdCall.run_closed (p := 0) rfl (by decide) hclosed fun _ h => by cases h] at hrun
  cases hrun

end Myos.Kernel
