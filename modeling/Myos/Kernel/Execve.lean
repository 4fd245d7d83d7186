import Myos.Kernel.LoadFile

/-!
# `sys_execve` comes to `run_proc`

The whole of `sys_execve` on a file that `walk_path` finds: the buffer is
cleared, the user pages are taken away, the first 128 bytes are read, the
segments are loaded and the stack's page is added.

A file is loaded right if its segments are `Placed`. On the way to it the run is
had for any file whose reads stay in their frames (`Loadable`), so that what
comes of a segment that does not start with a page is known as well: what the
file has of it is shifted to the start of its first page, and its last page may
be missing.
-/

namespace Myos.Kernel

open Myos.Lib

/-! ## Up to the headers -/

/-- The file that `sys_execve` opens: `walk_path` finds it and leaves the file system
as `f`. Its inode is the kernel's own and apart from the buffer, and its first block
is there. -/
structure Found (k : KState) (root : Nat → Option Nat) (pa filename inode : Nat) (f : Fs) :
    Prop where
  walk : walkPath filename (blanked pa k.fs) = .ok (0, some inode) f
  lo : kbase ≤ inode
  hi : inode - kbase + inodeSize ≤ 2 ^ 31
  plain : ∀ x, inode - kbase ≤ x → x < inode - kbase + inodeSize → k.mm.Plain root (x / pageSize)
  clear : ∀ x, inode - kbase ≤ x → x < inode - kbase + inodeSize → ¬ (pa ≤ x ∧ x < pa + 128)
  first : f.blockNo inode 0 ≠ 0

/-- The state once the first 128 bytes of the file are in the buffer. -/
structure Started (k : KState) (root : Nat → Option Nat) (kdir p g pa : Nat) (f : Fs)
    (inode : Nat) (s : FileSt) : Prop where
  filling : Filling root kdir p g s s fun _ => False
  openAt : OpenAt s root (f.fileByte inode)
  bytes : ∀ i, i < 128 → s.fs.mm.mem (pa + i) = f.fileByte inode i
  spared : SparedBut root (fun x => pa ≤ x ∧ x < pa + 128) k.mm s.fs.mm
  elsewhere : Vm.Elsewhere root p k.mm s.fs.mm
  map : ∀ b, s.fs.blockNo s.file.inode b = f.blockNo inode b

section Start

variable {k : KState} {root : Nat → Option Nat} {kdir p g pa filename inode : Nat} {f : Fs}
variable {pfile : File} {c : Mem}

/-- `file_open` of a file that is there. -/
theorem fileOpen_found {s : FileSt} (h : walkPath filename s.fs = .ok (0, some inode) f) :
    fileOpen filename s = .ok 0 ⟨f, { s.file with inode := inode }⟩ := by
  have hwalk : fileFs (walkPath filename) s = .ok (0, some inode) (FileSt.setFs f s) := fileFs_ok h
  unfold fileOpen
  rw [Act.bind_ok hwalk]
  rfl

/-- The user pages are taken away, and the kernel's own frames stay. -/
theorem Vm.removePages_spared {s : Mm} (h : Vm s root kdir ∅) (hroot : root p = some g) :
    ∃ s', removePages (frameVa g) (turns utext ustacktop) utext s = .ok () s' ∧
      Vm.RemovedTo root kdir p s s' ustacktop ∧ Spared root s s' :=
  h.removePages_all hroot Spared.refl Spared.trans fun hvm hva hf hrun =>
    hvm.removePage_spared hroot hva hf hrun

/-- The buffer of the caller, in frames that are the kernel's own. -/
theorem Caller.aside_of_plain {s : Mm} (hc : Caller k root kdir p g pa 128)
    (hplain : ∀ i, i < 128 → s.Plain root ((pa + i) / pageSize)) :
    Aside s.mem root kdir fun x => pa ≤ x ∧ x < pa + 128 := fun x hx => by
  have hx' := hplain (x - pa) (by omega)
  rw [Nat.add_sub_cancel' hx.1] at hx'
  exact ⟨hx'.table, (hc.aside x hx).2.1, hx'.refs⟩

/-- What is filled and what is in the buffer changes; the address spaces and the rest
of the kernel's own frames do not. -/
structure Vm.Aloof (root : Nat → Option Nat) (kdir pa : Nat) (s s' : Mm) : Prop where
  vm : Vm s' root kdir ∅
  untouched : Vm.Untouched root s s'
  spared : SparedBut root (fun x => pa ≤ x ∧ x < pa + 128) s s'
  cr3 : s'.cr3 = s.cr3

theorem Vm.aloof {s s' : Mm} (h : Vm s root kdir ∅)
    (haside : Aside s.mem root kdir fun x => pa ≤ x ∧ x < pa + 128)
    (hcalm : s.Calm (fun x => pa ≤ x ∧ x < pa + 128) s') (hns : s'.starved = false) :
    Vm.Aloof root kdir pa s s' := by
  obtain ⟨l, hl⟩ := h.tables.list
  have hfill := hcalm.served hns l hl h.tables.small
  obtain ⟨hvm, huntouched⟩ := h.filled haside hl hfill
  have hspared := h.sparedBut_filled haside hl hfill
  obtain ⟨-, -, -, -, hcr3, -⟩ := hfill
  exact ⟨hvm, huntouched, hspared, hcr3⟩

/-- The buffer is cleared and the file opened. -/
theorem openFile_run (pfile : File) (hc : Caller k root kdir p g pa 128)
    (hfound : Found k root pa filename inode f) (hns : f.mm.starved = false) :
    Vm.Aloof root kdir pa k.mm f.mm ∧
      OpenAt ⟨f, { pfile with inode := inode }⟩ root (f.fileByte inode) := by
  have hblank : k.mm.Calm (fun x => pa ≤ x ∧ x < pa + 128) (blanked pa k.fs).mm :=
    Mm.Calm.setMem fun x hx => Mem.overlay_out (by omega)
  have hcalm := Calm.walkPath (B := fun x => pa ≤ x ∧ x < pa + 128) filename (blanked pa k.fs)
  rw [hfound.walk, Res.state_ok] at hcalm
  have haloof := hc.vm.aloof hc.aside (hblank.trans hcalm) hns
  exact ⟨haloof, hfound.lo, hfound.hi,
    fun x h1 h2 => (haloof.spared _ (hfound.plain x h1 h2)).1, fun _ => rfl⟩

/-- The first bytes of the file are read to the buffer. -/
theorem OpenAt.readHeader {s : FileSt} (h : OpenAt s root c) (hvm : Vm s.fs.mm root kdir ∅)
    (haside : Aside s.fs.mm.mem root kdir fun x => pa ≤ x ∧ x < pa + 128)
    (hbuf : ∀ i, i < 128 → s.fs.mm.Plain root ((pa + i) / pageSize)) (hpa : pa + 128 ≤ 2 ^ 31)
    (hclear : ∀ x, s.file.inode - kbase ≤ x → x < s.file.inode - kbase + inodeSize →
      ¬ (pa ≤ x ∧ x < pa + 128))
    (hfirst : s.fs.blockNo s.file.inode 0 ≠ 0)
    (hns : (fileRead (kbase + pa) 128 (0 : Nat) s).state.starved = false) :
    ∃ r s', fileRead (kbase + pa) 128 (0 : Nat) s = .ok r s' ∧
      Vm.Aloof root kdir pa s.fs.mm s'.fs.mm ∧ OpenAt s' root c ∧
      (∀ i, i < 128 → s'.fs.mm.mem (pa + i) = c i) ∧ s'.file.inode = s.file.inode ∧
      ∀ b, s'.fs.blockNo s.file.inode b = s.fs.blockNo s.file.inode b := by
  obtain ⟨l, hl⟩ := hvm.tables.list
  have hspan : span 0 128 = 128 := by decide
  have hclear' : Clear s.file.inode inodeSize (fun i => pa + i) (span 0 128) := by
    intro i hi
    rw [hspan] at hi
    by_contra hin
    rw [not_or, Nat.not_lt, Nat.not_le] at hin
    exact hclear (pa + i) hin.1 hin.2 ⟨Nat.le_add_right pa i, Nat.add_lt_add_left hi pa⟩
  have htarget : Target s.fs.mm l (kbase + pa) (span 0 128) fun i => pa + i := by
    rw [hspan]
    refine ⟨fun m _ i hi => ?_, fun i j _ _ h => by omega,
      fun i hi hmem => (hbuf i hi).used ((hl.mem _).mp hmem)⟩
    rw [Nat.add_assoc]
    exact (s.fs.mm.setMem m).kpa_direct (by omega)
  have hblocks : ∀ i, i < 128 → s.fs.blockNo s.file.inode ((0 + i) / blkSize) ≠ 0 := fun i hi => by
    rw [Nat.div_eq_of_lt (by unfold blkSize; omega)]
    exact hfirst
  obtain ⟨s', l', hrun, hreads⟩ := fileRead_span (o := 0) hl hvm.tables.small (h.kept hl)
    (by decide) (by decide) (by decide) hblocks htarget hclear' hns
  have hcalm : Calm (fun x => pa ≤ x ∧ x < pa + 128) (fun s : FileSt => s.fs.mm)
      (fileRead (kbase + pa) 128 (0 : Nat)) :=
    Calm.fileRead_span (by decide) (by decide) (by decide) hpa fun x h1 h2 => ⟨h1, h2⟩
  have hcalm' := hcalm s
  rw [hrun, Res.state_ok] at hcalm' hns
  have haloof := hvm.aloof haside hcalm' hns
  have hinode : s'.file.inode = s.file.inode := by rw [hreads.file]
  have hmap := hreads.blockNo (h.kept hl) hclear'
  have hdisk : s'.fs.disk = s.fs.disk := by rw [hreads.rest]; rfl
  refine ⟨_, s', hrun, haloof, ⟨hinode ▸ h.lo, hinode ▸ h.hi, fun x h1 h2 => ?_, fun x => ?_⟩,
    fun i hi => ?_, hinode, hmap⟩
  · rw [hinode] at h1 h2
    exact (haloof.spared _ (h.plain x h1 h2)).1
  · rw [h.bytes, Fs.fileByte, Fs.fileByte, Fs.fileAddr, Fs.fileAddr, hinode, hmap, hdisk]
  · rw [hreads.bytes i (by rw [hspan]; exact hi), FileSt.bytesFrom, ← h.bytes, Nat.zero_add]

/-- START: the buffer is cleared, the file opened, the pages are taken away and the
first bytes read. -/
theorem execStart_run (hc : Caller k root kdir p g pa 128) (hcr3 : k.mm.cr3 = pageSize * g)
    (hbuf : ∀ i, i < 128 → k.mm.Plain root ((pa + i) / pageSize))
    (hfound : Found k root pa filename inode f)
    (hns : ((execLoader filename (frameVa g) (kbase + pa)).start ⟨k.fs, pfile⟩).state.starved
      = false) :
    ∃ s, (execLoader filename (frameVa g) (kbase + pa)).start ⟨k.fs, pfile⟩ = .ok () s ∧
      Started k root kdir p g pa f inode s := by
  obtain ⟨s₁, hs₁⟩ : ∃ s₁ : FileSt, s₁ = ⟨f, { pfile with inode := inode }⟩ := ⟨_, rfl⟩
  have hfs₁ : s₁.fs = f := by rw [hs₁]
  have hinode₁ : s₁.file.inode = inode := by rw [hs₁]
  have hopen : fileOpen filename (FileSt.setFs (blanked pa k.fs) ⟨k.fs, pfile⟩) = .ok 0 s₁ := by
    rw [hs₁]
    exact fileOpen_found hfound.walk
  rw [execLoader] at hns ⊢
  dsimp only at hns ⊢
  rw [Act.bind_ok (memset_blanked hc.direct), Act.bind_ok hopen] at hns ⊢
  have hns₁ : s₁.fs.mm.starved = false := Bool.eq_false_iff.mpr fun hup => by
    rw [Act.Raises.bind (fileFs_starves (fsMm_starves (removePages_starves _ _ _))) (fun _ =>
      Act.Raises.bind (fileRead_starves _ _ _) fun _ => Act.Raises.pure ()) s₁ hup] at hns
    cases hns
  obtain ⟨haloof₁, hopen₁⟩ := openFile_run pfile hc hfound (hfs₁ ▸ hns₁)
  rw [← hs₁] at hopen₁
  rw [← hfs₁] at haloof₁
  -- the pages are taken away
  obtain ⟨m, hremove, hremoved, hspared₂⟩ := haloof₁.vm.removePages_spared hc.rootAt
  obtain ⟨s₂, hs₂⟩ : ∃ s₂, s₂ = FileSt.setFs (Fs.setMm m s₁.fs) s₁ := ⟨_, rfl⟩
  have hmm₂ : s₂.fs.mm = m := by rw [hs₂]; rfl
  have hinode₂ : s₂.file.inode = s₁.file.inode := by rw [hs₂]; rfl
  have hremove' : fileFs (fsMm (removePages (frameVa g) (turns utext ustacktop) utext)) s₁ =
      .ok () s₂ := by
    rw [hs₂]
    exact fileFs_ok (fsMm_ok hremove)
  rw [← hmm₂] at hremoved hspared₂
  obtain ⟨hopen₂, hmap₂⟩ := hopen₁.spared hspared₂ (by rw [hs₂]; rfl) hinode₂
  have hbuf₂ : ∀ i, i < 128 → s₂.fs.mm.Plain root ((pa + i) / pageSize) := fun i hi =>
    (hspared₂ _ (haloof₁.spared _ (hbuf i hi)).1).1
  -- and the first bytes are read
  rw [Act.bind_ok hremove'] at hns ⊢
  obtain ⟨r, s₃, hrun, haloof₃, hopen₃, hbytes, hinode₃, hmap₃⟩ := hopen₂.readHeader hremoved.vm
    (hc.aside_of_plain hbuf₂) hbuf₂ hc.direct
    (fun x h1 h2 => hfound.clear x (by rwa [hinode₂, hinode₁] at h1)
      (by rwa [hinode₂, hinode₁] at h2))
    (by rw [hmap₂, hfs₁, hinode₁]; exact hfound.first)
    (Act.Raises.of_bind (fun _ : Int => Act.Raises.pure ()) hns)
  have hrun' : fileRead (kbase + pa) 128 0 s₂ = .ok r s₃ := hrun
  refine ⟨s₃, by rw [Act.bind_ok hrun']; rfl, ⟨⟨haloof₃.vm, ?_, Spared.refl _,
    fun _ hd => hd.elim, fun {va} hva _ => ?_⟩, .refl _, rfl, rfl⟩, hopen₃, hbytes,
    (haloof₁.spared.trans (hspared₂.but _)).trans haloof₃.spared,
    (haloof₁.untouched.elsewhere.trans hremoved.elsewhere).trans haloof₃.untouched.elsewhere,
    fun b => ?_⟩
  · rw [haloof₃.cr3, hremoved.cr3, haloof₁.cr3, hcr3]
  · rw [haloof₃.untouched.leaf hva.lt]
    exact hremoved.below hva hva.2
  · rw [hinode₃, hmap₃, hmap₂, hfs₁, hinode₁]

end Start

/-! ## The whole -/

/-- The program is in memory: its pages are the process's own, with what the file has of
them, and so is the stack's. Nothing else in use changed but the buffer. -/
structure Loaded (root : Nat → Option Nat) (p pa : Nat) (c : Mem) (s s' : Mm) : Prop where
  shows : ShowsFile root p c (ElfClass.elf64.phnum c) s'
  own : ∀ {va}, UserVa va → MapsUpTo c (ElfClass.elf64.phnum c) (va / pageSize) ∨
    va / pageSize = stackPage / pageSize → Own s'.mem root p va
  empty : ∀ {va}, UserVa va → ¬ (MapsUpTo c (ElfClass.elf64.phnum c) (va / pageSize) ∨
    va / pageSize = stackPage / pageSize) → leaf s'.mem root p va = 0
  kept : ∀ {fr o}, s.Plain root fr → o < pageSize →
    ¬ (pa ≤ pageSize * fr + o ∧ pageSize * fr + o < pa + 128) →
    s'.mem (pageSize * fr + o) = s.mem (pageSize * fr + o)
  elsewhere : Vm.Elsewhere root p s s'

section Whole

variable {k : KState} {root : Nat → Option Nat} {kdir p g pa filename inode : Nat} {f : Fs}
variable {pfile : File} {c : Mem}

/-- It is a matter of the bytes of memory. -/
theorem Loaded.congr {s s' s'' : Mm} (h : Loaded root p pa c s s') (hm : s''.mem = s'.mem) :
    Loaded root p pa c s s'' := by
  refine ⟨fun j x => ?_, fun {va} => ?_, fun {va} => ?_, fun {fr o} => ?_,
    ⟨fun {p' va} => ?_, fun {p' va} => ?_⟩⟩
  · rw [hm]
    exact h.shows j x
  · rw [hm]
    exact h.own
  · rw [hm]
    exact h.empty
  · rw [hm]
    exact h.kept
  · rw [hm]
    exact h.elsewhere.leaf
  · rw [hm]
    exact h.elsewhere.view

theorem isElf_starves (binary : Nat) : Act.Within Mm.Starves (isElf binary) :=
  Starves.bind (Starves.load 1 _) fun _ => Starves.bind (Starves.load 1 _) fun _ =>
    Starves.bind (Starves.load 1 _) fun _ => Starves.bind (Starves.load 1 _) fun _ =>
      Starves.pure _

theorem execFinish_starves (filename pgdir binary : Nat) :
    Act.Within (Act.Raises FileSt.starved) ((execLoader filename pgdir binary).finish >>=
      fun entry => pure (some entry)) :=
  Act.Raises.bind (Act.Raises.bind (allocPage_file_starves 1) fun pp =>
    Act.Raises.bind (insertPage_file_starves _ _ pp _) fun _ => load_file_starves 8 _) fun _ =>
      Act.Raises.pure _

/-- What comes after the first bytes were read. -/
theorem execLoader_starves {s : FileSt}
    (hns : ((execLoader filename (frameVa g) (kbase + pa)).run .elf64 (kbase + pa) s).state.starved
      = false) :
    ((execLoader filename (frameVa g) (kbase + pa)).start s).state.starved = false := by
  refine Act.Raises.of_bind (fun _ => ?_) hns
  rw [execLoader_isElf]
  refine Act.Raises.bind (fileFs_starves (fsMm_starves (isElf_starves _))) fun b => ?_
  split
  · refine Act.Raises.bind (load_file_starves _ _) fun phoff =>
      Act.Raises.bind (load_file_starves _ _) fun phnum => ?_
    rw [execLoader_headers]
    exact Act.Raises.bind (execSegments_starves _ _ _ _) fun _ => execFinish_starves _ _ _
  · exact Act.Raises.pure _

/-- The stack's page is added, and the entry read. -/
theorem Filling.finish (filename : Nat) {s₀ s : FileSt} {done : Nat → Prop}
    (h : Filling root kdir p g s₀ s done) (helf : ElfAt s₀.fs.mm root pa 128 c)
    (hroot : root p = some g) (hnew : ¬ done (stackPage / pageSize))
    (hns : ((execLoader filename (frameVa g) (kbase + pa)).finish s).state.starved = false) :
    ∃ s', (execLoader filename (frameVa g) (kbase + pa)).finish s =
        .ok (Mem.rd 8 c eEntryOff) s' ∧
      Filling root kdir p g s₀ s' (fun q => done q ∨ q = stackPage / pageSize) ∧
      Loading.Keeps root p done s.fs.mm s'.fs.mm := by
  have hfinish : (execLoader filename (frameVa g) (kbase + pa)).finish =
      fileFs (fsMm (allocPage 1 >>= fun pp => insertPage (frameVa g) stackPage pp pageFlags)) >>=
        fun _ => fileFs (fsMm (load 8 (kbase + pa + eEntryOff))) := by
    rw [fileMm_bind, Act.bind_assoc]
    rfl
  rw [hfinish] at hns ⊢
  have hns₁ := Act.Raises.of_bind (fun _ => load_file_starves 8 _) hns
  rw [fileFs, fsMm, FileSt.starved, Act.zoom_state, Fs.starved, FileSt.setFs, Act.zoom_state] at hns₁
  obtain ⟨q, m, hrun, hmaps, -, -⟩ := h.loading.page hroot userVa_stackPage hnew 1 hns₁
  obtain ⟨s', hs'⟩ : ∃ s', s' = FileSt.setFs (Fs.setMm m s.fs) s := ⟨_, rfl⟩
  have hrun' : fileFs (fsMm (allocPage 1 >>= fun pp =>
      insertPage (frameVa g) stackPage pp pageFlags)) s = .ok 0 s' := by
    rw [hs']
    exact fileFs_ok (fsMm_ok hrun)
  have hfs : s'.fs = Fs.setMm m s.fs := by rw [hs']; rfl
  obtain ⟨hfill, hkeep⟩ := h.maps hnew hmaps hfs (by rw [hs']; rfl)
  have hentry : fileFs (fsMm (load 8 (kbase + pa + eEntryOff))) s' =
      .ok (Mem.rd 8 c eEntryOff) s' := by
    rw [Nat.add_assoc]
    exact fileFs_ok (fsMm_ok (helf.load hfill.loading.spared (by decide) (by decide)))
  exact ⟨s', by rw [Act.bind_ok hrun', hentry], hfill, hkeep⟩

/-- `sys_execve` up to the registers, on a file it can load. -/
theorem execLoad_run (pfile : File) (hc : Caller k root kdir p g pa 128) (hcr3 : k.mm.cr3 = pageSize * g)
    (hpa : pa + 128 < 2 ^ 31) (hbuf : ∀ i, i < 128 → k.mm.Plain root ((pa + i) / pageSize))
    (hfound : Found k root pa filename inode f) (hm : magic (f.fileByte inode))
    (hheaders : ∀ {i}, i < ElfClass.elf64.phnum (f.fileByte inode) →
      phdrOff (f.fileByte inode) i + phdrSize ≤ 128)
    (hload : Loadable (f.fileByte inode)) (hpres : Present ⟨f, { inode := inode }⟩ (f.fileByte inode))
    (hns : (execLoad filename (frameVa g) (kbase + pa) ⟨k.fs, pfile⟩).state.starved = false) :
    ∃ s', execLoad filename (frameVa g) (kbase + pa) ⟨k.fs, pfile⟩ =
        .ok (some (Mem.rd 8 (f.fileByte inode) eEntryOff)) s' ∧
      Loaded root p pa (f.fileByte inode) k.mm s'.fs.mm := by
  obtain ⟨c, hfile⟩ : ∃ c, c = f.fileByte inode := ⟨_, rfl⟩
  rw [← execLoader_run] at hns ⊢
  obtain ⟨s₀, hstart, hst⟩ := execStart_run hc hcr3 hbuf hfound (execLoader_starves hns)
  have hopen := hst.openAt
  have hbytes := hst.bytes
  rw [← hfile] at hm hload hpres hopen hbytes ⊢
  have helf : ElfAt s₀.fs.mm root pa 128 c := ⟨hpa, hbytes,
    fun i hi => (hst.spared _ (hbuf i hi)).1, hm, by decide, by rwa [hfile]⟩
  rw [(run_parse hstart (execLoader_holds (Nat.le_of_lt hpa) hbytes)).2 hm, execLoader_headers]
    at hns ⊢
  have hphdrs : execSegments (frameVa g) ((kbase + pa + ElfClass.elf64.phoff c) %
      2 ^ ElfClass.elf64.bits) (ElfClass.elf64.phnum c) 0 =
      execSegments (frameVa g) (kbase + (pa + ElfClass.elf64.phoff c))
        (ElfClass.elf64.phnum c) 0 := by
    by_cases hne : ElfClass.elf64.phnum c = 0
    · have hnone : ∀ phdrs, execSegments (frameVa g) phdrs 0 0 = pure () := fun _ => rfl
      rw [hne, hnone, hnone]
    · have hu64 : (kbase + pa + ElfClass.elf64.phoff c) % 2 ^ ElfClass.elf64.bits =
          kbase + (pa + ElfClass.elf64.phoff c) := helf.phdrs hne
      rw [hu64]
  rw [hphdrs] at hns ⊢
  -- the segments
  have hns₁ := Act.Raises.of_bind (fun _ => execFinish_starves filename (frameVa g) (kbase + pa)) hns
  obtain ⟨s₁, hrun, hfill, hshow⟩ := execSegments_run hopen helf hload
    (fun i hi ht x hx => by rw [hst.map]; exact hpres i hi ht x hx) hc.rootAt
    (hst.filling.congr fun q => ⟨fun ⟨j, hj, _⟩ => absurd hj (Nat.not_lt_zero j), False.elim⟩)
    (fun j x hj => absurd hj (Nat.not_lt_zero j)) (Nat.zero_add _) hns₁
  rw [Nat.zero_add] at hfill hshow
  rw [Act.bind_ok hrun] at hns ⊢
  -- and the stack
  have hnew : ¬ MapsUpTo c (ElfClass.elf64.phnum c) (stackPage / pageSize) := by
    rintro ⟨j, hj, htj, hmaps⟩
    exact Nat.lt_irrefl _ (hload.below hj htj hmaps)
  obtain ⟨s₂, hrun₂, hfill₂, hkeep₂⟩ := hfill.finish filename helf hc.rootAt
    hnew (Act.Raises.of_bind (fun entry => Act.Raises.pure (some entry)) hns)
  rw [Act.bind_ok hrun₂]
  refine ⟨s₂, rfl, fun j x hj htj hx => ?_, hfill₂.loading.own, hfill₂.loading.empty,
    fun {fr o} hfr ho hB => ?_, hst.elsewhere.trans hfill₂.elsewhere⟩
  · have hmaps := hload.maps hj htj hx
    rw [hkeep₂ _ (hload.userVa hj htj hmaps rfl) ⟨j, hj, htj, hmaps⟩]
    exact hshow j x hj htj hx
  · obtain ⟨hplain, hkept⟩ := hst.spared fr hfr
    rw [(hfill₂.loading.spared fr hplain).2 o ho, hkept o ho hB]

theorem setProc_starves (q : Nat) (r : Proc → Proc) :
    Act.Within (Act.Raises fun k : KState => k.mm.starved) (setProc q r) :=
  Act.Raises.modify fun _ => rfl

theorem runProc_starves (q : Nat) :
    Act.Within (Act.Raises fun k : KState => k.mm.starved) (runProc q) := fun k hk => by
  rw [runProc_ok, Res.state_ok]
  show (k.running q).mm.starved = true
  rw [KState.running_starved]
  exact hk

/-- A call that found frames for everything found them for the load. -/
theorem execLoad_served (hc : Caller k root kdir p g pa 128)
    (hns : (sysExecve (kbase + pa) pfile filename k).state.mm.starved = false) :
    (execLoad filename (frameVa g) (kbase + pa) ⟨k.fs, pfile⟩).state.starved = false := by
  unfold sysExecve at hns
  rw [Act.bind_ok (currentProc_ok hc.current), Act.gets_bind_apply, hc.pgdir] at hns
  have hlocal : (onLocalFile pfile (execLoad filename (frameVa g) (kbase + pa)) k).state.mm.starved
      = false := by
    refine Act.Raises.of_bind (fun o : Option Nat =>
      (?_ : Act.Within (Act.Raises fun k : KState => k.mm.starved) _)) hns
    cases o with
    | none => exact Act.Raises.pure _
    | some entry => exact Act.Raises.bind (setProc_starves p _) fun _ =>
        Act.Raises.bind (runProc_starves p) fun _ => Act.Raises.pure _
  rwa [onLocalFile, Act.zoom_state] at hlocal

/-- And for the look at the directory. -/
theorem execPath_served (hc : Caller k root kdir p g pa 128)
    (hns : (sysExecve (kbase + pa) pfile filename k).state.mm.starved = false) :
    (walkPath filename (blanked pa k.fs)).state.starved = false := by
  have hstart := execLoad_served hc hns
  rw [← execLoader_run] at hstart
  have hopen := execLoader_starves hstart
  rw [execLoader] at hopen
  dsimp only at hopen
  rw [Act.bind_ok (memset_blanked hc.direct)] at hopen
  have hwalk := Act.Raises.of_bind (fun _ => Act.Raises.bind
    (fileFs_starves (fsMm_starves (removePages_starves _ _ _))) fun _ =>
      Act.Raises.bind (fileRead_starves _ _ _) fun _ => Act.Raises.pure ()) hopen
  unfold fileOpen at hwalk
  have hfile : (fileFs (walkPath filename) _).state.starved = false :=
    Act.Raises.of_bind (fun r => (?_ : Act.Within (Act.Raises FileSt.starved) _)) hwalk
  · rwa [fileFs, FileSt.starved, Act.zoom_state] at hfile
  · obtain ⟨r, o⟩ := r
    show Act.Within (Act.Raises FileSt.starved) (if r < 0 then _ else _)
    split
    · exact Act.Raises.pure _
    · exact Act.Raises.bind (Act.Raises.deref o) fun inode =>
        Act.Raises.bind (Act.Raises.modify fun _ => rfl) fun _ => Act.Raises.pure _

/-- `sys_execve` comes to `run_proc` on a file it can load, and the process goes on where the
file says. -/
theorem sysExecve_enters (hc : Caller k root kdir p g pa 128) (hcr3 : k.mm.cr3 = pageSize * g)
    (hpa : pa + 128 < 2 ^ 31) (hbuf : ∀ i, i < 128 → k.mm.Plain root ((pa + i) / pageSize))
    (hfound : Found k root pa filename inode f) (hm : magic (f.fileByte inode))
    (hheaders : ∀ {i}, i < ElfClass.elf64.phnum (f.fileByte inode) →
      phdrOff (f.fileByte inode) i + phdrSize ≤ 128)
    (hload : Loadable (f.fileByte inode)) (hpres : Present ⟨f, { inode := inode }⟩ (f.fileByte inode))
    (hns : (sysExecve (kbase + pa) pfile filename k).state.mm.starved = false) :
    ∃ k', sysExecve (kbase + pa) pfile filename k = .ok (.run p) k' ∧
      Loaded root p pa (f.fileByte inode) k.mm k'.mm ∧
      (k'.procs p).pregs = { (k.procs p).pregs with
        rsp := ustacktop, rip := Mem.rd 8 (f.fileByte inode) eEntryOff } := by
  have hlocal := execLoad_served hc hns
  unfold sysExecve
  rw [Act.bind_ok (currentProc_ok hc.current), Act.gets_bind_apply, hc.pgdir]
  obtain ⟨s', hrun, hloaded⟩ := execLoad_run pfile hc hcr3 hpa hbuf hfound hm
    hheaders hload hpres hlocal
  generalize Mem.rd 8 (f.fileByte inode) eEntryOff = entry at hrun ⊢
  have hrun' : onLocalFile pfile (execLoad filename (frameVa g) (kbase + pa)) k =
      .ok (some entry) { k with fs := s'.fs } := Act.zoom_eq_ok.mpr ⟨s', hrun, rfl⟩
  rw [Act.bind_ok hrun']
  obtain ⟨k₁, hk₁⟩ : ∃ k₁ : KState, k₁ = ({ k with fs := s'.fs } : KState).setProc p
      { k.procs p with pregs := { (k.procs p).pregs with rsp := ustacktop, rip := entry } } :=
    ⟨_, rfl⟩
  have hset : (setProc p fun r => { r with pregs := { r.pregs with
      rsp := ustacktop, rip := entry } }) { k with fs := s'.fs } = .ok () k₁ := by
    rw [hk₁]
    rfl
  have hmem : (k₁.running p).mm.mem = s'.fs.mm.mem := by
    rw [KState.running_mem, hk₁]
    rfl
  refine ⟨k₁.running p, ?_, hloaded.congr hmem, ?_⟩
  · dsimp only
    rw [Act.bind_ok hset, Act.bind_ok (runProc_ok k₁ p)]
    rfl
  · rw [KState.running_procs, hk₁, KState.setProc_self]

/-- `sys_execve` comes to `run_proc` on a file it can load. -/
theorem sysExecve_run (hc : Caller k root kdir p g pa 128) (hcr3 : k.mm.cr3 = pageSize * g)
    (hpa : pa + 128 < 2 ^ 31) (hbuf : ∀ i, i < 128 → k.mm.Plain root ((pa + i) / pageSize))
    (hfound : Found k root pa filename inode f) (hm : magic (f.fileByte inode))
    (hheaders : ∀ {i}, i < ElfClass.elf64.phnum (f.fileByte inode) →
      phdrOff (f.fileByte inode) i + phdrSize ≤ 128)
    (hload : Loadable (f.fileByte inode)) (hpres : Present ⟨f, { inode := inode }⟩ (f.fileByte inode))
    (hns : (sysExecve (kbase + pa) pfile filename k).state.mm.starved = false) :
    ∃ k', sysExecve (kbase + pa) pfile filename k = .ok (.run p) k' ∧
      Loaded root p pa (f.fileByte inode) k.mm k'.mm := by
  obtain ⟨k', hrun, hloaded, -⟩ :=
    sysExecve_enters hc hcr3 hpa hbuf hfound hm hheaders hload hpres hns
  exact ⟨k', hrun, hloaded⟩

end Whole

/-! ## The segments -/

/-- An ELF file: its program headers are in its first 128 bytes, and its segments are
user addresses below the stack, each to itself. -/
structure ElfFile (c : Mem) : Prop where
  magic : magic c
  headers : ∀ {i}, i < ElfClass.elf64.phnum c → phdrOff c i + phdrSize ≤ binarySize
  user : ∀ {i}, i < ElfClass.elf64.phnum c → (segment c i).type = ptLoad →
    utext ≤ (segment c i).vaddr ∧ (segment c i).vaddr + (segment c i).memsz ≤ stackPage
  filesz : ∀ {i}, i < ElfClass.elf64.phnum c → (segment c i).type = ptLoad →
    (segment c i).filesz ≤ (segment c i).memsz
  disjoint : ∀ {i j x}, i < j → j < ElfClass.elf64.phnum c → (segment c i).type = ptLoad →
    (segment c j).type = ptLoad → (segment c i).vaddr ≤ x →
    x < (segment c i).vaddr + (segment c i).memsz →
    ¬ ((segment c j).vaddr ≤ x ∧ x < (segment c j).vaddr + (segment c j).memsz)

/-- A page of a segment that is placed begins with a byte of it. -/
theorem Segment.Placed.first {e : Segment} {q : Nat} (h : e.Placed) (hm : e.Maps q) :
    e.vaddr ≤ pageSize * q ∧ pageSize * q < e.vaddr + e.memsz := by
  unfold Placed at h
  unfold Maps at hm
  unfold pageSize at *
  omega

/-- Segments that are placed can be loaded. -/
theorem ElfFile.loadable {c : Mem} (h : ElfFile c)
    (hp : ∀ i, i < ElfClass.elf64.phnum c → (segment c i).type = ptLoad → (segment c i).Placed) :
    Loadable c := by
  refine ⟨fun {i} hi ht => ?_, fun {i} hi ht => ?_, fun {i} hi ht => ?_,
    fun {i q} hi ht hm => ?_, fun {i j q} hij hj hti htj hm hm' => ?_⟩
  · have hsize := h.filesz hi ht
    rcases hp i hi ht with hz | ⟨-, hfile, -⟩
    · omega
    · exact hfile
  · have hsize := h.filesz hi ht
    rcases hp i hi ht with hz | ⟨-, -, hframes⟩
    · refine .inr ⟨by omega, .inl ?_⟩
      unfold pageSize
      omega
    · exact hframes
  · obtain ⟨hlo, hhi⟩ := h.user hi ht
    exact ⟨hlo, Nat.le_trans hhi (Nat.sub_le _ _)⟩
  · obtain ⟨-, hhi⟩ := h.user hi ht
    obtain ⟨-, hlast⟩ := (hp i hi ht).first hm
    unfold stackPage ustacktop pageSize at *
    omega
  · obtain ⟨h1, h2⟩ := (hp i (by omega) hti).first hm
    exact h.disjoint hij hj hti htj h1 h2 ((hp j hj htj).first hm')

/-- What `sys_execve` is for: the segments are in memory, and nothing else that is in
use was written to but its buffer. -/
structure ExecDone (root : Nat → Option Nat) (p pa : Nat) (c : Mem) (s s' : Mm) : Prop where
  loads : Loads root p c s'
  kept : ∀ {fr o}, s.Plain root fr → o < pageSize →
    ¬ (pa ≤ pageSize * fr + o ∧ pageSize * fr + o < pa + 128) →
    s'.mem (pageSize * fr + o) = s.mem (pageSize * fr + o)
  elsewhere : Vm.Elsewhere root p s s'

section Segments

variable {k : KState} {root : Nat → Option Nat} {kdir p g pa filename inode : Nat} {f : Fs}
variable {pfile : File} {c : Mem} {s s' : Mm}

/-- Segments that start with a page are where they should be. -/
theorem Loaded.done (h : Loaded root p pa c s s') (hc : Loadable c)
    (hp : ∀ i, i < ElfClass.elf64.phnum c → (segment c i).type = ptLoad → (segment c i).Placed) :
    ExecDone root p pa c s s' := by
  refine ⟨⟨fun {i x} hi ht h1 h2 => ?_, fun {i x} hi ht hx => ?_⟩, h.kept, h.elsewhere⟩
  · have hm : (segment c i).Maps (x / pageSize) := by
      rcases hp i hi ht with hz | ⟨hpage, -⟩
      · omega
      · unfold Segment.Maps
        unfold pageSize at *
        omega
    obtain ⟨fr, hfr, -⟩ := h.own (hc.userVa hi ht hm rfl) (.inl ⟨i, hi, ht, hm⟩)
    rw [hfr]
    exact Option.some_ne_none fr
  · rcases hp i hi ht with hz | ⟨hpage, hfile, -⟩
    · omega
    · rw [hfile] at hx
      have hstart : pageSize * ((segment c i).vaddr / pageSize) = (segment c i).vaddr :=
        Nat.mul_div_cancel' (Nat.dvd_of_mod_eq_zero hpage)
      have hshow := h.shows i x hi ht hx
      rw [hstart] at hshow
      rw [hshow, if_pos hx]

/-- The segments share no page. -/
def Separate (c : Mem) : Prop :=
  ∀ i j q, i < j → j < ElfClass.elf64.phnum c → (segment c i).type = ptLoad →
    (segment c j).type = ptLoad → (segment c i).Touches q → ¬ (segment c j).Touches q

/-- The segments are all in the file, and are read into their frames. -/
def Readable (c : Mem) : Prop :=
  ∀ i, i < ElfClass.elf64.phnum c → (segment c i).type = ptLoad →
    (segment c i).memsz = (segment c i).filesz ∧ (segment c i).InFrames

/-- A page of a segment is below the stack's. -/
theorem ElfFile.below (h : ElfFile c) {i q : Nat} (hi : i < ElfClass.elf64.phnum c)
    (ht : (segment c i).type = ptLoad) (hq : (segment c i).Touches q) : q < stackPage / pageSize := by
  obtain ⟨x, -, hx, rfl⟩ := hq
  obtain ⟨-, hhi⟩ := h.user hi ht
  unfold stackPage ustacktop pageSize at *
  omega

/-- Segments that share no page need not start with one to be read. -/
theorem ElfFile.loadable_separate (h : ElfFile c) (hsep : Separate c) (hread : Readable c) :
    Loadable c := by
  refine ⟨fun {i} hi ht => (hread i hi ht).1, fun {i} hi ht => (hread i hi ht).2,
    fun {i} hi ht => ?_, fun {i q} hi ht hm => h.below hi ht hm.touches,
    fun {i j q} hij hj hti htj hm hm' => hsep i j q hij hj hti htj hm.touches hm'.touches⟩
  obtain ⟨hlo, hhi⟩ := h.user hi ht
  exact ⟨hlo, Nat.le_trans hhi (Nat.sub_le _ _)⟩

/-- A segment that is loaded right has all its pages, and if it does not start with one,
the file repeats itself. -/
theorem Loaded.shifted (h : Loaded root p pa c s s') (hfile : ElfFile c) (hsep : Separate c)
    (hread : Readable c) (hl : Loads root p c s') {i : Nat} (hi : i < ElfClass.elf64.phnum c)
    (ht : (segment c i).type = ptLoad) :
    (segment c i).Covered ∧
      ∀ x, (segment c i).vaddr % pageSize + x < (segment c i).filesz →
        c ((segment c i).offset + ((segment c i).vaddr % pageSize + x)) =
          c ((segment c i).offset + x) := by
  obtain ⟨hlo, hhi⟩ := hfile.user hi ht
  constructor
  · by_contra hcov
    obtain ⟨hpos, hlast⟩ := Segment.not_maps hcov
    obtain ⟨x, hx⟩ : ∃ x, x = (segment c i).vaddr + (segment c i).memsz - 1 := ⟨_, rfl⟩
    have hfirst : (segment c i).vaddr ≤ x := by omega
    have hin : x < (segment c i).vaddr + (segment c i).memsz := by omega
    have htouch : (segment c i).Touches (x / pageSize) := ⟨x, hfirst, hin, rfl⟩
    have hva : UserVa x := by
      unfold UserVa
      unfold stackPage at hhi
      omega
    rw [← hx] at hlast
    refine hl.mapped hi ht hfirst hin ?_
    rw [h.empty hva ?_, target_zero]
    rintro (⟨j, hj, htj, hm⟩ | hstack)
    · rcases Nat.lt_trichotomy i j with hij | rfl | hji
      · exact hsep i j _ hij hj ht htj htouch hm.touches
      · exact hlast hm
      · exact hsep j i _ hji hi htj ht hm.touches htouch
    · exact Nat.lt_irrefl _ (hstack ▸ hfile.below hi ht htouch)
  · intro x hx
    have hfilesz := (hread i hi ht).1
    have hbyte := hl.bytes hi ht (k := x) (by omega)
    have hshow := h.shows i _ hi ht hx
    rw [if_pos (by omega)] at hbyte
    rw [← hbyte, ← hshow, ← Nat.add_assoc, Nat.div_add_mod]

/-- LOAD: `sys_execve` loads the segments of a file if each that is not empty starts
with a page, is all in the file and is read into its frames. Of segments that are not
so, those that are in the file and do not leave their frames are known to be loaded only
if the pages that are counted from their first byte's on reach their last, and the
file is the same at their distance from the start of a page. -/
theorem execve_loads (hc : Caller k root kdir p g pa 128) (hcr3 : k.mm.cr3 = pageSize * g)
    (hpa : pa + 128 < 2 ^ 31) (hbuf : ∀ i, i < 128 → k.mm.Plain root ((pa + i) / pageSize))
    (hfound : Found k root pa filename inode f) (hfile : ElfFile (f.fileByte inode))
    (hpres : Present ⟨f, { inode := inode }⟩ (f.fileByte inode))
    (hns : (sysExecve (kbase + pa) pfile filename k).state.mm.starved = false) :
    ((∀ i, i < ElfClass.elf64.phnum (f.fileByte inode) →
        (segment (f.fileByte inode) i).type = ptLoad → (segment (f.fileByte inode) i).Placed) →
      ∃ k', sysExecve (kbase + pa) pfile filename k = .ok (.run p) k' ∧
        ExecDone root p pa (f.fileByte inode) k.mm k'.mm) ∧
    (Separate (f.fileByte inode) → Readable (f.fileByte inode) →
      ∃ k', sysExecve (kbase + pa) pfile filename k = .ok (.run p) k' ∧
        (ExecDone root p pa (f.fileByte inode) k.mm k'.mm →
          ∀ i, i < ElfClass.elf64.phnum (f.fileByte inode) →
            (segment (f.fileByte inode) i).type = ptLoad →
            (segment (f.fileByte inode) i).Covered ∧
              ∀ x, (segment (f.fileByte inode) i).vaddr % pageSize + x <
                  (segment (f.fileByte inode) i).filesz →
                f.fileByte inode ((segment (f.fileByte inode) i).offset +
                    ((segment (f.fileByte inode) i).vaddr % pageSize + x)) =
                  f.fileByte inode ((segment (f.fileByte inode) i).offset + x))) := by
  constructor
  · intro hp
    have hload := hfile.loadable hp
    obtain ⟨k', hrun, hloaded⟩ := sysExecve_run hc hcr3 hpa hbuf hfound hfile.magic hfile.headers
      hload hpres hns
    exact ⟨k', hrun, hloaded.done hload hp⟩
  · intro hsep hread
    obtain ⟨k', hrun, hloaded⟩ := sysExecve_run hc hcr3 hpa hbuf hfound hfile.magic hfile.headers
      (hfile.loadable_separate hsep hread) hpres hns
    exact ⟨k', hrun, fun hdone i hi ht => hloaded.shifted hfile hsep hread hdone.loads hi ht⟩

end Segments

/-! ## A process that is loaded -/

section Sample

variable {c : Mem} {l : List Nat}

/-- Twenty-four frames, those from 8 on free. A process without pages runs, whose page
directory is frame 5; the disk has a file that starts with `c`. -/
def sampleProcess (c : Mem) : KState :=
  { sampleKernel with
    fs := { (sampleExec c).fs with
      mm := { sampleKernel.mm with
        mem := sampleInodes
        pages := fun i => if i < 8 then { count := 1 } else
          { link := if i + 1 < 24 then some (i + 1) else none }
        phead := some 8
        npages := 24
        cr3 := pageSize * 5 } }
    procs := fun p => if p = 0 then { status := .runnable, pgdir := frameVa 5 } else
      { link := if p + 1 < maxProc then some (p + 1) else none }
    kpgdir := frameVa 6 }

/-- Process 0 has frame 5 for its page directory. -/
def sampleProcessRoot : Nat → Option Nat := Function.update (fun _ => none) 0 (some 5)

theorem sampleProcess_count (f : Nat) :
    (sampleProcess c).mm.count f = if f < 8 then 1 else 0 := by
  show (if f < 8 then _ else _ : Page).count = _
  split <;> rfl

theorem sampleProcess_list (c : Mem) : FreeList (sampleProcess c).mm
    [8, 9, 10, 11, 12, 13, 14, 15, 16, 17, 18, 19, 20, 21, 22, 23] := by
  refine ⟨.cons (.cons (.cons (.cons (.cons (.cons (.cons (.cons (.cons (.cons (.cons (.cons
    (.cons (.cons (.cons (.cons .nil))))))))))))))), fun f => ?_⟩
  have hn : (sampleProcess c).mm.npages = 24 := rfl
  rw [sampleProcess_count, hn]
  simp only [List.mem_cons, List.not_mem_nil, or_false]
  split <;> omega

/-- Nothing is mapped, and the frames up to 8 are the kernel's own but for the page
directory. -/
theorem sampleProcess_vm : Vm (sampleProcess c).mm sampleProcessRoot 6 ∅ ∧
    ∀ f, f < 8 → f ≠ 5 → (sampleProcess c).mm.Plain sampleProcessRoot f := by
  have hmem : (sampleProcess c).mm.mem = sampleInodes := rfl
  have hn : (sampleProcess c).mm.npages = 24 := rfl
  have hone : ∀ {f}, f < 8 → (sampleProcess c).mm.count f = 1 := fun hf => by
    rw [sampleProcess_count, if_pos hf]
  have hempty : ∀ {g i}, 5 ≤ g → i < userTop → Mem.entry (sampleProcess c).mm.mem g i = 0 := by
    intro g i hg hi
    rw [hmem]
    refine Mem.rd_zero fun x h1 h2 => sampleInodes_out (.inr ?_) ?_
    · unfold pageSize at *
      omega
    · unfold pageSize userTop at *
      omega
  have hkdir : 6 < (sampleProcess c).mm.npages ∧ (sampleProcess c).mm.count 6 ≠ 0 := by
    rw [hn, hone (by decide)]
    decide
  have hdir : 5 < (sampleProcess c).mm.npages := by
    rw [hn]
    decide
  obtain ⟨hvm, htable, hleaf⟩ := Vm.unrooted (by rw [hn]; decide) (sampleProcess_list c) hkdir
    (hempty (by decide)) hdir (hone (by decide)) (by decide)
  have hrefs : ∀ f, userRefs (sampleProcess c).mm.mem (fun _ => none) f = 0 := fun f => by
    by_contra hne
    obtain ⟨p, va, -, -, hf⟩ := userRefs_pos.mp (Nat.pos_of_ne_zero hne)
    rw [hleaf, target_zero] at hf
    cases hf
  have hplant := hvm.plant (q := 0) (Finset.mem_singleton_self 5) (by decide) rfl (hrefs 5)
    (hempty (Nat.le_refl 5))
  rw [Finset.erase_singleton] at hplant
  refine ⟨hplant, fun f hf hne => ?_⟩
  have hplain : (sampleProcess c).mm.Plain (fun _ => none) f := by
    refine ⟨fun hfree => ?_, htable f, hrefs f⟩
    have hz := hfree.2
    rw [hone hf] at hz
    cases hz
  exact hplain.plant hne rfl (hempty (Nat.le_refl 5))

theorem sampleProcess_caller :
    Caller (sampleProcess c) sampleProcessRoot 6 0 5 (pageSize * 3) 128 := by
  refine ⟨sampleProcess_vm.1, rfl, rfl, rfl, by decide, fun x hx => ?_⟩
  have hframe : x / pageSize = 3 := by
    unfold pageSize at *
    omega
  have hplain := (sampleProcess_vm (c := c)).2 3 (by decide) (by decide)
  rw [hframe]
  exact ⟨hplain.table, by decide, hplain.refs⟩

theorem sampleProcess_buffer (i : Nat) (hi : i < 128) :
    (sampleProcess c).mm.Plain sampleProcessRoot ((pageSize * 3 + i) / pageSize) := by
  rw [show (pageSize * 3 + i) / pageSize = 3 by unfold pageSize; omega]
  exact sampleProcess_vm.2 3 (by decide) (by decide)

/-- The file system once the buffer is cleared. -/
theorem sampleProcess_blanked :
    (blanked (pageSize * 3) (sampleProcess c).fs).mm.mem = sampleCleared := rfl

/-- `walk_path` finds the file, with any list of the frames that are free. -/
theorem sampleProcess_walk (hl : FreeList (blanked (pageSize * 3) (sampleProcess c).fs).mm l)
    (hne : l ≠ []) : ∃ q l' f, l = q :: l' ∧
      Took (blanked (pageSize * 3) (sampleProcess c).fs) l f l' ∧ f.starved = false ∧
      walkPath (frameVa 4) (blanked (pageSize * 3) (sampleProcess c).fs) =
        .ok (0, some (frameVa 1 + inodeSize * 1)) f := by
  have hlow : ∀ f, f ∈ l → 8 ≤ f := fun f hf => by
    have hz := ((hl.mem f).mp hf).2
    have hcount : (sampleProcess c).mm.count f = 0 := hz
    rw [sampleProcess_count] at hcount
    by_contra hlt
    rw [if_pos (Nat.not_le.mp hlt)] at hcount
    cases hcount
  have hn : (blanked (pageSize * 3) (sampleProcess c).fs).mm.npages = 24 := rfl
  exact sampleInodes_find hl (by rw [hn]; decide) hlow hne sampleProcess_blanked rfl rfl

/-- The file is found, and its first bytes are `c`. -/
theorem sampleProcess_found : ∃ f : Fs,
    Found (sampleProcess c) sampleProcessRoot (pageSize * 3) (frameVa 4)
      (frameVa 1 + inodeSize * 1) f ∧
    f.blockNo (frameVa 1 + inodeSize * 1) 0 = 21 ∧
    ∀ i, i < 128 → f.fileByte (frameVa 1 + inodeSize * 1) i = c i := by
  have hl : FreeList (blanked (pageSize * 3) (sampleProcess c).fs).mm
      [8, 9, 10, 11, 12, 13, 14, 15, 16, 17, 18, 19, 20, 21, 22, 23] :=
    (sampleProcess_list c).congr rfl rfl rfl
  obtain ⟨q, l', f, -, htook, -, hwalk⟩ := sampleProcess_walk hl (List.cons_ne_nil 8 _)
  have hsub : frameVa 1 + inodeSize * 1 - kbase = pageSize * 1 + inodeSize := by
    unfold frameVa
    omega
  have hblock : f.blockNo (frameVa 1 + inodeSize * 1) 0 = 21 := by
    rw [htook.blockNo (sampleInodes_kept (by decide) (by decide)), Fs.blockNo, if_pos (by decide)]
    exact (sampleInodes_slot sampleProcess_blanked).2
  refine ⟨f, ⟨hwalk, ?_, ?_, fun x h1 h2 => ?_, fun x h1 h2 hin => ?_, ?_⟩, hblock, fun i hi => ?_⟩
  · unfold frameVa
    omega
  · rw [hsub]
    decide
  · rw [hsub] at h1 h2
    rw [show x / pageSize = 1 by unfold pageSize inodeSize at *; omega]
    exact sampleProcess_vm.2 1 (by decide) (by decide)
  · rw [hsub] at h1 h2
    unfold pageSize inodeSize at *
    omega
  · rw [hblock]
    decide
  · have hzero : i / blkSize = 0 := Nat.div_eq_of_lt (by unfold blkSize; omega)
    have hdisk : f.disk = sampleBlocks c := htook.disk
    rw [Fs.fileByte, Fs.fileAddr, hzero, hblock, Nat.mod_eq_of_lt (Nat.lt_trans hi (by decide)),
      hdisk]
    exact sampleBlocks_file

/-- A file with the first bytes of `c` has its header, and its only program header. -/
theorem sampleHeaders {c' : Mem} {e : Segment} (hc : ∀ i, i < 128 → c' i = c i) (hm : magic c)
    (hoff : ElfClass.elf64.phoff c = 64) (hnum : ElfClass.elf64.phnum c = 1)
    (hseg : segment c 0 = e) : magic c' ∧ ElfClass.elf64.phoff c' = 64 ∧
      ElfClass.elf64.phnum c' = 1 ∧ segment c' 0 = e := by
  have hrd : ∀ n o, o + n ≤ 128 → Mem.rd n c' o = Mem.rd n c o := fun n o ho =>
    Mem.rd_congr fun x _ h2 => hc x (by omega)
  have hoff' : ElfClass.elf64.phoff c' = 64 := by
    rw [ElfClass.phoff, hrd _ _ (by decide)]
    exact hoff
  have hphdr : phdrOff c' 0 = 64 := by rw [phdrOff, hoff']; rfl
  have hphdr' : phdrOff c 0 = 64 := by rw [phdrOff, hoff]; rfl
  refine ⟨?_, hoff', ?_, ?_⟩
  · unfold magic
    rw [hrd _ _ (by decide), hrd _ _ (by decide), hrd _ _ (by decide), hrd _ _ (by decide)]
    exact hm
  · rw [ElfClass.phnum, hrd _ _ (by decide)]
    exact hnum
  · rw [← hseg]
    unfold segment
    rw [hphdr, hphdr', hrd _ _ (by decide), hrd _ _ (by decide), hrd _ _ (by decide),
      hrd _ _ (by decide), hrd _ _ (by decide)]

theorem sampleHeaders_file {c' : Mem} {e : Segment} (hm : magic c')
    (hoff : ElfClass.elf64.phoff c' = 64) (hnum : ElfClass.elf64.phnum c' = 1)
    (hseg : segment c' 0 = e) (hlo : utext ≤ e.vaddr) (hhi : e.vaddr + e.memsz ≤ stackPage)
    (hsize : e.filesz ≤ e.memsz) : ElfFile c' := by
  have hzero : ∀ {i}, i < ElfClass.elf64.phnum c' → segment c' i = e := fun hi => by
    rw [hnum] at hi
    rw [Nat.lt_one_iff.mp hi, hseg]
  refine ⟨hm, fun {i} hi => ?_, fun {i} hi _ => ?_, fun {i} hi _ => ?_, fun {i j x} hij hj => ?_⟩
  · rw [hnum] at hi
    rw [phdrOff, hoff, Nat.lt_one_iff.mp hi]
    decide
  · rw [hzero hi]
    exact ⟨hlo, hhi⟩
  · rw [hzero hi]
    exact hsize
  · omega

/-- A segment of two bytes, alone, that are the first of the file. -/
theorem sampleHeaders_readable {f : Fs} {inode vaddr : Nat}
    (hnum : ElfClass.elf64.phnum (f.fileByte inode) = 1)
    (hseg : segment (f.fileByte inode) 0 = ⟨ptLoad, 0, vaddr, 2, 2⟩)
    (hblock : f.blockNo inode 0 = 21) : Separate (f.fileByte inode) ∧
      Readable (f.fileByte inode) ∧ Present ⟨f, { inode := inode }⟩ (f.fileByte inode) := by
  refine ⟨fun i j q hij hj => by omega, fun i hi _ => ?_, fun i hi _ x hx => ?_⟩
  · rw [hnum] at hi
    rw [Nat.lt_one_iff.mp hi, hseg]
    exact ⟨rfl, .inl (Nat.zero_mod pageSize)⟩
  · rw [hnum] at hi
    rw [Nat.lt_one_iff.mp hi, hseg] at hx ⊢
    have hzero : (0 + x) / blkSize = 0 := Nat.div_eq_of_lt (by
      have hx' : x < 2 := hx
      unfold blkSize
      omega)
    show f.blockNo inode ((0 + x) / blkSize) ≠ 0
    rw [hzero, hblock]
    decide

theorem Spends.file_bind {α β : Type} {n k : Nat} {x : Act FileSt α} {f : α → Act FileSt β}
    {s : FileSt} (hx : s.fs.mm.Spends n (x s).state.fs.mm)
    (hf : ∀ a, Spends (fun s : FileSt => s.fs.mm) k (f a)) :
    s.fs.mm.Spends (n + k) ((x >>= f) s).state.fs.mm :=
  @Spends.bind_from _ _ _ (fun s : FileSt => s.fs.mm) n k x f s hx hf

/-- Up to the headers three frames are taken. -/
theorem sampleProcess_start_spends : (sampleProcess c).mm.Spends 3
    ((execLoader (frameVa 4) (frameVa 5) (kbase + pageSize * 3)).start
      ⟨(sampleProcess c).fs, {}⟩).state.fs.mm := by
  intro l hl hle hlen hst
  have hl' : FreeList (blanked (pageSize * 3) (sampleProcess c).fs).mm l := hl.congr rfl rfl rfl
  have hne : l ≠ [] := fun h => by
    rw [h] at hlen
    cases hlen
  obtain ⟨q, l', f, rfl, htook, hstarved, hwalk⟩ := sampleProcess_walk hl' hne
  have hopen : fileOpen (frameVa 4) (FileSt.setFs (blanked (pageSize * 3) (sampleProcess c).fs)
      ⟨(sampleProcess c).fs, {}⟩) = .ok 0 ⟨f, { inode := frameVa 1 + inodeSize * 1 }⟩ :=
    fileOpen_found hwalk
  have hblank : Mem.entry f.mm.mem 5 0 = 0 := by
    rw [← sampleCleared_dir]
    refine Mem.entry_congr (by decide) fun o ho => htook.mem _ fun hx => ?_
    rw [show (pageSize * 5 + o) / pageSize = 5 by unfold pageSize at *; omega] at hx
    have hz : (sampleProcess c).mm.count 5 = 0 := ((hl'.mem 5).mp hx).2
    rw [sampleProcess_count] at hz
    cases hz
  have hremove : fileFs (fsMm (removePages (frameVa 5) (turns utext ustacktop) utext))
      ⟨f, { inode := frameVa 1 + inodeSize * 1 }⟩ =
        .ok () ⟨f, { inode := frameVa 1 + inodeSize * 1 }⟩ :=
    fileFs_ok (fsMm_ok (removePages_blank (by decide) hblank (by decide)))
  have hread : Spends (fun s : FileSt => s.fs.mm) 2
      (fileRead (kbase + pageSize * 3) 128 (0 : Nat) >>= fun _ => pure ()) :=
    Spends.bind (k := 0) (fileRead_one_spends (by decide) (by decide)) fun _ => Spends.pure ()
  obtain ⟨h1, h2, l'', h3, h4⟩ := hread ⟨f, { inode := frameVa 1 + inodeSize * 1 }⟩ l' htook.free
    (by rw [htook.npages]; exact hle) (by rw [List.length_cons] at hlen; omega) hstarved
  rw [execLoader]
  dsimp only
  rw [Act.bind_ok (memset_blanked (by decide)), Act.bind_ok hopen, Act.bind_ok hremove]
  exact ⟨h1, h2, l'', h3, by rw [List.length_cons]; omega⟩

/-- A turn for a page takes a frame, two for each byte that is read, and three for tables. -/
theorem takePage_spends (phdr : Nat) (j remaining : Int) (pgdir va : Nat) :
    Spends (fun s : FileSt => s.fs.mm) (1 + 2 * u32 (min 4096 remaining) + 3)
      (takePage phdr j remaining >>= fun pp =>
        fileFs (fsMm (insertPage pgdir va pp pageFlags))) := by
  have htake : Spends (fun s : FileSt => s.fs.mm) (1 + 2 * u32 (min 4096 remaining))
      (takePage phdr j remaining) := by
    unfold takePage
    by_cases hrem : 0 ≤ remaining
    · have hcount : u32 (min 4096 remaining) < 2 ^ 31 := by
        unfold u32
        omega
      have hread : ∀ va offset, Spends (fun s : FileSt => s.fs.mm) (2 * u32 (min 4096 remaining))
          (fileRead va (u32 (min 4096 remaining)) offset) := fun va offset =>
        (fileReadLoop_spends (2 ^ 32) none hcount).mono (by rw [Nat.sub_zero])
      rw [if_pos hrem]
      exact Spends.bind (Spends.fileFs (Spends.fsMm (Spends.allocPage 0))) fun pp =>
        Spends.next (Spends.gets _) fun va =>
        Spends.next (Spends.fileFs (Spends.fsMm (Spends.load 8 _))) fun offset =>
        Spends.bind (k := 0) (hread va _) fun _ => Spends.pure pp
    · rw [if_neg hrem]
      exact (Spends.fileFs (Spends.fsMm (Spends.allocPage 1))).mono (Nat.le_add_right 1 _)
  exact Spends.bind htake fun pp => Spends.fileFs (Spends.fsMm (Spends.insertPage pgdir va pp _))

/-- The pages of a segment that has one. -/
theorem execPages_one_spends {s : FileSt} {phdr filesz : Nat} (pgdir start n : Nat)
    (hload : fileFs (fsMm (load 8 (phdr + pFileszOff))) s = .ok filesz s) (hsize : filesz ≤ 2) :
    s.fs.mm.Spends 8 (execPages pgdir phdr start (pageSize * 1) n (pageSize * 0 : Nat) s).state.fs.mm := by
  have hend : ∀ n, Spends (fun s : FileSt => s.fs.mm) 0
      (execPages pgdir phdr start (pageSize * 1) n (int32 ((pageSize * 0 : Nat) + 4096))) := fun n => by
    cases n with
    | zero => exact Spends.stop
    | succ n =>
      rw [execPages_succ, if_neg (by decide)]
      exact Spends.pure ()
  cases n with
  | zero =>
    have hstop : Spends (fun s : FileSt => s.fs.mm) 8
        (execPages pgdir phdr start (pageSize * 1) 0 (pageSize * 0 : Nat)) :=
      Spends.stop.mono (Nat.zero_le 8)
    exact hstop s
  | succ n =>
    have hcount : 2 * u32 (min 4096 (int32 (filesz - (pageSize * 0 : Nat)))) ≤ 4 := by
      have hint : int32 ((filesz : Int) - (pageSize * 0 : Nat)) = filesz := by
        rw [Nat.mul_zero, Nat.cast_zero, Int.sub_zero]
        exact int32_nat (by omega)
      rw [hint]
      unfold u32
      omega
    rw [execPages_succ, if_pos (by decide), Act.bind_ok hload]
    have hpage := (takePage_spends phdr (pageSize * 0 : Nat)
      (int32 (filesz - (pageSize * 0 : Nat))) pgdir (ptrAdd start (pageSize * 0 : Nat))).mono
      (by omega : _ ≤ 8)
    exact Spends.bind (k := 0) hpage (fun _ => hend n) s

/-- The loop over the headers, of a file that has one segment of two bytes. -/
theorem execSegments_one_spends {s : FileSt} {root : Nat → Option Nat} {pa vaddr : Nat}
    (pgdir : Nat) (helf : ElfAt s.fs.mm root pa 128 c) (hload : Loadable c)
    (hnum : ElfClass.elf64.phnum c = 1) (hseg : segment c 0 = ⟨ptLoad, 0, vaddr, 2, 2⟩) :
    s.fs.mm.Spends 8 (execSegments pgdir (kbase + (pa + ElfClass.elf64.phoff c)) (0 + 1) 0
      s).state.fs.mm := by
  have hlt : 0 < ElfClass.elf64.phnum c := by rw [hnum]; decide
  have ht : (segment c 0).type = ptLoad := by rw [hseg]
  have hsize : (segment c 0).filesz ≤ 2 := by rw [hseg]
  have hpages : ((segment c 0).memsz + pageSize - 1) / pageSize = 1 := by
    rw [hseg]
    show (2 + pageSize - 1) / pageSize = 1
    decide
  have hfilesz : fileFs (fsMm (load 8 (kbase + (pa + ElfClass.elf64.phoff c) + phdrSize * 0 +
      pFileszOff))) s = .ok (segment c 0).filesz s :=
    helf.fileField (Spared.refl _) hlt 8 pFileszOff (by decide) (by decide)
  have hdone : ∀ phdrs, execSegments pgdir phdrs 0 (0 + 1) = pure () := fun _ => rfl
  rw [execSegments_load helf (Spared.refl _) hload hlt ht, hpages, hdone]
  exact Spends.file_bind (k := 0) (execPages_one_spends _ _ _ hfilesz hsize) fun _ =>
    Spends.pure ()

/-- What comes after the loads: a page for the stack. -/
theorem execFinish_spends (filename pgdir binary : Nat) : Spends (fun s : FileSt => s.fs.mm) 4
    ((execLoader filename pgdir binary).finish >>= fun entry => pure (some entry)) :=
  Spends.bind (k := 0) (Spends.bind (n := 1) (k := 3)
    (Spends.fileFs (Spends.fsMm (Spends.allocPage 1))) fun pp =>
      Spends.bind (k := 0) (Spends.fileFs (Spends.fsMm (Spends.insertPage _ _ pp _))) fun _ =>
        Spends.fileFs (Spends.fsMm (Spends.load 8 _))) fun _ => Spends.pure _

theorem KState.enter_spends (k : KState) (p cr3 : Nat) : k.mm.Spends 0 (k.enter p cr3).mm :=
  Spends.of_same rfl rfl rfl rfl

/-- What `sys_execve` does with the registers takes no frame. -/
theorem sysExecve_spends {k : KState} {p pgdir filename binary n : Nat} {pfile : File}
    (hp : k.current = some p) (hdir : (k.procs p).pgdir = pgdir)
    (h : k.mm.Spends n (execLoad filename pgdir binary ⟨k.fs, pfile⟩).state.fs.mm) :
    k.mm.Spends n (sysExecve binary pfile filename k).state.mm := by
  have hlocal : k.mm.Spends n (onLocalFile pfile (execLoad filename pgdir binary) k).state.mm := by
    rw [onLocalFile, Act.zoom_state]
    exact h
  unfold sysExecve
  rw [Act.bind_ok (currentProc_ok hp), Act.gets_bind_apply, hdir]
  refine @Spends.bind_from _ _ _ (fun k : KState => k.mm) n 0 _ _ k hlocal fun o => ?_
  cases o with
  | none => exact Spends.pure _
  | some entry =>
    refine Spends.next (Spends.modify fun _ => rfl) fun _ => Spends.next (fun k => ?_) fun _ =>
      Spends.pure _
    rw [runProc_ok, Res.state_ok]
    exact KState.enter_spends k p _

/-- Twelve frames more are enough for the file. -/
theorem sysExecve_one_spends {k : KState} {root : Nat → Option Nat} {kdir p g pa n : Nat}
    {filename inode vaddr : Nat} {f : Fs} {pfile : File} {s₀ : FileSt}
    (hc : Caller k root kdir p g pa 128) (hpa : pa + 128 < 2 ^ 31)
    (hbuf : ∀ i, i < 128 → k.mm.Plain root ((pa + i) / pageSize))
    (hrun : (execLoader filename (frameVa g) (kbase + pa)).start ⟨k.fs, pfile⟩ = .ok () s₀)
    (hst : Started k root kdir p g pa f inode s₀) (hstart : k.mm.Spends n s₀.fs.mm)
    (hload : Loadable (f.fileByte inode)) (hfile : ElfFile (f.fileByte inode))
    (hnum : ElfClass.elf64.phnum (f.fileByte inode) = 1)
    (hseg : segment (f.fileByte inode) 0 = ⟨ptLoad, 0, vaddr, 2, 2⟩) :
    k.mm.Spends (n + 12) (sysExecve (kbase + pa) pfile filename k).state.mm := by
  obtain ⟨c', hc'⟩ : ∃ c', c' = f.fileByte inode := ⟨_, rfl⟩
  have hbytes := hst.bytes
  rw [← hc'] at hload hfile hnum hseg hbytes
  have helf : ElfAt s₀.fs.mm root pa 128 c' := ⟨hpa, hbytes,
    fun i hi => (hst.spared _ (hbuf i hi)).1, hfile.magic, by decide, hfile.headers⟩
  have hphdrs : (kbase + pa + ElfClass.elf64.phoff c') % 2 ^ ElfClass.elf64.bits =
      kbase + (pa + ElfClass.elf64.phoff c') :=
    helf.phdrs (by rw [hnum]; exact Nat.one_ne_zero)
  have hsegs := execSegments_one_spends (frameVa g) helf hload hnum hseg
  have hrest := Spends.file_bind hsegs fun _ => execFinish_spends filename (frameVa g) (kbase + pa)
  have hexec : k.mm.Spends (n + 12)
      (execLoad filename (frameVa g) (kbase + pa) ⟨k.fs, pfile⟩).state.fs.mm := by
    have hparse := run_parse (k := .elf64) hrun (execLoader_holds (Nat.le_of_lt hpa) hbytes)
    rw [← execLoader_run, hparse.2 hfile.magic, execLoader_headers, hnum, hphdrs]
    exact hstart.trans hrest
  exact sysExecve_spends hc.current hc.pgdir hexec

/-- Fifteen frames are enough for the file, and sixteen are free. -/
theorem sampleProcess_served {f : Fs} {vaddr : Nat}
    (hfound : Found (sampleProcess c) sampleProcessRoot (pageSize * 3) (frameVa 4)
      (frameVa 1 + inodeSize * 1) f)
    (hload : Loadable (f.fileByte (frameVa 1 + inodeSize * 1)))
    (hfile : ElfFile (f.fileByte (frameVa 1 + inodeSize * 1)))
    (hnum : ElfClass.elf64.phnum (f.fileByte (frameVa 1 + inodeSize * 1)) = 1)
    (hseg : segment (f.fileByte (frameVa 1 + inodeSize * 1)) 0 = ⟨ptLoad, 0, vaddr, 2, 2⟩) :
    (sysExecve (kbase + pageSize * 3) {} (frameVa 4) (sampleProcess c)).state.mm.starved
      = false := by
  have hstart := sampleProcess_start_spends (c := c)
  have hn : (sampleProcess c).mm.npages ≤ 2 ^ 19 := (by decide : 24 ≤ 2 ^ 19)
  have hserved : ((execLoader (frameVa 4) (frameVa 5) (kbase + pageSize * 3)).start
      ⟨(sampleProcess c).fs, {}⟩).state.starved = false := by
    rw [FileSt.starved, Fs.starved]
    exact (hstart _ (sampleProcess_list c) hn (by decide) rfl).1
  obtain ⟨s₀, hrun, hst⟩ := execStart_run sampleProcess_caller rfl sampleProcess_buffer hfound
    hserved
  rw [hrun, Res.state_ok] at hstart
  have hspends := sysExecve_one_spends sampleProcess_caller (by decide) sampleProcess_buffer hrun
    hst hstart hload hfile hnum hseg
  exact (hspends _ (sampleProcess_list c) hn (by decide) rfl).1

/-- The second byte of the segment is on a page that is not mapped. -/
theorem execve_unmapped : ¬ ∀ (k : KState) (root : Nat → Option Nat)
    (kdir p g pa filename inode : Nat) (f : Fs) (pfile : File), Caller k root kdir p g pa 128 →
    k.mm.cr3 = pageSize * g → pa + 128 < 2 ^ 31 →
    (∀ i, i < 128 → k.mm.Plain root ((pa + i) / pageSize)) →
    Found k root pa filename inode f → ElfFile (f.fileByte inode) →
    Present ⟨f, { inode := inode }⟩ (f.fileByte inode) →
    (sysExecve (kbase + pa) pfile filename k).state.mm.starved = false →
    ∃ k', sysExecve (kbase + pa) pfile filename k = .ok (.run p) k' ∧
      ExecDone root p pa (f.fileByte inode) k.mm k'.mm := by
  intro h
  obtain ⟨hm, hoff, hnum, hseg⟩ := sampleLoad_late
  obtain ⟨f, hfound, hblock, hbytes⟩ := sampleProcess_found (c := sampleLoad (utext + 4095) 2 2)
  obtain ⟨hm', hoff', hnum', hseg'⟩ := sampleHeaders hbytes hm hoff hnum hseg
  have hfile := sampleHeaders_file hm' hoff' hnum' hseg' (by decide) (by decide) (by decide)
  obtain ⟨hsep, hread, hpres⟩ := sampleHeaders_readable hnum' hseg' hblock
  have hload := hfile.loadable_separate hsep hread
  have hns := sampleProcess_served hfound hload hfile hnum' hseg'
  obtain ⟨k', hrun, hdone⟩ := h _ _ 6 0 5 _ _ _ f {} sampleProcess_caller rfl (by decide)
    sampleProcess_buffer hfound hfile hpres hns
  obtain ⟨k'', hrun', hloaded⟩ := sysExecve_run sampleProcess_caller rfl (by decide)
    sampleProcess_buffer hfound hfile.magic hfile.headers hload hpres hns
  rw [hrun] at hrun'
  injection hrun' with _ hk
  rw [← hk] at hloaded
  have hlt : 0 < ElfClass.elf64.phnum
      (f.fileByte (frameVa 1 + inodeSize * 1)) := by
    rw [hnum']
    decide
  have hcov := (hloaded.shifted hfile hsep hread hdone.loads hlt (by rw [hseg'])).1
  rw [hseg'] at hcov
  exact absurd hcov (by decide)

/-- A segment at the start of a page is loaded. -/
theorem execve_aligned : ∃ f k', Found (sampleProcess (sampleLoad utext 2 2)) sampleProcessRoot
      (pageSize * 3) (frameVa 4) (frameVa 1 + inodeSize * 1) f ∧
    sysExecve (kbase + pageSize * 3) {} (frameVa 4) (sampleProcess (sampleLoad utext 2 2)) =
      .ok (.run 0) k' ∧
    ExecDone sampleProcessRoot 0 (pageSize * 3) (f.fileByte (frameVa 1 + inodeSize * 1))
      (sampleProcess (sampleLoad utext 2 2)).mm k'.mm := by
  obtain ⟨hm, hoff, hnum, hseg⟩ := sampleLoad_early
  obtain ⟨f, hfound, hblock, hbytes⟩ := sampleProcess_found (c := sampleLoad utext 2 2)
  obtain ⟨hm', hoff', hnum', hseg'⟩ := sampleHeaders hbytes hm hoff hnum hseg
  have hfile := sampleHeaders_file hm' hoff' hnum' hseg' (by decide) (by decide) (by decide)
  obtain ⟨hsep, hread, hpres⟩ := sampleHeaders_readable hnum' hseg' hblock
  have hns := sampleProcess_served hfound (hfile.loadable_separate hsep hread) hfile hnum' hseg'
  obtain ⟨k', hrun, hdone⟩ := (execve_loads sampleProcess_caller rfl (by decide)
    sampleProcess_buffer hfound hfile hpres hns).1 fun i hi _ => by
      rw [hnum'] at hi
      rw [Nat.lt_one_iff.mp hi, hseg']
      decide
  exact ⟨f, k', hfound, hrun, hdone⟩

end Sample

end Myos.Kernel
