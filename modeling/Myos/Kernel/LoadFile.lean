import Myos.Kernel.Failing
import Myos.Kernel.LoadImage

/-!
# The program of a file

`sys_execve` takes a frame for every page of a segment, reads what there is of
the page in the file to the start of the frame, and maps it. The reads start at
the segment's offset, wherever in a page its first byte belongs; nothing puts
noughts behind them; and a read that is not whole goes past its end, out of the
frame if there is no room for the rest of a block.

What holds, then, of a segment that starts with a page, is all in the file and
is read into its frames: its bytes are those of the file. Everything else that
is in use stays (`Spared`, `Elsewhere`).
-/

namespace Myos.Kernel

open Myos.Lib

/-! ## What stays -/

/-- The kernel's own frames stay as they are, but for the bytes of `B`. -/
def SparedBut (root : Nat → Option Nat) (B : Nat → Prop) (s s' : Mm) : Prop :=
  ∀ f, s.Plain root f → s'.Plain root f ∧ ∀ o, o < pageSize → ¬ B (pageSize * f + o) →
    s'.mem (pageSize * f + o) = s.mem (pageSize * f + o)

section SparedBut

variable {root : Nat → Option Nat} {B : Nat → Prop} {a b c : Mm}

theorem Spared.but (h : Spared root a b) (B : Nat → Prop) : SparedBut root B a b := fun f hf =>
  ⟨(h f hf).1, fun o ho _ => (h f hf).2 o ho⟩

theorem SparedBut.trans (h : SparedBut root B a b) (h' : SparedBut root B b c) :
    SparedBut root B a c := fun f hf => by
  obtain ⟨hb, hbytes⟩ := h f hf
  obtain ⟨hc, hbytes'⟩ := h' f hb
  exact ⟨hc, fun o ho hB => (hbytes' o ho hB).trans (hbytes o ho hB)⟩

end SparedBut

namespace Vm

variable {s s' : Mm} {root : Nat → Option Nat} {kdir : Nat} {held : Finset Nat}
variable {B : Nat → Prop} {p g q k : Nat} {l : List Nat}

/-- The kernel's own frames are filled only where they are aside. -/
theorem sparedBut_filled (h : Vm s root kdir held) (haside : Aside s.mem root kdir B)
    (hl : FreeList s l) (hfill : Mm.Filled B l s s') : SparedBut root B s s' := by
  intro k hk
  obtain ⟨-, huntouched⟩ := h.filled haside hl hfill
  obtain ⟨l', -, -, hn, -, hmem, hcount⟩ := hfill
  have hkl : k ∉ l := fun hkl => hk.used ((hl.mem k).mp hkl)
  refine ⟨⟨fun hf => hk.used ⟨hn ▸ hf.1, (hcount k hkl).symm.trans hf.2⟩,
    fun ht => hk.table ((huntouched.table k).mp ht),
    (userRefs_congr fun p va _ hva => huntouched.leaf hva.lt).trans hk.refs⟩, fun o ho hB => ?_⟩
  refine hmem _ (fun hx => hkl ?_) hB
  rwa [Nat.mul_add_div (by decide), Nat.div_eq_of_lt ho, Nat.add_zero] at hx

/-- A page that is taken away spares the kernel's own frames. -/
theorem removePage_spared {va f : Nat} {o : Int} (h : Vm s root kdir ∅) (hroot : root p = some g)
    (hva : UserVa va) (hf : target (leaf s.mem root p va) = some f)
    (hrun : removePage (frameVa g) va s = .ok o s') : Spared root s s' := by
  have hunmaps := removePage_unmaps h hroot hva hf hrun
  obtain ⟨s₁, hrun₁, -, -, -, -, -, hrefs, hbytes⟩ := h.remove hroot hva hf (Finset.notMem_empty f)
  have hs' : s' = s₁ := by
    rw [hrun] at hrun₁
    injection hrun₁
  subst hs'
  intro k hk
  have hrefs' : userRefs s'.mem root k = 0 := by rw [hrefs, hk.refs, Nat.zero_sub]
  have hcount := hunmaps.count k
  rw [hk.refs, hrefs'] at hcount
  refine ⟨⟨fun hfree => hk.used ⟨hunmaps.npages ▸ hfree.1, ?_⟩,
    fun ht => hk.table ((hunmaps.table k).mp ht), hrefs'⟩, fun o ho => hbytes k o hk.table ho⟩
  have hz := hfree.2
  omega

/-- The other processes keep their pages, and see what they saw. -/
structure Elsewhere (root : Nat → Option Nat) (p : Nat) (s s' : Mm) : Prop where
  leaf : ∀ {p' va}, p' ≠ p → UserVa va →
    leaf s'.mem root p' va = Myos.Kernel.leaf s.mem root p' va
  view : ∀ {p' va}, p' ≠ p → UserVa va →
    view s'.mem root p' va = Myos.Kernel.view s.mem root p' va

namespace Elsewhere

variable {a b c : Mm}

theorem refl (s : Mm) : Elsewhere root p s s := ⟨fun _ _ => rfl, fun _ _ => rfl⟩

theorem trans (h : Elsewhere root p a b) (h' : Elsewhere root p b c) : Elsewhere root p a c :=
  ⟨fun hp hva => (h'.leaf hp hva).trans (h.leaf hp hva),
    fun hp hva => (h'.view hp hva).trans (h.view hp hva)⟩

end Elsewhere

theorem Untouched.elsewhere (h : Untouched root s s') : Elsewhere root p s s' :=
  ⟨fun _ hva => h.leaf hva.lt, fun _ hva => h.view hva⟩

theorem RemovedTo.elsewhere {addr : Nat} (h : RemovedTo root kdir p s s' addr) :
    Elsewhere root p s s' := ⟨h.leaf, h.view⟩

theorem MapsPage.elsewhere {va : Nat} {data : Nat → UInt8}
    (h : MapsPage root kdir p va q data s s') : Elsewhere root p s s' :=
  ⟨fun hp hva => by rw [h.leaf hva, if_neg fun hk => hp hk.1],
    fun hp hva => by rw [h.view hva, if_neg fun hk => hp hk.1]⟩

/-! ## A frame that is filled -/

/-- The frame that was taken is filled. -/
theorem InHand.filled {s₁ s₂ : Mm} (h : InHand root kdir q s s₁) (hl : FreeList s₁ l)
    (hfill : Mm.Filled (fun x => x / pageSize = q) l s₁ s₂) : InHand root kdir q s s₂ := by
  obtain ⟨-, htable, hk, -⟩ := h.vm.held_frame (Finset.mem_insert_self q ∅)
  have haside : Aside s₁.mem root kdir fun x => x / pageSize = q := fun x hx => by
    rw [hx]
    exact ⟨htable, hk, h.refs⟩
  obtain ⟨hvm, huntouched⟩ := h.vm.filled haside hl hfill
  refine ⟨hvm, ?_, h.free, ?_, fun k hplain => ?_, fun hva => ?_, fun hva => ?_⟩
  · obtain ⟨-, -, -, -, hcr3, -⟩ := hfill
    exact hcr3.trans h.cr3
  · rw [← h.refs]
    exact userRefs_congr fun p va _ hva => huntouched.leaf hva.lt
  · obtain ⟨hkq, hplain₁, hbytes⟩ := h.spared k hplain
    obtain ⟨hplain₂, hbytes'⟩ := h.vm.sparedBut_filled haside hl hfill k hplain₁
    refine ⟨hkq, hplain₂, fun o ho => (hbytes' o ho fun hB => hkq ?_).trans (hbytes o ho)⟩
    have hframe : (pageSize * k + o) / pageSize = q := hB
    rwa [Nat.mul_add_div (by decide), Nat.div_eq_of_lt ho, Nat.add_zero] at hframe
  · rw [huntouched.leaf hva.lt, h.leaf hva]
  · rw [huntouched.view hva, h.view hva]

end Vm

/-! ## The file -/

/-- The file that is open: its inode is the kernel's own, and its bytes are `c`. -/
structure OpenAt (s : FileSt) (root : Nat → Option Nat) (c : Mem) : Prop where
  lo : kbase ≤ s.file.inode
  hi : s.file.inode - kbase + inodeSize ≤ 2 ^ 31
  plain : ∀ x, s.file.inode - kbase ≤ x → x < s.file.inode - kbase + inodeSize →
    s.fs.mm.Plain root (x / pageSize)
  bytes : ∀ x, c x = s.fs.fileByte s.file.inode x

section File

variable {s s₀ s₁ : FileSt} {root : Nat → Option Nat} {kdir p g q : Nat} {c : Mem} {l : List Nat}

/-- It stays so while the kernel's own frames stay. -/
theorem OpenAt.spared (h : OpenAt s₀ root c) (hsp : Spared root s₀.fs.mm s.fs.mm)
    (hrest : s.fs = Fs.setMm s.fs.mm s₀.fs) (hinode : s.file.inode = s₀.file.inode) :
    OpenAt s root c ∧ ∀ b, s.fs.blockNo s.file.inode b = s₀.fs.blockNo s₀.file.inode b := by
  have hdisk : s.fs.disk = s₀.fs.disk := by rw [hrest]; rfl
  have hmap : ∀ b, s.fs.blockNo s.file.inode b = s₀.fs.blockNo s₀.file.inode b := fun b => by
    rw [hinode]
    exact Fs.blockNo_congr h.lo hdisk (fun x h1 h2 => hsp.byte (h.plain x h1 h2)) b
  refine ⟨⟨hinode ▸ h.lo, hinode ▸ h.hi, fun x h1 h2 => ?_, fun x => ?_⟩, hmap⟩
  · rw [hinode] at h1 h2
    exact (hsp _ (h.plain x h1 h2)).1
  · rw [h.bytes, Fs.fileByte, Fs.fileByte, Fs.fileAddr, Fs.fileAddr, hmap, hdisk]

theorem OpenAt.kept (h : OpenAt s root c) (hl : FreeList s.fs.mm l) :
    Kept l s.file.inode inodeSize :=
  ⟨h.lo, h.hi, fun x h1 h2 hx => (h.plain x h1 h2).used ((hl.mem _).mp hx)⟩

/-- A free frame holds nothing of the inode. -/
theorem OpenAt.clear (h : OpenAt s root c) (hq : s.fs.mm.Free q) {n : Nat} (hn : n ≤ pageSize) :
    Clear s.file.inode inodeSize (fun i => pageSize * q + i) n := by
  intro i hi
  by_contra hin
  rw [not_or, Nat.not_lt, Nat.not_le] at hin
  have hplain := h.plain _ hin.1 hin.2
  rw [Nat.mul_add_div (by decide), Nat.div_eq_of_lt (by omega), Nat.add_zero] at hplain
  exact hplain.used hq

theorem le_span (o count : Nat) : count ≤ span o count := by
  unfold span
  split
  · exact Nat.le_refl count
  · exact Nat.le_add_left _ _

/-- STEP: what the file has at `o` is read to a frame that was just taken. -/
theorem OpenAt.read (h : OpenAt s root c) (hvm : Vm s.fs.mm root kdir ∅)
    (hq : s.fs.mm.phead = some q) {o count : Nat} (hlt : 0 < count) (hcount : count ≤ blkSize)
    (hpos : o + count < 2 ^ 30) (hspan : span o count ≤ pageSize)
    (hb : ∀ i, i < count → s.fs.blockNo s.file.inode ((o + i) / blkSize) ≠ 0)
    (hs₁ : s₁ = FileSt.setFs (Fs.setMm (s.fs.mm.taken 0 q) s.fs) s)
    (hns : (fileRead (frameVa q) count o s₁).state.starved = false) :
    ∃ r s', fileRead (frameVa q) count o s₁ = .ok r s' ∧
      Vm.InHand root kdir q s.fs.mm s'.fs.mm ∧ s'.fs = Fs.setMm s'.fs.mm s.fs ∧
      s'.file.inode = s.file.inode ∧
      ∀ i, i < count → s'.fs.mm.mem (pageSize * q + i) = c (o + i) := by
  have hhand := hvm.inHand_taken hq 0
  have hmm : s₁.fs.mm = s.fs.mm.taken 0 q := by rw [hs₁]; rfl
  have hrest : s₁.fs = Fs.setMm s₁.fs.mm s.fs := by rw [hs₁]; rfl
  have hinode : s₁.file.inode = s.file.inode := by rw [hs₁]; rfl
  rw [← hmm] at hhand
  obtain ⟨h₁, hmap⟩ := h.spared (s := s₁) (fun k hk => (hhand.spared k hk).2) hrest hinode
  obtain ⟨l, hl⟩ := hhand.vm.tables.list
  have hn := hhand.vm.tables.small
  have hq' : q < 2 ^ 19 := hvm.frame_lt hhand.free.1
  have hql : q ∉ l := fun hql => by
    obtain ⟨h1, h2⟩ := (hl.mem q).mp hql
    exact hhand.vm.held_not_free (Finset.mem_insert_self q ∅) ⟨h1, h2⟩
  have htarget : Target s₁.fs.mm l (frameVa q) (span o count) fun i => pageSize * q + i := by
    refine ⟨fun m _ i hi => Mm.kpa_frameVa hq' (by omega), fun i j _ _ h => by omega,
      fun i hi => ?_⟩
    rwa [Nat.mul_add_div (by decide), Nat.div_eq_of_lt (by omega), Nat.add_zero]
  have hclear : Clear s₁.file.inode inodeSize (fun i => pageSize * q + i) (span o count) := by
    rw [hinode]
    exact h.clear hhand.free hspan
  obtain ⟨s', l', hrun, hread⟩ := fileRead_span hl hn (h₁.kept hl) hlt hcount hpos
    (fun i hi => by rw [hmap]; exact hb i hi) htarget hclear hns
  have hcalm : Calm (fun x => x / pageSize = q) (fun s : FileSt => s.fs.mm)
      (fileRead (frameVa q) count o) := by
    refine Calm.fileRead_span hlt hcount hpos ?_ fun x h1 h2 => ?_
    · unfold pageSize at *
      omega
    · unfold pageSize at *
      omega
  have hfill := hcalm s₁
  rw [hrun, Res.state_ok] at hfill hns
  refine ⟨_, s', hrun, hhand.filled hl (hfill.served hns l hl hn), ?_, ?_, fun i hi => ?_⟩
  · rw [hread.rest, hrest]
    rfl
  · rw [hread.file]
    exact hinode
  · rw [hread.bytes i (Nat.lt_of_lt_of_le hi (le_span o count)), FileSt.bytesFrom, ← h₁.bytes]

end File

/-! ## A page of a segment -/

/-- What `sys_execve` does for a page before it maps it: `j` is where in the segment
the page begins, and `remaining` what the file has from there on. -/
def takePage (phdr : Nat) (j remaining : Int) : Act FileSt (Option Nat) :=
  if 0 ≤ remaining then do
    let pp ← fileFs (fsMm (allocPage 0))
    let va ← Act.gets fun s => s.fs.mm.page2va pp
    let offset ← fileFs (fsMm (load 8 (phdr + pOffsetOff)))
    let _ ← fileRead va (u32 (min 4096 remaining)) (int32 (offset + j))
    pure pp
  else fileFs (fsMm (allocPage 1))

/-- A turn of the loop over the pages. -/
theorem execPages_succ (pgdir phdr start memsz n : Nat) (j : Int) :
    execPages pgdir phdr start memsz (n + 1) j =
      if (j % 2 ^ 64).toNat < memsz then
        fileFs (fsMm (load 8 (phdr + pFileszOff))) >>= fun filesz =>
          (takePage phdr j (int32 (filesz - j)) >>= fun pp =>
            fileFs (fsMm (insertPage pgdir (ptrAdd start j) pp pageFlags))) >>= fun _ =>
          execPages pgdir phdr start memsz n (int32 (j + 4096))
      else pure () := by
  rw [execPages]
  split
  · refine congrArg _ (funext fun filesz => ?_)
    unfold takePage
    by_cases hrem : 0 ≤ int32 (filesz - j)
    · simp only [if_pos hrem, Act.bind_assoc, Act.pure_bind]
      rfl
    · simp only [if_neg hrem, Act.bind_assoc]
      rfl
  · rfl

theorem fileRead_starves (buf count : Nat) (offset : Int) :
    Act.Within (Act.Raises FileSt.starved) (fileRead buf count offset) :=
  fileReadLoop_starves _ _ _ _ _ _

theorem insertPage_file_starves (pgdir va : Nat) (pp : Option Nat) (flag : Nat) :
    Act.Within (Act.Raises FileSt.starved) (fileFs (fsMm (insertPage pgdir va pp flag))) :=
  fileFs_starves (fsMm_starves (insertPage_starves pgdir va pp flag))

theorem load_file_starves (n va : Nat) :
    Act.Within (Act.Raises FileSt.starved) (fileFs (fsMm (load n va))) :=
  fileFs_starves (fsMm_starves (Starves.load n va))

theorem allocPage_file_starves (flags : Nat) :
    Act.Within (Act.Raises FileSt.starved) (fileFs (fsMm (allocPage flags))) :=
  fileFs_starves (fsMm_starves (Starves.allocPage flags))

theorem takePage_starves (phdr : Nat) (j remaining : Int) :
    Act.Within (Act.Raises FileSt.starved) (takePage phdr j remaining) := by
  unfold takePage
  split
  · exact Act.Raises.bind (allocPage_file_starves 0) fun pp => Act.Raises.bind (Act.Raises.gets _)
      fun va => Act.Raises.bind (load_file_starves 8 _) fun offset =>
        Act.Raises.bind (fileRead_starves va _ _) fun _ => Act.Raises.pure _
  · exact allocPage_file_starves 1

theorem execPages_starves (pgdir phdr start memsz n : Nat) (j : Int) :
    Act.Within (Act.Raises FileSt.starved) (execPages pgdir phdr start memsz n j) := by
  induction n generalizing j with
  | zero => exact Act.Within.stop Act.Raises.refl
  | succ n ih =>
    rw [execPages_succ]
    split
    · exact Act.Raises.bind (load_file_starves 8 _) fun filesz =>
        Act.Raises.bind (Act.Raises.bind (takePage_starves phdr j _) fun pp =>
          insertPage_file_starves _ _ pp _) fun _ => ih _
    · exact Act.Raises.pure _

/-- The address space of `p` in the course of loading, and the open file. -/
structure Filling (root : Nat → Option Nat) (kdir p g : Nat) (s₀ s : FileSt) (done : Nat → Prop) :
    Prop where
  loading : Loading root kdir p g s₀.fs.mm s.fs.mm done
  elsewhere : Vm.Elsewhere root p s₀.fs.mm s.fs.mm
  rest : s.fs = Fs.setMm s.fs.mm s₀.fs
  inode : s.file.inode = s₀.file.inode

section Pages

variable {root : Nat → Option Nat} {kdir p g q pb va : Nat} {c : Mem} {s₀ s s₁ : FileSt} {m : Mm}
variable {done : Nat → Prop}

theorem Filling.congr {done' : Nat → Prop} (h : Filling root kdir p g s₀ s done)
    (heq : ∀ q, done' q ↔ done q) : Filling root kdir p g s₀ s done' :=
  ⟨h.loading.congr heq, h.elsewhere, h.rest, h.inode⟩

/-- A page is added. -/
theorem Filling.maps {data : Nat → UInt8} (h : Filling root kdir p g s₀ s done)
    (hnew : ¬ done (va / pageSize)) (hmaps : Vm.MapsPage root kdir p va q data s.fs.mm m)
    (hmm : s₁.fs = Fs.setMm m s.fs) (hinode : s₁.file.inode = s.file.inode) :
    Filling root kdir p g s₀ s₁ (fun x => done x ∨ x = va / pageSize) ∧
      Loading.Keeps root p done s.fs.mm s₁.fs.mm := by
  have hm : s₁.fs.mm = m := by rw [hmm]; rfl
  obtain ⟨hload, hkeep⟩ := h.loading.maps hnew hmaps
  rw [← hm] at hload hkeep hmaps
  refine ⟨⟨hload, h.elsewhere.trans hmaps.elsewhere, ?_, hinode.trans h.inode⟩, hkeep⟩
  rw [hmm, h.rest]
  rfl

/-- A field of a program header. -/
theorem ElfAt.fileField (helf : ElfAt s₀.fs.mm root pb 128 c)
    (hsp : Spared root s₀.fs.mm s.fs.mm) {i : Nat} (hi : i < ElfClass.elf64.phnum c) (k off : Nat)
    (hk : 0 < k) (hoff : off + k ≤ phdrSize) :
    fileFs (fsMm (Myos.Kernel.load k (kbase + (pb + ElfClass.elf64.phoff c) + phdrSize * i + off))) s =
      .ok (Mem.rd k c (phdrOff c i + off)) s :=
  fileFs_ok (fsMm_ok (helf.field hsp hi k off hk hoff))

/-- A byte of the page that starts at an address. -/
theorem page_add {x : Nat} (hpage : va % pageSize = 0) (hx : x < pageSize) :
    (va + x) / pageSize = va / pageSize ∧ (va + x) % pageSize = x := by
  unfold pageSize at *
  omega

/-- STEP: a page of a segment is taken, read and mapped. -/
theorem Filling.readPage (h : Filling root kdir p g s₀ s done) (hopen : OpenAt s₀ root c)
    (helf : ElfAt s₀.fs.mm root pb 128 c) (hroot : root p = some g) {i : Nat}
    (hi : i < ElfClass.elf64.phnum c) {j count : Nat} (hlt : 0 < count)
    (hcount : count ≤ pageSize) (hpos : (segment c i).offset + j + count < 2 ^ 30)
    (hspan : span ((segment c i).offset + j) count ≤ pageSize)
    (hb : ∀ x, x < count →
      s₀.fs.blockNo s₀.file.inode (((segment c i).offset + j + x) / blkSize) ≠ 0)
    {remaining : Int} (hrem : min 4096 remaining = count) (hva : UserVa va)
    (hpage : va % pageSize = 0) (hnew : ¬ done (va / pageSize))
    (hns : ((takePage (kbase + (pb + ElfClass.elf64.phoff c) + phdrSize * i) j remaining >>= fun pp =>
      fileFs (fsMm (insertPage (frameVa g) va pp pageFlags))) s).state.starved
        = false) :
    ∃ s', (takePage (kbase + (pb + ElfClass.elf64.phoff c) + phdrSize * i) j remaining >>= fun pp =>
        fileFs (fsMm (insertPage (frameVa g) va pp pageFlags))) s = .ok 0 s' ∧
      Filling root kdir p g s₀ s' (fun x => done x ∨ x = va / pageSize) ∧
      Loading.Keeps root p done s.fs.mm s'.fs.mm ∧
      ∀ x, x < count → view s'.fs.mm.mem root p (va + x) = c ((segment c i).offset + j + x) := by
  obtain ⟨o, ho⟩ : ∃ o, o = (segment c i).offset + j := ⟨_, rfl⟩
  rw [← ho] at hpos hspan hb ⊢
  have hcount' : count ≤ blkSize := hcount
  -- a frame is taken
  have htake := Act.Raises.of_bind (fun pp => insertPage_file_starves (frameVa g) va pp _) hns
  unfold takePage at hns htake ⊢
  rw [if_pos (by omega)] at hns htake ⊢
  have halloc := Act.Raises.of_bind (fun pp => Act.Raises.bind (Act.Raises.gets _)
    fun va => Act.Raises.bind (load_file_starves 8 _) fun offset =>
      Act.Raises.bind (fileRead_starves va _ _) fun _ => Act.Raises.pure pp) htake
  rw [fileFs, fsMm, FileSt.starved, Act.zoom_state, Fs.starved, FileSt.setFs, Act.zoom_state] at halloc
  obtain ⟨q, hq⟩ := Starves.head_of_allocPage halloc
  have hvm := h.loading.vm
  have hhand := hvm.inHand_taken hq 0
  have hq' := hvm.frame_lt hhand.free.1
  obtain ⟨s₁, hs₁⟩ : ∃ s₁, s₁ = FileSt.setFs (Fs.setMm (s.fs.mm.taken 0 q) s.fs) s := ⟨_, rfl⟩
  have hmm₁ : s₁.fs.mm = s.fs.mm.taken 0 q := by rw [hs₁]; rfl
  have halloc' : fileFs (fsMm (allocPage 0)) s = .ok (some q) s₁ := by
    rw [hs₁]
    exact fileFs_ok (fsMm_ok (allocPage_some hq hq'))
  have hload : fileFs (fsMm (load 8 (kbase + (pb + ElfClass.elf64.phoff c) + phdrSize * i +
      pOffsetOff))) s₁ = .ok (segment c i).offset s₁ := by
    refine fileFs_ok (fsMm_ok (helf.field (s := s₁.fs.mm) (h.loading.spared.trans fun k hk => ?_) hi
      8 pOffsetOff (by decide) (by decide)))
    rw [hmm₁]
    exact (hhand.spared k hk).2
  have hva' : s₁.fs.mm.page2va (some q) = frameVa q := Mm.page2va_some hq'
  have hu32 : u32 (min 4096 remaining) = count := by
    rw [hrem]
    exact u32_nat (by omega)
  have hint : int32 ((segment c i).offset + (j : Int)) = o := by
    rw [← Nat.cast_add, ← ho]
    exact int32_nat (by omega)
  rw [Act.bind_assoc, Act.bind_ok halloc', Act.bind_assoc, Act.gets_bind_apply, hva',
    Act.bind_assoc, Act.bind_ok hload, hu32, hint, Act.bind_assoc] at hns ⊢
  -- and filled
  obtain ⟨hopen', hmap⟩ := hopen.spared h.loading.spared h.rest h.inode
  have hread := Act.Raises.of_bind (fun r : Int => insertPage_file_starves (frameVa g) va (some q) _)
    hns
  obtain ⟨r, s₂, hrun, hhand₂, hrest, hinode, hbytes⟩ := hopen'.read hvm hq hlt hcount' hpos hspan
    (fun x hx => by rw [hmap]; exact hb x hx) hs₁ hread
  rw [Act.bind_ok hrun, Act.pure_bind] at hns ⊢
  -- and mapped
  have hins : (insertPage (frameVa g) va (some q) pageFlags s₂.fs.mm).state.starved = false := by
    rwa [fileFs, fsMm, FileSt.starved, Act.zoom_state, Fs.starved, FileSt.setFs, Act.zoom_state]
      at hns
  obtain ⟨m, hmap', hmaps⟩ := hhand₂.map hroot hva (h.loading.empty hva hnew) hins
  obtain ⟨s₃, hs₃⟩ : ∃ s₃, s₃ = FileSt.setFs (Fs.setMm m s₂.fs) s₂ := ⟨_, rfl⟩
  have hrun₃ : fileFs (fsMm (insertPage (frameVa g) va (some q) pageFlags)) s₂ = .ok 0 s₃ := by
    rw [hs₃]
    exact fileFs_ok (fsMm_ok hmap')
  have hfs₃ : s₃.fs = Fs.setMm m s.fs := by
    rw [hs₃]
    show Fs.setMm m s₂.fs = _
    rw [hrest]
    rfl
  have hinode₃ : s₃.file.inode = s.file.inode := by
    rw [hs₃]
    exact hinode
  obtain ⟨hfill, hkeep⟩ := h.maps hnew hmaps hfs₃ hinode₃
  refine ⟨s₃, hrun₃, hfill, hkeep, fun x hx => ?_⟩
  have hm₃ : s₃.fs.mm = m := by rw [hfs₃]; rfl
  obtain ⟨hsame, hoff⟩ := page_add hpage (Nat.lt_of_lt_of_le hx hcount)
  rw [hm₃, hmaps.view (UserVa.page hsame hva), if_pos ⟨rfl, hsame⟩, hoff, hbytes x hx]

end Pages

/-! ## A segment -/

namespace Segment

variable {e e' : Segment} {q m : Nat}

/-- What is read for a page of the segment stays in its frame: the reads are whole, or
the only one ends before the frame does. -/
def InFrames (e : Segment) : Prop :=
  e.offset % pageSize = 0 ∨ e.filesz ≤ pageSize ∧
    (e.offset % pageSize + e.filesz ≤ pageSize ∨ e.filesz ≤ e.offset % pageSize)

instance (e : Segment) : Decidable e.InFrames := inferInstanceAs (Decidable (_ ∨ _))

theorem InFrames.span (h : e.InFrames) (hm : pageSize * m < e.filesz) :
    span (e.offset + pageSize * m) (min pageSize (e.filesz - pageSize * m)) ≤ pageSize := by
  unfold InFrames at h
  unfold Myos.Kernel.span
  unfold blkSize pageSize at *
  split <;> omega

/-- A segment that is loaded right: it has no bytes, or starts with a page; it is all
in the file, and is read into its frames. -/
def Placed (e : Segment) : Prop :=
  e.memsz = 0 ∨ e.vaddr % pageSize = 0 ∧ e.memsz = e.filesz ∧ e.InFrames

instance (e : Segment) : Decidable e.Placed := inferInstanceAs (Decidable (_ ∨ _))

end Segment

section Run

variable {root : Nat → Option Nat} {kdir p g pb : Nat} {c : Mem} {s₀ s : FileSt}
variable {done : Nat → Prop}

/-- STEP: a turn of the loop adds the page it is at, with what the file has of it. -/
theorem Filling.turn (h : Filling root kdir p g s₀ s done) (hopen : OpenAt s₀ root c)
    (helf : ElfAt s₀.fs.mm root pb 128 c) (hroot : root p = some g) {i : Nat}
    (hi : i < ElfClass.elf64.phnum c) {a N m n : Nat} (hlt : m < N)
    (hm : pageSize * m < (segment c i).filesz) (hframes : (segment c i).InFrames)
    (hb : ∀ x, x < (segment c i).filesz →
      s₀.fs.blockNo s₀.file.inode (((segment c i).offset + x) / blkSize) ≠ 0)
    (hva : UserVa (pageSize * (a + m))) (hhi : pageSize * (a + N) ≤ ustacktop)
    (hnew : ¬ done (a + m))
    (hns : (execPages (frameVa g) (kbase + (pb + ElfClass.elf64.phoff c) + phdrSize * i)
      (pageSize * a) (pageSize * N) (n + 1) (pageSize * m : Nat) s).state.starved = false) :
    ∃ s₁, execPages (frameVa g) (kbase + (pb + ElfClass.elf64.phoff c) + phdrSize * i)
        (pageSize * a) (pageSize * N) (n + 1) (pageSize * m : Nat) s =
      execPages (frameVa g) (kbase + (pb + ElfClass.elf64.phoff c) + phdrSize * i)
        (pageSize * a) (pageSize * N) n (pageSize * (m + 1) : Nat) s₁ ∧
      Filling root kdir p g s₀ s₁ (fun q => done q ∨ q = a + m) ∧
      Loading.Keeps root p done s.fs.mm s₁.fs.mm ∧
      ∀ x, x < min pageSize ((segment c i).filesz - pageSize * m) →
        view s₁.fs.mm.mem root p (pageSize * (a + m) + x) =
          c ((segment c i).offset + pageSize * m + x) := by
  have hturn : (((pageSize * m : Nat) : Int) % 2 ^ 64).toNat = pageSize * m := by
    unfold ustacktop pageSize at *
    omega
  rw [execPages_succ, hturn] at hns ⊢
  have hpos : (segment c i).offset + (segment c i).filesz < 2 ^ 30 := by
    have hlast := Fs.blockNo_lt (hb ((segment c i).filesz - 1) (by omega))
    unfold blkSize at hlast
    omega
  obtain ⟨r, hr⟩ : ∃ r, r = (segment c i).filesz - pageSize * m := ⟨_, rfl⟩
  have hrem : int32 ((segment c i).filesz - (pageSize * m : Nat)) = r := by
    rw [show ((segment c i).filesz : Int) - (pageSize * m : Nat) = r by omega]
    exact int32_nat (by omega)
  have hptr : ptrAdd (pageSize * a) (pageSize * m : Nat) = pageSize * (a + m) := by
    unfold ptrAdd
    unfold ustacktop pageSize at *
    omega
  have hnext : int32 ((pageSize * m : Nat) + 4096) = (pageSize * (m + 1) : Nat) := by
    rw [show ((pageSize * m : Nat) : Int) + 4096 = (pageSize * (m + 1) : Nat) by
      unfold pageSize; omega]
    refine int32_nat ?_
    unfold ustacktop pageSize at *
    omega
  have hdiv : pageSize * (a + m) / pageSize = a + m := Nat.mul_div_cancel_left _ (by decide)
  have hload : fileFs (fsMm (load 8 (kbase + (pb + ElfClass.elf64.phoff c) + phdrSize * i +
      pFileszOff))) s = .ok (segment c i).filesz s :=
    helf.fileField h.loading.spared hi 8 pFileszOff (by decide) (by decide)
  rw [if_pos (Nat.mul_lt_mul_of_pos_left hlt (by decide)), Act.bind_ok hload, hrem, hptr,
    hnext] at hns ⊢
  have hns₁ := Act.Raises.of_bind (fun _ => execPages_starves _ _ _ _ _ _) hns
  have hcount : 0 < min pageSize r := by
    unfold pageSize at *
    omega
  have hspan : span ((segment c i).offset + pageSize * m) (min pageSize r) ≤ pageSize := by
    rw [hr]
    exact hframes.span hm
  have hblocks : ∀ x, x < min pageSize r → s₀.fs.blockNo s₀.file.inode
      (((segment c i).offset + pageSize * m + x) / blkSize) ≠ 0 := fun x hx => by
    rw [Nat.add_assoc]
    exact hb _ (by omega)
  have hmin : min 4096 (r : Int) = (min pageSize r : Nat) := by
    unfold pageSize
    omega
  obtain ⟨s₁, hrun, h₁, hkeep, hbytes⟩ := h.readPage hopen helf hroot hi hcount
    (Nat.min_le_left _ _) (by omega) hspan hblocks hmin hva (Nat.mul_mod_right _ _)
    (by rw [hdiv]; exact hnew) hns₁
  exact ⟨s₁, Act.bind_ok hrun, h₁.congr fun q => by rw [hdiv], hkeep,
    fun x hx => hbytes x (by rw [hr]; exact hx)⟩

/-- RUN: the loop of a segment adds its pages, with what the file has of them. -/
theorem Filling.pages (h : Filling root kdir p g s₀ s done) (hopen : OpenAt s₀ root c)
    (helf : ElfAt s₀.fs.mm root pb 128 c) (hroot : root p = some g) {i : Nat}
    (hi : i < ElfClass.elf64.phnum c) {a N m n : Nat} (hmN : m ≤ N) (hn : N - m < n)
    (hsize : ∀ m, m < N → pageSize * m < (segment c i).filesz)
    (hframes : (segment c i).InFrames)
    (hb : ∀ x, x < (segment c i).filesz →
      s₀.fs.blockNo s₀.file.inode (((segment c i).offset + x) / blkSize) ≠ 0)
    (hlo : utext ≤ pageSize * a) (hhi : pageSize * (a + N) ≤ ustacktop)
    (hnew : ∀ q, a + m ≤ q → q < a + N → ¬ done q)
    (hns : (execPages (frameVa g) (kbase + (pb + ElfClass.elf64.phoff c) + phdrSize * i)
      (pageSize * a) (pageSize * N) n (pageSize * m : Nat) s).state.starved = false) :
    ∃ s', execPages (frameVa g) (kbase + (pb + ElfClass.elf64.phoff c) + phdrSize * i)
        (pageSize * a) (pageSize * N) n (pageSize * m : Nat) s = .ok () s' ∧
      Filling root kdir p g s₀ s' (fun q => done q ∨ a + m ≤ q ∧ q < a + N) ∧
      Loading.Keeps root p done s.fs.mm s'.fs.mm ∧
      ∀ x, pageSize * m ≤ x → x < pageSize * N → x < (segment c i).filesz →
        view s'.fs.mm.mem root p (pageSize * a + x) = c ((segment c i).offset + x) := by
  induction n generalizing s done m with
  | zero => exact absurd hn (Nat.not_lt_zero _)
  | succ n ih =>
    by_cases hlt : m < N
    · have hva : UserVa (pageSize * (a + m)) := by
        refine ⟨?_, ?_⟩
        · unfold utext pageSize at *
          omega
        · unfold ustacktop pageSize at *
          omega
      have hdiv : pageSize * (a + m) / pageSize = a + m := Nat.mul_div_cancel_left _ (by decide)
      obtain ⟨s₁, hturn, h₁, hkeep, hbytes⟩ := h.turn hopen helf hroot hi hlt (hsize m hlt) hframes
        hb hva hhi (hnew _ (Nat.le_refl _) (Nat.add_lt_add_left hlt a)) hns
      rw [hturn] at hns ⊢
      obtain ⟨s', hrest, h', hkeep', hbytes'⟩ := ih h₁ hlt (by omega) (fun q h1 h2 hd => hd.elim
        (hnew q (by omega) h2) (by omega)) hns
      refine ⟨s', hrest, h'.congr fun q => ?_, fun x hx hd =>
        (hkeep' x hx (.inl hd)).trans (hkeep x hx hd), fun x h1 h2 h3 => ?_⟩
      · constructor
        · rintro (hq | hq)
          · exact .inl (.inl hq)
          · by_cases hqm : q = a + m
            · exact .inl (.inr hqm)
            · exact .inr (by omega)
        · rintro ((hq | hq) | hq)
          · exact .inl hq
          · exact .inr (by omega)
          · exact .inr (by omega)
      · by_cases hfirst : x < pageSize * (m + 1)
        · have hx : pageSize * a + x = pageSize * (a + m) + (x - pageSize * m) := by
            rw [Nat.mul_add]
            omega
          have hxlt : x - pageSize * m < min pageSize ((segment c i).filesz - pageSize * m) := by
            rw [Nat.mul_succ] at hfirst
            omega
          have hsum : (segment c i).offset + pageSize * m + (x - pageSize * m) =
              (segment c i).offset + x := by
            rw [Nat.add_assoc, Nat.add_sub_cancel' h1]
          have hpage := page_add (Nat.mul_mod_right pageSize (a + m))
            (Nat.lt_of_lt_of_le hxlt (Nat.min_le_left _ _))
          rw [hx, hkeep' _ (UserVa.page hpage.1 hva) (.inr (by rw [hpage.1, hdiv])),
            hbytes _ hxlt, hsum]
        · exact hbytes' x (Nat.not_lt.mp hfirst) h2 h3
    · have heq : m = N := Nat.le_antisymm hmN (Nat.not_lt.mp hlt)
      have hturn : (((pageSize * m : Nat) : Int) % 2 ^ 64).toNat = pageSize * m := by
        unfold ustacktop pageSize at *
        omega
      rw [execPages_succ, hturn, if_neg (by rw [heq]; exact Nat.lt_irrefl _)]
      exact ⟨s, rfl, h.congr fun q => ⟨fun hd => hd.resolve_right (by omega), .inl⟩,
        fun _ _ _ => rfl, fun x h1 h2 => absurd h2 (by rw [← heq]; omega)⟩

/-- The program headers as `sys_execve` can load them: what it reads stays in the
frames, and the pages it maps are user pages below the stack's, each mapped once. -/
structure Loadable (c : Mem) : Prop where
  file : ∀ {i}, i < ElfClass.elf64.phnum c → (segment c i).type = ptLoad →
    (segment c i).memsz = (segment c i).filesz
  frames : ∀ {i}, i < ElfClass.elf64.phnum c → (segment c i).type = ptLoad →
    (segment c i).InFrames
  user : ∀ {i}, i < ElfClass.elf64.phnum c → (segment c i).type = ptLoad →
    utext ≤ (segment c i).vaddr ∧ (segment c i).vaddr + (segment c i).memsz ≤ ustacktop
  below : ∀ {i q}, i < ElfClass.elf64.phnum c → (segment c i).type = ptLoad →
    (segment c i).Maps q → q < stackPage / pageSize
  apart : ∀ {i j q}, i < j → j < ElfClass.elf64.phnum c → (segment c i).type = ptLoad →
    (segment c j).type = ptLoad → (segment c i).Maps q → ¬ (segment c j).Maps q

/-- The blocks of the file that the segments are in are there. -/
def Present (s : FileSt) (c : Mem) : Prop :=
  ∀ i, i < ElfClass.elf64.phnum c → (segment c i).type = ptLoad → ∀ x, x < (segment c i).filesz →
    s.fs.blockNo s.file.inode (((segment c i).offset + x) / blkSize) ≠ 0

/-- The pages of the first `i` segments hold what the file has of them, from the start
of the first page on. -/
def ShowsFile (root : Nat → Option Nat) (p : Nat) (c : Mem) (i : Nat) (s : Mm) : Prop :=
  ∀ j x, j < i → (segment c j).type = ptLoad → x < (segment c j).filesz →
    view s.mem root p (pageSize * ((segment c j).vaddr / pageSize) + x) =
      c ((segment c j).offset + x)

theorem execSegments_starves (pgdir phdrs n i : Nat) :
    Act.Within (Act.Raises FileSt.starved) (execSegments pgdir phdrs n i) := by
  induction n generalizing i with
  | zero => exact Act.Raises.pure _
  | succ n ih =>
    refine Act.Raises.bind (load_file_starves 4 _) fun t => ?_
    show Act.Within _ (if _ then _ else _)
    split
    · exact Act.Raises.bind (load_file_starves 8 _) fun vaddr =>
        Act.Raises.bind (load_file_starves 8 _) fun memsz =>
          Act.Raises.bind (execPages_starves _ _ _ _ _ _) fun _ => ih _
    · exact ih _

/-- The turn of the loop for a segment, with what its header says. -/
theorem execSegments_load (helf : ElfAt s₀.fs.mm root pb 128 c)
    (hsp : Spared root s₀.fs.mm s.fs.mm) (hc : Loadable c) {i m : Nat}
    (hi : i < ElfClass.elf64.phnum c) (ht : (segment c i).type = ptLoad) (pgdir : Nat) :
    execSegments pgdir (kbase + (pb + ElfClass.elf64.phoff c)) (m + 1) i s =
      (execPages pgdir (kbase + (pb + ElfClass.elf64.phoff c) + phdrSize * i)
        (pageSize * ((segment c i).vaddr / pageSize))
        (pageSize * (((segment c i).memsz + pageSize - 1) / pageSize)) (2 ^ 32)
        (pageSize * 0 : Nat) >>= fun _ =>
        execSegments pgdir (kbase + (pb + ElfClass.elf64.phoff c)) m (i + 1)) s := by
  obtain ⟨hlo, hhi⟩ := hc.user hi ht
  have htype := helf.fileField hsp hi 4 pTypeOff (by decide) (by decide)
  have hvaddr := helf.fileField hsp hi 8 pVaddrOff (by decide) (by decide)
  have hmemsz := helf.fileField hsp hi 8 pMemszOff (by decide) (by decide)
  have hu32 : u32 ((segment c i).vaddr : Int) = (segment c i).vaddr :=
    u32_nat (by unfold ustacktop pageSize at *; omega)
  have hu64 : u64 ((segment c i).memsz + pageSize - 1) = (segment c i).memsz + pageSize - 1 := by
    unfold u64
    unfold ustacktop pageSize at *
    omega
  have ht' : Mem.rd 4 c (phdrOff c i + pTypeOff) = ptLoad := ht
  have hzero : ((pageSize * 0 : Nat) : Int) = 0 := rfl
  rw [execSegments, Act.bind_ok htype, if_pos ht', Act.bind_ok hvaddr, Act.bind_ok hmemsz, hzero]
  show (execPages pgdir _ (u32 ((segment c i).vaddr : Int) / pageSize * pageSize)
    (u64 ((segment c i).memsz + pageSize - 1) / pageSize * pageSize) (2 ^ 32) 0 >>= fun _ => _) s = _
  rw [hu32, hu64, Nat.mul_comm (_ / pageSize), Nat.mul_comm (_ / pageSize)]

/-- The turn of the loop for another header. -/
theorem execSegments_skip (helf : ElfAt s₀.fs.mm root pb 128 c)
    (hsp : Spared root s₀.fs.mm s.fs.mm) {i m : Nat}
    (hi : i < ElfClass.elf64.phnum c) (ht : (segment c i).type ≠ ptLoad) (pgdir : Nat) :
    execSegments pgdir (kbase + (pb + ElfClass.elf64.phoff c)) (m + 1) i s =
      execSegments pgdir (kbase + (pb + ElfClass.elf64.phoff c)) m (i + 1) s := by
  have htype := helf.fileField hsp hi 4 pTypeOff (by decide) (by decide)
  have ht' : ¬ Mem.rd 4 c (phdrOff c i + pTypeOff) = ptLoad := ht
  rw [execSegments, Act.bind_ok htype, if_neg ht']

/-- A page that is mapped is a user page. -/
theorem Loadable.userVa (hc : Loadable c) {i q x : Nat} (hi : i < ElfClass.elf64.phnum c)
    (ht : (segment c i).type = ptLoad) (hm : (segment c i).Maps q) (hx : x / pageSize = q) :
    UserVa x := by
  obtain ⟨hlo, -⟩ := hc.user hi ht
  have hbelow := hc.below hi ht hm
  obtain ⟨h1, -⟩ := hm
  unfold UserVa
  unfold stackPage utext ustacktop pageSize at *
  omega

/-- Where the bytes of the file are shown. -/
theorem Loadable.maps (hc : Loadable c) {i x : Nat} (hi : i < ElfClass.elf64.phnum c)
    (ht : (segment c i).type = ptLoad) (hx : x < (segment c i).filesz) :
    (segment c i).Maps ((pageSize * ((segment c i).vaddr / pageSize) + x) / pageSize) := by
  have hfile := hc.file hi ht
  unfold Segment.Maps
  rw [Nat.mul_add_div (by decide)]
  unfold pageSize at *
  omega

/-- RUN: the loop over the headers loads every segment. -/
theorem execSegments_run (hopen : OpenAt s₀ root c) (helf : ElfAt s₀.fs.mm root pb 128 c)
    (hc : Loadable c) (hpres : Present s₀ c) (hroot : root p = some g) {m i : Nat}
    (h : Filling root kdir p g s₀ s (MapsUpTo c i)) (hshow : ShowsFile root p c i s.fs.mm)
    (hi : i + m = ElfClass.elf64.phnum c)
    (hns : (execSegments (frameVa g) (kbase + (pb + ElfClass.elf64.phoff c)) m i s).state.starved
      = false) :
    ∃ s', execSegments (frameVa g) (kbase + (pb + ElfClass.elf64.phoff c)) m i s = .ok () s' ∧
      Filling root kdir p g s₀ s' (MapsUpTo c (i + m)) ∧ ShowsFile root p c (i + m) s'.fs.mm := by
  induction m generalizing i s with
  | zero => exact ⟨s, rfl, h, hshow⟩
  | succ m ih =>
    have hlt : i < ElfClass.elf64.phnum c := by omega
    have hnext : i + 1 + m = i + (m + 1) := by omega
    have hbefore : ∀ {j}, j < i + 1 → j ≠ i → j < i := by omega
    by_cases ht : (segment c i).type = ptLoad
    · obtain ⟨hlo, hhi⟩ := hc.user hlt ht
      have hfile := hc.file hlt ht
      rw [execSegments_load helf h.loading.spared hc hlt ht] at hns ⊢
      have hns₁ := Act.Raises.of_bind (fun _ => execSegments_starves _ _ _ _) hns
      have hmaps : ∀ q, (segment c i).vaddr / pageSize + 0 ≤ q →
          q < (segment c i).vaddr / pageSize + ((segment c i).memsz + pageSize - 1) / pageSize →
          (segment c i).Maps q := fun q h1 h2 => ⟨h1, h2⟩
      obtain ⟨s₁, hrun, h₁, hkeep, hbytes⟩ := h.pages hopen helf hroot hlt (m := 0) (Nat.zero_le _)
        (by unfold ustacktop pageSize at *; omega) (fun m hm => by unfold pageSize at *; omega)
        (hc.frames hlt ht) (hpres i hlt ht) (by unfold utext pageSize at *; omega)
        (by
          by_cases hz : (segment c i).memsz = 0
          · rw [hz]
            unfold ustacktop pageSize at *
            omega
          · have hbelow := hc.below hlt ht (q := (segment c i).vaddr / pageSize +
              ((segment c i).memsz + pageSize - 1) / pageSize - 1)
              ⟨by unfold pageSize; omega, by unfold pageSize; omega⟩
            unfold stackPage ustacktop pageSize at *
            omega)
        (fun q h1 h2 ⟨j, hj, htj, hm⟩ => hc.apart hj hlt htj ht hm (hmaps q h1 h2)) hns₁
      rw [Act.bind_ok hrun] at hns ⊢
      have hshow₁ : ShowsFile root p c (i + 1) s₁.fs.mm := by
        intro j x hj htj hx
        by_cases hji : j = i
        · subst hji
          exact hbytes x (Nat.zero_le x) (by unfold pageSize; omega) hx
        · have hj' := hbefore hj hji
          have hm := hc.maps (by omega) htj hx
          rw [hkeep _ (hc.userVa (by omega) htj hm rfl) ⟨j, hj', htj, hm⟩, hshow j x hj' htj hx]
      obtain ⟨s', hrun', h', hshow'⟩ := ih (h₁.congr (mapsUpTo_load ht)) hshow₁ (by omega) hns
      rw [hnext] at h' hshow'
      exact ⟨s', hrun', h', hshow'⟩
    · rw [execSegments_skip helf h.loading.spared hlt ht] at hns ⊢
      obtain ⟨s', hrun', h', hshow'⟩ := ih (h.congr (mapsUpTo_skip ht))
        (fun j x hj htj hx => hshow j x (hbefore hj fun hji => ht (hji ▸ htj)) htj hx)
        (by omega) hns
      rw [hnext] at h' hshow'
      exact ⟨s', hrun', h', hshow'⟩

end Run

end Myos.Kernel
