import Myos.Image.Archive
import Myos.Kernel.Execve

/-!
# A program of the image is run

A file goes into an image with `create_file_image`, the kernel mounts the image, and a
process calls `sys_execve` with the name of the file. `launched` is what comes of it: if
the bytes are those of a program the kernel can load (`Program`), its segments are in the
memory of the process byte for byte, it goes on at the entry the file names with a stack
of its own, and nothing else in use changes.

The two halves meet in the bytes of the file: the kernel reads them off its mounted image
(`Serves.fileByte`), noughts behind the end of the file up to the end of the block, and
the headers and the segments of a program are in what the two have in common (`InBlocks`).
-/

namespace Myos.Image

open Myos.Lib
open Myos.Kernel (Fs KState Mm FreeList Caller ElfFile ElfClass Present Found ExecDone segment
  ptLoad phdrOff eEntryOff blanked sysExecve blkSize pageSize kbase frameVa inodeSize inodesInTable
  ustacktop)

/-! ## The bytes of a program -/

/-- The bytes of a file, and noughts behind them. -/
def contents (data : List UInt8) : Mem := fun x => data.getD x 0

/-- A program: an ELF file whose segments are in the file, and each that is not empty starts
with a page, in the file and in memory. -/
structure Program (data : List UInt8) : Prop where
  elf : ElfFile (contents data)
  placed : ∀ i, i < ElfClass.elf64.phnum (contents data) →
    (segment (contents data) i).type = ptLoad → (segment (contents data) i).Placed
  inside : ∀ i, i < ElfClass.elf64.phnum (contents data) →
    (segment (contents data) i).type = ptLoad →
    (segment (contents data) i).offset + (segment (contents data) i).filesz ≤ data.length

/-- The same bytes in the blocks of the file. -/
def InBlocks (data : List UInt8) (c : Mem) : Prop :=
  ∀ x, blkSize * (x / blkSize) < data.length → c x = contents data x

section InBlocks

variable {data : List UInt8} {c : Mem} {root : Nat → Option Nat} {p pa i n x : Nat} {s s' : Mm}

/-- A program is not empty: it begins with the magic. -/
theorem Program.nonempty (h : Program data) : 0 < data.length := by
  rcases data with - | ⟨b, data⟩
  · exact absurd h.elf.magic (by decide)
  · exact Nat.succ_pos _

/-- A field of the first 128 bytes. -/
theorem InBlocks.rd (h : InBlocks data c) (hpos : 0 < data.length) (hx : x + n ≤ 128) :
    Mem.rd n c x = Mem.rd n (contents data) x :=
  Mem.rd_congr fun y _ hy => h y (by
    rwa [Nat.div_eq_of_lt (show y < blkSize by unfold blkSize; omega), Nat.mul_zero])

theorem InBlocks.phoff (h : InBlocks data c) (hpos : 0 < data.length) :
    ElfClass.elf64.phoff c = ElfClass.elf64.phoff (contents data) := h.rd hpos (by decide)

theorem InBlocks.phnum (h : InBlocks data c) (hpos : 0 < data.length) :
    ElfClass.elf64.phnum c = ElfClass.elf64.phnum (contents data) := h.rd hpos (by decide)

/-- A header that is in the first 128 bytes. -/
theorem InBlocks.segment (h : InBlocks data c) (hpos : 0 < data.length)
    (hi : phdrOff (contents data) i + Myos.Kernel.phdrSize ≤ 128) :
    Myos.Kernel.segment c i = Myos.Kernel.segment (contents data) i := by
  have hoff : phdrOff c i = phdrOff (contents data) i := by
    rw [phdrOff, phdrOff, h.phoff hpos]
  have hfield : ∀ n o, o + n ≤ Myos.Kernel.phdrSize →
      Mem.rd n c (phdrOff c i + o) = Mem.rd n (contents data) (phdrOff (contents data) i + o) :=
    fun n o ho => by
      rw [hoff]
      exact h.rd hpos (by omega)
  unfold Myos.Kernel.segment
  rw [hfield 4 _ (by decide), hfield 8 _ (by decide), hfield 8 _ (by decide),
    hfield 8 _ (by decide), hfield 8 _ (by decide)]

variable (hp : Program data) (h : InBlocks data c)

include hp h in
theorem Program.segment_eq (hi : i < ElfClass.elf64.phnum c) :
    i < ElfClass.elf64.phnum (contents data) ∧ segment c i = segment (contents data) i := by
  rw [h.phnum hp.nonempty] at hi
  exact ⟨hi, h.segment hp.nonempty (hp.elf.headers hi)⟩

include hp h in
/-- The bytes in the blocks are an ELF file too. -/
theorem Program.elf_inBlocks : ElfFile c := by
  have hfield : ∀ {x}, x + 1 ≤ 128 → Mem.rd 1 c x = Mem.rd 1 (contents data) x :=
    h.rd hp.nonempty
  refine ⟨?_, fun {i} hi => ?_, fun {i} hi ht => ?_, fun {i} hi ht => ?_,
    fun {i j x} hij hj hti htj h1 h2 => ?_⟩
  · have hmagic := hp.elf.magic
    unfold Myos.Kernel.magic at hmagic ⊢
    rwa [hfield (by decide), hfield (by decide), hfield (by decide), hfield (by decide)]
  · obtain ⟨hi', -⟩ := hp.segment_eq h hi
    rw [phdrOff, h.phoff hp.nonempty]
    exact hp.elf.headers hi'
  · obtain ⟨hi', hsame⟩ := hp.segment_eq h hi
    rw [hsame] at ht ⊢
    exact hp.elf.user hi' ht
  · obtain ⟨hi', hsame⟩ := hp.segment_eq h hi
    rw [hsame] at ht ⊢
    exact hp.elf.filesz hi' ht
  · obtain ⟨hj', hsamej⟩ := hp.segment_eq h hj
    obtain ⟨-, hsamei⟩ := hp.segment_eq h (hij.trans hj)
    rw [hsamei] at hti h1 h2
    rw [hsamej] at htj ⊢
    exact hp.elf.disjoint hij hj' hti htj h1 h2

include hp h in
/-- A byte of a segment. -/
theorem Program.byte_inBlocks (hi : i < ElfClass.elf64.phnum (contents data))
    (ht : (segment (contents data) i).type = ptLoad)
    (hx : x < (segment (contents data) i).filesz) :
    c ((segment (contents data) i).offset + x) =
      contents data ((segment (contents data) i).offset + x) := by
  have hin := hp.inside i hi ht
  have hblock := Nat.mul_div_le ((segment (contents data) i).offset + x) blkSize
  exact h _ (by omega)

include hp h in
/-- What is loaded of the one is loaded of the other. -/
theorem Program.done_inBlocks (hdone : ExecDone root p pa c s s') :
    ExecDone root p pa (contents data) s s' := by
  have hnum := h.phnum hp.nonempty
  have hseg : ∀ {i}, i < ElfClass.elf64.phnum (contents data) →
      segment c i = segment (contents data) i := fun hi =>
    h.segment hp.nonempty (hp.elf.headers hi)
  refine ⟨⟨fun {i x} hi ht h1 h2 => ?_, fun {i x} hi ht hx => ?_⟩, hdone.kept, hdone.elsewhere⟩
  · rw [← hseg hi] at ht h1 h2
    exact hdone.loads.mapped (hnum ▸ hi) ht h1 h2
  · have hbytes := hdone.loads.bytes (i := i) (k := x) (hnum ▸ hi)
    rw [hseg hi] at hbytes
    rw [hbytes ht hx]
    split
    · next hfile => exact hp.byte_inBlocks h hi ht hfile
    · rfl

end InBlocks

/-! ## The file as the kernel has it -/

section Served

variable {m : Mem} {s : Fs} {l : List Nat} {ino : Fin inodes} {data : List UInt8} {pa : Nat}

/-- The bytes that the kernel reads for a file: those of the blocks it has. -/
theorem Serves.fileByte (h : Serves m s l) (hino : ino.val < inodesInTable)
    (hs : Stores m ino data) (hfit : data.length ≤ fileBlocks * blkSize) :
    InBlocks data (s.fileByte (s.inode ino)) := by
  intro x hx
  have hb : x / blkSize < fileBlocks := by
    unfold fileBlocks blkSize at *
    omega
  have hbyte := hs.bytes _ hx (x % blkSize) (Nat.mod_lt _ (by decide))
  rw [Nat.div_add_mod] at hbyte
  rw [Fs.fileByte, Fs.fileAddr, h.blockNo ino hino hb, h.disk]
  exact hbyte

/-- The blocks are there. -/
theorem Serves.block_ne (h : Serves m s l) (hino : ino.val < inodesInTable)
    (hs : Stores m ino data) (hfit : data.length ≤ fileBlocks * blkSize) {b : Nat}
    (hb : blkSize * b < data.length) : s.blockNo (s.inode ino) b ≠ 0 := by
  have hlt : b < fileBlocks := by
    unfold fileBlocks blkSize at *
    omega
  rw [h.blockNo ino hino hlt]
  exact hs.number b hb

/-- The frames the image is at hand in do not meet the buffer of `sys_execve`. -/
def BufferApart (s : Fs) (pa : Nat) : Prop :=
  ∀ fr, s.inoTable = frameVa fr ∨ s.blkBitmap = frameVa fr → ∀ i < 128, (pa + i) / pageSize ≠ fr

/-- The buffer is cleared, and the image stays at hand. -/
theorem Serves.blanked (h : Serves m s l) (hb : BufferApart s pa) : Serves m (blanked pa s) l := by
  obtain ⟨ft, fb, hm, hsync, hdisk⟩ := h
  have hstill : Myos.Kernel.Still s (Myos.Kernel.blanked pa s) ft fb := by
    refine ⟨rfl, rfl, rfl, fun x hx => ?_⟩
    show s.mm.mem.fill pa 128 0 x = s.mm.mem x
    refine Mem.overlay_out ?_
    by_contra hin
    have hframe : (pa + (x - pa)) / pageSize = x / pageSize := by
      rw [Nat.add_sub_cancel' (by omega)]
    rcases hx with hx | hx
    · exact hb ft (.inl hm.table) (x - pa) (by omega) (hframe.trans hx)
    · exact hb fb (.inr hm.bitmap) (x - pa) (by omega) (hframe.trans hx)
  exact ⟨ft, fb, hm.next (hm.free.congr rfl rfl rfl) (fun _ hg => hg) rfl rfl rfl hm.served,
    hsync.still hstill, hdisk⟩

end Served

/-! ## The call -/

/-- A process about to call `sys_execve`, in a kernel that has the image at hand: the inode
table is in a frame of the kernel's own, and the buffer beside it. -/
structure Launches (m : Mem) (k : KState) (root : Nat → Option Nat) (kdir p g pa : Nat)
    (l : List Nat) : Prop where
  caller : Caller k root kdir p g pa 128
  cr3 : k.mm.cr3 = pageSize * g
  direct : pa + 128 < 2 ^ 31
  buffer : ∀ i, i < 128 → k.mm.Plain root ((pa + i) / pageSize)
  serves : Serves m k.fs l
  table : ∀ ft, k.fs.inoTable = frameVa ft → k.mm.Plain root ft
  apart : BufferApart k.fs pa

section Call

variable {m : Mem} {c : Archive} {k : KState} {root : Nat → Option Nat} {kdir p g pa va : Nat}
variable {l : List Nat} {name : FileName} {data : List UInt8} {pfile : Myos.Kernel.File}

/-- `walk_path` finds the file, and `sys_execve` has what it needs of it. -/
theorem Launches.found (h : Launches m k root kdir p g pa l) {ino : Fin inodes}
    (hino : ino.val < inodesInTable) (hstores : Stores m ino data)
    (hfit : data.length ≤ fileBlocks * blkSize) (hpos : 0 < data.length)
    (hagrees : Agrees m ino name.bytes data (blanked pa k.fs) l)
    (hname : (blanked pa k.fs).mm.Holds l va name.bytes)
    (hns : (Myos.Kernel.walkPath va (blanked pa k.fs)).state.starved = false) :
    ∃ f l', Found k root pa va (f.inode ino) f ∧ Serves m f l' := by
  obtain ⟨f, l', hwalk, hserves⟩ := hagrees.finds va hname hns
  obtain ⟨ft, fb, hm, -, -⟩ := h.serves.blanked h.apart
  rw [hwalk] at hns
  obtain ⟨l'', htook⟩ := Myos.Kernel.walkPath_took hm.free hm.npages hwalk hns
  have hinode : f.inode ino = (blanked pa k.fs).inode ino := by
    rw [Fs.inode, Fs.inode, htook.inoTable]
  have htable : k.fs.inoTable = frameVa ft := hm.table
  have hva : f.inode ino = kbase + (pageSize * ft + inodeSize * ino) := by
    rw [hinode, Fs.inode, hm.table, frameVa, Nat.add_assoc]
  have hframe : ∀ x, f.inode ino - kbase ≤ x → x < f.inode ino - kbase + inodeSize →
      x / pageSize = ft := by
    intro x h1 h2
    rw [hva] at h1 h2
    unfold inodesInTable at hino
    unfold pageSize inodeSize at *
    omega
  refine ⟨f, l', ⟨?_, ?_, ?_, fun x h1 h2 => ?_, fun x h1 h2 hin => ?_, ?_⟩, hserves⟩
  · rw [hwalk, hinode]
  · omega
  · have hlt := hm.table_lt
    rw [hva]
    unfold inodesInTable at hino
    unfold pageSize inodeSize at *
    omega
  · rw [hframe x h1 h2]
    exact h.table ft htable
  · have hbuf := h.apart ft (.inl htable) (x - pa) (by omega)
    rw [Nat.add_sub_cancel' hin.1] at hbuf
    exact hbuf (hframe x h1 h2)
  · exact hserves.block_ne hino hstores hfit (by rwa [Nat.mul_zero])

/-- LAUNCH: a program of the image is loaded and entered. -/
theorem Launches.run (h : Launches m k root kdir p g pa l) (hm : Archived m c)
    (hcount : c.rows.length < inodesInTable) (hfind : c.find name = some data)
    (hp : Program data) (hname : (blanked pa k.fs).mm.Holds l va name.bytes)
    (hns : (sysExecve (kbase + pa) pfile va k).state.mm.starved = false) :
    ∃ k', sysExecve (kbase + pa) pfile va k = .ok (.run p) k' ∧
      ExecDone root p pa (contents data) k.mm k'.mm ∧
      (k'.procs p).pregs = { (k.procs p).pregs with
        rsp := ustacktop, rip := Mem.rd 8 (contents data) eEntryOff } := by
  obtain ⟨i, hi, hrow⟩ := Catalog.find_eq_some.mp hfind
  have hfit : data.length ≤ fileBlocks * blkSize := by
    have hfits := hm.fits i hi
    rwa [hrow] at hfits
  obtain ⟨ino, hino, hstores, hagrees⟩ :=
    hm.holds hcount (h.serves.blanked h.apart) hfind
  obtain ⟨f, l', hfound, hserves⟩ :=
    h.found hino hstores hfit hp.nonempty hagrees hname
      (Myos.Kernel.execPath_served h.caller hns)
  have hbytes := hserves.fileByte hino hstores hfit
  have helf := hp.elf_inBlocks hbytes
  have hplaced : ∀ i, i < ElfClass.elf64.phnum (f.fileByte (f.inode ino)) →
      (segment (f.fileByte (f.inode ino)) i).type = ptLoad →
      (segment (f.fileByte (f.inode ino)) i).Placed := by
    intro i hi ht
    obtain ⟨hi', hsame⟩ := hp.segment_eq hbytes hi
    rw [hsame] at ht ⊢
    exact hp.placed i hi' ht
  have hpresent : Present ⟨f, { inode := f.inode ino }⟩ (f.fileByte (f.inode ino)) := by
    intro i hi ht x hx
    obtain ⟨hi', hsame⟩ := hp.segment_eq hbytes hi
    rw [hsame] at ht hx ⊢
    have hin := hp.inside i hi' ht
    have hblock := Nat.mul_div_le ((segment (contents data) i).offset + x) blkSize
    exact hserves.block_ne hino hstores hfit (by omega)
  have hload := helf.loadable hplaced
  obtain ⟨k', hrun, hloaded, hregs⟩ := Myos.Kernel.sysExecve_enters h.caller h.cr3 h.direct h.buffer
    hfound helf.magic helf.headers hload hpresent hns
  refine ⟨k', hrun, hp.done_inBlocks hbytes (hloaded.done hload hplaced), ?_⟩
  rw [hregs, hbytes.rd hp.nonempty (by decide)]

/-- LAUNCHED: from the files to the process that runs one of them. An image was made of a
row of files, a kernel has it at hand, and a process calls `sys_execve` with the name of a
program: it goes on in this program, loaded as it is in the first file of the name. -/
theorem launched (t : Nat) (files : List Member)
    (hcount : (archive files).rows.length < inodesInTable)
    (hroom : 1 + (archive files).cost ≤ 32754)
    (hfile : (files.map Member.row).lookup name = some data) (hp : Program data)
    (h : Launches (archiveAt t files files.length) k root kdir p g pa l)
    (hname : (blanked pa k.fs).mm.Holds l va name.bytes)
    (hns : (sysExecve (kbase + pa) pfile va k).state.mm.starved = false) :
    ∃ k', sysExecve (kbase + pa) pfile va k = .ok (.run p) k' ∧
      ExecDone root p pa (contents data) k.mm k'.mm ∧
      (k'.procs p).pregs = { (k.procs p).pregs with
        rsp := ustacktop, rip := Mem.rd 8 (contents data) eEntryOff } := by
  have harchived := archived_run (t := t) hcount hroom (Nat.le_refl files.length)
  rw [List.take_length] at harchived
  refine h.run harchived hcount ?_ hp hname hns
  rw [← hfile]
  exact Catalog.find_empty_addAll _

end Call

/-! ## A program that is run -/

section Sample

open Myos.Kernel (sampleProcess sampleProcessRoot sampleProcess_vm sampleProcess_list
  sampleInodes_out sampleLoad utext)

variable {m : Mem} {name : FileName} {data : List UInt8} {va : Nat}

/-- A program of one segment of two bytes. -/
def programData : List UInt8 := (List.range 128).map (sampleLoad utext 2 2)

theorem contents_programData {x : Nat} (hx : x < 128) :
    contents programData x = sampleLoad utext 2 2 x := by
  unfold contents programData
  rw [List.getD_eq_getElem _ _ (by rwa [List.length_map, List.length_range]), List.getElem_map,
    List.getElem_range]

theorem programData_headers : Myos.Kernel.magic (contents programData) ∧
    ElfClass.elf64.phoff (contents programData) = 64 ∧
    ElfClass.elf64.phnum (contents programData) = 1 ∧
    segment (contents programData) 0 = ⟨ptLoad, 0, utext, 2, 2⟩ := by
  obtain ⟨hm, hoff, hnum, hseg⟩ := Myos.Kernel.sampleLoad_early
  exact Myos.Kernel.sampleHeaders (fun _ => contents_programData) hm hoff hnum hseg

theorem program_programData : Program programData := by
  obtain ⟨hm, hoff, hnum, hseg⟩ := programData_headers
  have hzero : ∀ {i}, i < ElfClass.elf64.phnum (contents programData) →
      segment (contents programData) i = ⟨ptLoad, 0, utext, 2, 2⟩ := fun hi => by
    rw [hnum] at hi
    rw [Nat.lt_one_iff.mp hi, hseg]
  refine ⟨Myos.Kernel.sampleHeaders_file hm hoff hnum hseg (by decide) (by decide) (by decide),
    fun i hi _ => ?_, fun i hi _ => ?_⟩
  · rw [hzero hi]
    decide
  · rw [hzero hi, programData, List.length_map, List.length_range]
    decide

/-- The bytes in the blocks have the one segment. -/
theorem programData_inBlocks {c : Mem} (h : InBlocks programData c) :
    ElfClass.elf64.phnum c = 1 ∧ segment c 0 = ⟨ptLoad, 0, utext, 2, 2⟩ := by
  obtain ⟨-, -, hnum, hseg⟩ := programData_headers
  have hnum' : ElfClass.elf64.phnum c = 1 :=
    (h.phnum program_programData.nonempty).trans hnum
  have hsame := (program_programData.segment_eq h (i := 0) (by rw [hnum']; decide)).2
  exact ⟨hnum', hsame.trans hseg⟩

/-- The memory of a kernel that has an image at hand: the inode table in frame 1, the bitmap
in frame 2, and a name in frame 4. -/
def launchMem (m : Mem) : Mem := fun x =>
  if x / pageSize = 1 then m (blkSize * 4 + x % pageSize)
  else if x / pageSize = 2 then m (blkSize * 2 + x % pageSize)
  else if x = pageSize * 4 then 112 else 0

/-- A process without pages, in such a kernel. -/
def launchKernel (m : Mem) : KState :=
  { sampleProcess m with
    fs := { (sampleProcess m).fs with
      mm := (sampleProcess m).mm.setMem (launchMem m)
      disk := m
      inoTable := frameVa 1
      blkBitmap := frameVa 2 } }

/-- The frames that are free in it. -/
def launchFree : List Nat := [8, 9, 10, 11, 12, 13, 14, 15, 16, 17, 18, 19, 20, 21, 22, 23]

theorem launchFree_low {f : Nat} (hf : f < 8) : f ∉ launchFree := by
  unfold launchFree
  simp only [List.mem_cons, List.not_mem_nil, or_false]
  omega

theorem launchKernel_list : FreeList (launchKernel m).mm launchFree :=
  (sampleProcess_list m).congr rfl rfl rfl

/-- The address spaces are those of the process without pages. -/
theorem launchKernel_vm : Myos.Kernel.Vm (launchKernel m).mm sampleProcessRoot 6 ∅ ∧
    ∀ f, f < 8 → f ≠ 5 → (launchKernel m).mm.Plain sampleProcessRoot f := by
  obtain ⟨hvm, hplain⟩ := sampleProcess_vm (c := m)
  have haside : Myos.Kernel.Aside (sampleProcess m).mm.mem sampleProcessRoot 6
      fun x => x / pageSize < 5 := by
    intro x hx
    have hx' := hplain (x / pageSize) (by omega) (by omega)
    exact ⟨hx'.table, by omega, hx'.refs⟩
  have hfill := Myos.Kernel.Mm.Filled.setMem (B := fun x => x / pageSize < 5) (m := launchMem m)
    (sampleProcess_list m) fun x hx => by
      have hout : Myos.Kernel.sampleInodes x = 0 := sampleInodes_out
        (by unfold pageSize at *; omega) (by unfold pageSize at *; omega)
      show launchMem m x = Myos.Kernel.sampleInodes x
      rw [hout, launchMem, if_neg (by omega), if_neg (by omega), if_neg (by
        unfold pageSize at *
        omega)]
  refine ⟨(hvm.filled haside (sampleProcess_list m) hfill).1, fun f hf hne => ?_⟩
  exact (hvm.sparedBut_filled haside (sampleProcess_list m) hfill f (hplain f hf hne)).1

theorem launchMem_table {x : Nat} (hx : x < blkSize) :
    launchMem m (pageSize * 1 + x) = m (blkSize * 4 + x) := by
  rw [launchMem, if_pos (by unfold pageSize blkSize at *; omega),
    show (pageSize * 1 + x) % pageSize = x by unfold pageSize blkSize at *; omega]

theorem launchMem_bitmap {x : Nat} (hx : x < blkSize) :
    launchMem m (pageSize * 2 + x) = m (blkSize * 2 + x) := by
  rw [launchMem, if_neg (by unfold pageSize blkSize at *; omega),
    if_pos (by unfold pageSize blkSize at *; omega),
    show (pageSize * 2 + x) % pageSize = x by unfold pageSize blkSize at *; omega]

theorem launchKernel_launches :
    Launches m (launchKernel m) sampleProcessRoot 6 0 5 (pageSize * 3) launchFree := by
  have hplain := (launchKernel_vm (m := m)).2
  have hbuf : ∀ i, i < 128 → (pageSize * 3 + i) / pageSize = 3 := fun i hi => by
    unfold pageSize
    omega
  have hframe : ∀ f f', frameVa f = frameVa f' → f = f' := fun f f' h => by
    unfold frameVa pageSize at h
    omega
  refine ⟨⟨launchKernel_vm.1, rfl, rfl, rfl, by decide, fun x hx => ?_⟩, rfl, by decide,
    fun i hi => ?_, ⟨1, 2, ⟨launchKernel_list, (by decide : 24 ≤ 2 ^ 19), rfl, rfl, rfl, by decide,
      by decide, by decide, launchFree_low (by decide), launchFree_low (by decide)⟩,
      ⟨fun x => launchMem_table, fun x => launchMem_bitmap⟩, rfl⟩, fun ft hft => ?_,
    fun fr hfr i hi => ?_⟩
  · have hx' : x / pageSize = 3 := by
      unfold pageSize at *
      omega
    rw [hx']
    have hthree := hplain 3 (by decide) (by decide)
    exact ⟨hthree.table, by decide, hthree.refs⟩
  · rw [hbuf i hi]
    exact hplain 3 (by decide) (by decide)
  · rw [← hframe 1 ft hft]
    exact hplain 1 (by decide) (by decide)
  · rw [hbuf i hi]
    rcases hfr with hfr | hfr
    · rw [← hframe 1 fr hfr]
      decide
    · rw [← hframe 2 fr hfr]
      decide

/-- The memory with the buffer cleared, beside the frames of the image. -/
theorem launchMem_beside {x : Nat} (hx : pageSize * 4 ≤ x) :
    (blanked (pageSize * 3) (launchKernel m).fs).mm.mem x =
      if x = pageSize * 4 then 112 else 0 := by
  have hout : (launchMem m).fill (pageSize * 3) 128 0 x = launchMem m x := by
    refine Mem.overlay_out ?_
    unfold pageSize at *
    omega
  show (launchMem m).fill (pageSize * 3) 128 0 x = _
  rw [hout, launchMem, if_neg (by unfold pageSize at *; omega),
    if_neg (by unfold pageSize at *; omega)]

/-- The name is behind frame 4. -/
theorem launchKernel_name :
    (blanked (pageSize * 3) (launchKernel m).fs).mm.Holds launchFree (frameVa 4) [112] := by
  refine Mm.Holds.direct (a := pageSize * 4) ⟨?_, by decide, ?_⟩ (by decide) fun x h1 h2 => ?_
  · rw [launchMem_beside (Nat.le_refl _), if_pos rfl]
  · show (blanked (pageSize * 3) (launchKernel m).fs).mm.mem (pageSize * 4 + 1) = 0
    rw [launchMem_beside (Nat.le_succ _), if_neg (by decide)]
  · have hframe : x / pageSize = 4 := by
      rw [List.length_singleton] at h2
      unfold pageSize at *
      omega
    rw [hframe]
    exact launchFree_low (by decide)

theorem launchKernel_served_start (hserves : Serves m (launchKernel m).fs launchFree) :
    Serves m (blanked (pageSize * 3) (launchKernel m).fs) launchFree :=
  hserves.blanked (launchKernel_launches (m := m)).apart

/-- The search of a directory of one block takes two frames. -/
theorem launchKernel_walk_spends (hblocks : rootBlocks m = 1) (va : Nat) :
    (blanked (pageSize * 3) (launchKernel m).fs).mm.Spends 2
      (Myos.Kernel.walkPath va (blanked (pageSize * 3) (launchKernel m).fs)).state.mm := by
  have hserves := launchKernel_served_start (launchKernel_launches (m := m)).serves
  have hone := hserves.rootBlocks.trans hblocks
  obtain ⟨ft, fb, hm, -, -⟩ := hserves
  rw [Myos.Kernel.walkPath_loop (hm.kept_inode (by decide)), hone]
  exact Myos.Kernel.walkPathLoop_spends _ va 1 0 0 none _

/-- Up to the headers four frames are taken. -/
theorem launchKernel_start_spends (hblocks : rootBlocks m = 1) {ino : Fin inodes}
    (hagrees : Agrees m ino name.bytes data (blanked (pageSize * 3) (launchKernel m).fs) launchFree)
    (hname : (blanked (pageSize * 3) (launchKernel m).fs).mm.Holds launchFree va name.bytes) :
    (launchKernel m).mm.Spends 4
      ((Myos.Kernel.execLoader va (frameVa 5) (kbase + pageSize * 3)).start
        ⟨(launchKernel m).fs, {}⟩).state.fs.mm := by
  have hn : (launchKernel m).mm.npages ≤ 2 ^ 19 := (by decide : 24 ≤ 2 ^ 19)
  have hl : FreeList (blanked (pageSize * 3) (launchKernel m).fs).mm launchFree :=
    (launchKernel_list (m := m)).congr rfl rfl rfl
  have hspends := launchKernel_walk_spends hblocks va
  have hns := (hspends launchFree hl hn (by decide) rfl).1
  obtain ⟨f, l', hwalk, -⟩ := hagrees.finds va hname hns
  rw [hwalk] at hspends hns
  obtain ⟨l'', htook⟩ := Myos.Kernel.walkPath_took hl hn hwalk hns
  have hopen : Myos.Kernel.fileOpen va (Myos.Kernel.FileSt.setFs
      (blanked (pageSize * 3) (launchKernel m).fs) ⟨(launchKernel m).fs, {}⟩) = .ok 0 ⟨f, _⟩ :=
    Myos.Kernel.fileOpen_found hwalk
  have hblank : Myos.Kernel.Mem.entry f.mm.mem 5 0 = 0 := by
    refine Mem.rd_zero fun x h1 h2 => ?_
    have hframe : x / pageSize = 5 := by
      unfold pageSize at *
      omega
    rw [htook.mem x (by rw [hframe]; exact launchFree_low (by decide)),
      launchMem_beside (by unfold pageSize at *; omega), if_neg (by unfold pageSize at *; omega)]
  have hremove : Myos.Kernel.removePages (frameVa 5) (Myos.Kernel.turns utext ustacktop) utext
      f.mm = .ok () f.mm := Myos.Kernel.removePages_blank (by decide) hblank (by decide)
  have hread : Myos.Kernel.Spends (fun s : Myos.Kernel.FileSt => s.fs.mm) 2
      (Myos.Kernel.fileRead (kbase + pageSize * 3) 128 (0 : Nat) >>= fun _ => pure ()) :=
    Myos.Kernel.Spends.bind (k := 0) (Myos.Kernel.fileRead_one_spends (by decide) (by decide))
      fun _ => Myos.Kernel.Spends.pure ()
  rw [Myos.Kernel.execLoader]
  dsimp only
  rw [Act.bind_ok (Myos.Kernel.memset_blanked (by decide)), Act.bind_ok hopen,
    Act.bind_ok (Myos.Kernel.fileFs_ok (Myos.Kernel.fsMm_ok hremove))]
  have hcleared : (launchKernel m).mm.Spends 0 (blanked (pageSize * 3) (launchKernel m).fs).mm :=
    Myos.Kernel.Spends.of_same rfl rfl rfl rfl
  have hpath : (launchKernel m).mm.Spends (0 + 2) f.mm := hcleared.trans hspends
  exact hpath.trans (hread ⟨f, { inode := _ }⟩)

/-- Sixteen frames are enough for the program, and sixteen are free. -/
theorem launchKernel_served {c : Archive} (hm : Archived m c) (hone : c.rows.length = 1)
    (hfind : c.find name = some programData)
    (hname : (blanked (pageSize * 3) (launchKernel m).fs).mm.Holds launchFree va name.bytes) :
    (sysExecve (kbase + pageSize * 3) {} va (launchKernel m)).state.mm.starved = false := by
  have hlaunch := launchKernel_launches (m := m)
  have hn : (launchKernel m).mm.npages ≤ 2 ^ 19 := (by decide : 24 ≤ 2 ^ 19)
  have hblocks : rootBlocks m = 1 := by rw [hm.blocks, hone]; rfl
  obtain ⟨i, hi, hrow⟩ := Catalog.find_eq_some.mp hfind
  have hfit : programData.length ≤ fileBlocks * blkSize := by
    have hfits := hm.fits i hi
    rwa [hrow] at hfits
  obtain ⟨ino, hino, hstores, hagrees⟩ := hm.holds (by rw [hone]; decide)
    (launchKernel_served_start hlaunch.serves) hfind
  have hstart := launchKernel_start_spends hblocks hagrees hname
  have hwalk := (launchKernel_walk_spends hblocks va launchFree
    ((launchKernel_list (m := m)).congr rfl rfl rfl) hn (by decide) rfl).1
  have hserved := (hstart launchFree launchKernel_list hn (by decide) rfl).1
  obtain ⟨f, l', hfound, hserves⟩ := hlaunch.found hino hstores hfit program_programData.nonempty
    hagrees hname hwalk
  have hbytes := hserves.fileByte hino hstores hfit
  obtain ⟨s₀, hrun, hst⟩ := Myos.Kernel.execStart_run hlaunch.caller rfl hlaunch.buffer hfound
    hserved
  rw [hrun, Res.state_ok] at hstart
  obtain ⟨hnum, hseg⟩ := programData_inBlocks hbytes
  have hfile := program_programData.elf_inBlocks hbytes
  have hspends := Myos.Kernel.sysExecve_one_spends hlaunch.caller hlaunch.direct hlaunch.buffer hrun
    hst hstart (hfile.loadable fun i hi _ => ?_) hfile hnum hseg
  · exact (hspends launchFree launchKernel_list hn (by decide) rfl).1
  · rw [hnum] at hi
    rw [Nat.lt_one_iff.mp hi, hseg]
    decide

theorem programData_length : programData.length = 128 := by
  rw [programData, List.length_map, List.length_range]

/-- The program, read at once. -/
def programReads : Reads where
  chunks := [programData]
  nonempty c hc h := by
    rw [List.mem_singleton.mp hc, ← List.length_eq_zero_iff, programData_length] at h
    cases h
  fits c hc := by
    rw [List.mem_singleton.mp hc, programData_length]
    decide

theorem programReads_bytes : programReads.bytes = programData := List.flatten_singleton

/-- The only file of an image, by the name `p`. -/
def programFile : Member where
  name := ⟨[112], by decide, by decide, by decide⟩
  file := programReads
  whole c hc := absurd hc List.not_mem_nil
  fits := by
    rw [programReads_bytes, programData_length]
    decide

theorem programFile_row : programFile.row = (programFile.name, programData) :=
  Prod.ext rfl programReads_bytes

theorem archive_programFile : (archive [programFile]).rows = [(programFile.name, programData)] ∧
    (archive [programFile]).cost = cost programData.length := by
  have hadd : archive [programFile] = Catalog.empty.snoc programFile.row List.not_mem_nil := by
    exact Catalog.add_new (c := Catalog.empty) List.not_mem_nil
  have hrows : (archive [programFile]).rows = [(programFile.name, programData)] := by
    rw [hadd, ← programFile_row]
    rfl
  refine ⟨hrows, ?_⟩
  rw [Archive.cost, Catalog.total, hrows, List.map_singleton, List.sum_singleton]

theorem launched_sample : ∃ k', sysExecve (kbase + pageSize * 3) {} (frameVa 4)
      (launchKernel (archiveAt 0 [programFile] 1)) = .ok (.run 0) k' ∧
    ExecDone sampleProcessRoot 0 (pageSize * 3) (contents programData)
      (launchKernel (archiveAt 0 [programFile] 1)).mm k'.mm ∧
    (k'.procs 0).pregs =
      { ((launchKernel (archiveAt 0 [programFile] 1)).procs 0).pregs with
        rsp := ustacktop, rip := Mem.rd 8 (contents programData) eEntryOff } := by
  obtain ⟨hrows, hcost⟩ := archive_programFile
  have hcount : (archive [programFile]).rows.length < inodesInTable := by
    rw [hrows]
    decide
  have hroom : 1 + (archive [programFile]).cost ≤ 32754 := by
    rw [hcost, programData_length]
    decide
  have harchived := archived_run (t := 0) hcount hroom (Nat.le_refl [programFile].length)
  rw [List.take_length] at harchived
  have hlookup : ([programFile].map Member.row).lookup programFile.name = some programData := by
    rw [List.map_singleton, programFile_row]
    exact List.lookup_cons_self
  have hfind : (archive [programFile]).find programFile.name = some programData :=
    (Catalog.find_empty_addAll _).trans hlookup
  have hns := launchKernel_served harchived (by rw [hrows]; rfl) hfind launchKernel_name
  exact launched 0 [programFile] hcount hroom hlookup program_programData launchKernel_launches
    launchKernel_name hns

end Sample

end Myos.Image
