import Myos.Image.AllOrNothing

/-!
# The builder and the kernel

What `main` stores of a file on a blank image is what the kernel finds there: the name by
`walk_path`, the size in the inode, and each block of the file by `file_read`. A kernel that
serves the image (`Serves`) does so from the mount on, and after any of these calls.
-/

namespace Myos.Image

open Myos.Lib
open Myos.Kernel (FileSt Fs FreeList Mm Mounted Synced Took Target blkSize pageSize kbase frameVa
  fileRead fileReadLoop_run int32 inodesInTable diSizeOff)

/-- What a kernel that serves the image finds of the file: the inode by its name, the size, and the
blocks, the last one with noughts behind its end. -/
structure Agrees (m : Mem) (ino : Fin inodes) (name data : List UInt8) (s : Fs) (l : List Nat) :
    Prop where
  finds : ∀ va, s.mm.Holds l va name → (Myos.Kernel.walkPath va s).state.starved = false →
    ∃ s' l', Myos.Kernel.walkPath va s = .ok (0, some (s.inode ino)) s' ∧ Serves m s' l'
  size : Mem.rd 4 s.mm.mem (s.inode ino - kbase + diSizeOff) = data.length
  reads : ∀ file buf b pa ft fb, file.inode = s.inode ino → int32 file.offset = file.offset →
    blkSize * b < data.length → s.inoTable = frameVa ft → s.blkBitmap = frameVa fb →
    Target s.mm (ft :: fb :: l) buf blkSize pa →
    (fileRead buf blkSize (blkSize * b : Nat) ⟨s, file⟩).state.starved = false →
    ∃ s' l', fileRead buf blkSize (blkSize * b : Nat) ⟨s, file⟩ = .ok blkSize s' ∧
      (∀ k < blkSize, s'.fs.mm.mem (pa k) = data.getD (blkSize * b + k) 0) ∧ Serves m s'.fs l'

section Agreement

variable {m : Mem} {s : Fs} {l : List Nat} {ino : Fin inodes} {name data : List UInt8}

/-- Frames that are taken leave the image at hand. -/
theorem Serves.took {s' : Fs} {l' : List Nat} (h : Serves m s l) (ht : Took s l s' l')
    (hst : s'.starved = false) : Serves m s' l' := by
  obtain ⟨ft, fb, hm, hsync, hdisk⟩ := h
  exact ⟨ft, fb, hm.next ht.free ht.sub ht.npages ht.inoTable ht.blkBitmap hst,
    hsync.still (ht.still hm), ht.disk.trans hdisk⟩

/-- A block of a file that is stored is read to a buffer beside the frames in use. -/
theorem Serves.fileRead_block {file : Myos.Kernel.File} {buf b ft fb : Nat} {pa : Nat → Nat}
    (h : Serves m s l) (hino : ino.val < inodesInTable) (hs : Stores m ino data)
    (hfit : data.length ≤ fileBlocks * blkSize) (hfile : file.inode = s.inode ino)
    (hint : int32 file.offset = file.offset) (hb : blkSize * b < data.length)
    (hft : s.inoTable = frameVa ft) (hfb : s.blkBitmap = frameVa fb)
    (htarget : Target s.mm (ft :: fb :: l) buf blkSize pa)
    (hns : (fileRead buf blkSize (blkSize * b : Nat) ⟨s, file⟩).state.starved = false) :
    ∃ s' l', fileRead buf blkSize (blkSize * b : Nat) ⟨s, file⟩ = .ok blkSize s' ∧
      (∀ k < blkSize, s'.fs.mm.mem (pa k) = data.getD (blkSize * b + k) 0) ∧ Serves m s'.fs l' := by
  obtain ⟨ft', fb', hm, hsync, hdisk⟩ := id h
  obtain rfl : ft' = ft := by
    have hsame := hm.table.symm.trans hft
    unfold frameVa pageSize at hsame
    omega
  obtain rfl : fb' = fb := by
    have hsame := hm.bitmap.symm.trans hfb
    unfold frameVa pageSize at hsame
    omega
  have hlt : b < fileBlocks := by
    unfold fileBlocks blkSize at *
    omega
  have hno : s.blockNo (s.inode ino) b = Image.blockNo m ino b :=
    h.blockNo ino hino hlt
  have hblock : ∀ k, k < blkSize → (blkSize * b + k) / blkSize = b := by
    intro k hk
    unfold blkSize at *
    omega
  obtain ⟨s', l', hrun, hread⟩ := fileReadLoop_run (s := ⟨s, file⟩) (o := blkSize * b) (2 ^ 32) none
    hm.free hm.npages (by rw [hfile]; exact hm.kept_inode hino) (Nat.zero_le blkSize)
    (by decide) (by unfold fileBlocks blkSize at *; omega)
    (.inr (.inr (Nat.dvd_add (Nat.dvd_mul_right _ _) (Nat.dvd_refl _))))
    (fun k _ hk => by rw [hblock k hk, hfile, hno]; exact hs.number b hb) hint htarget.free
    (by rw [hfile]; exact hm.clear hino htarget) hns
  have hst : s'.fs.starved = false := by
    rw [fileRead, hrun] at hns
    exact hns
  refine ⟨s', l', hrun, fun k hk => ?_, ft', fb', hm.reads hread hst,
    hsync.still (hread.still hm (Nat.le_refl _) htarget), ?_⟩
  · rw [hread.bytes k hk, FileSt.bytesFrom, Fs.fileByte, Fs.fileAddr, hfile, Nat.add_zero,
      hblock k hk, hno, hdisk, Nat.mul_add_mod, Nat.mod_eq_of_lt hk, hs.bytes b hb k hk]
  · rw [hread.rest]
    exact hdisk

/-! ## What `main` makes of a blank image -/

/-- The first file gets inode 1. -/
theorem first_freeIno (m : Mem) : freeIno (formatted m) = some firstIno.val := by
  have hone : inoFree (formatted m) 1 = true := by
    rw [formatted_inoFree]
    decide
  cases hino : freeIno (formatted m) with
  | none => exact absurd hino (Bitmap.firstFrom_ne_none (Nat.zero_le 1) (by decide) hone)
  | some no =>
    obtain ⟨-, hfree, hfirst⟩ := freeIno_spec hino
    rw [formatted_inoFree, decide_eq_true_iff] at hfree
    have hle : no ≤ 1 := by
      by_contra hgt
      rw [hfirst 1 (Nat.lt_of_not_le hgt)] at hone
      cases hone
    exact congrArg some (Nat.le_antisymm hle hfree.1)

/-- A formatted blank image has blocks for every file that an inode has places for. -/
theorem first_cost (hfit : data.length ≤ fileBlocks * blkSize) :
    entryCost (formatted blank) + cost data.length ≤ freeBlocks (formatted blank) := by
  have hentry := entryCost_le (formatted blank)
  have hcost : cost data.length ≤ cost (fileBlocks * blkSize) := cost_le hfit
  have hall : cost (fileBlocks * blkSize) = 2059 := by decide
  rw [blank_freeBlocks]
  omega

/-- MAIN: the file is in the first entry, and in the first inode. -/
theorem main_stores {file : Reads} (hname : 0 ∉ name) (hne : name ≠ []) (hlen : name.length ≤ 14)
    (hwhole : file.Whole) (hfit : file.bytes.length ≤ fileBlocks * blkSize) :
    ∃ m', main 2 name (some file) blank = .ok 0 m' ∧ Formed m' ∧ Made (formatted blank) m' firstIno name ∧
      Stores m' firstIno file.bytes := by
  have hm := blank_formed
  have hread : ReadWhole (some file) := fun f hf => by
    cases hf
    exact hwhole
  have hc : Call.Enters ⟨0, name, some file⟩ (formatted blank) := first_enters _
  have hc' : Call.Enters ⟨2, name, some file⟩ (formatted blank) := first_enters _
  obtain ⟨m', hrun⟩ := hc.returns hm first_freeInodes hread
  have hformed := (hm.create first_freeInodes 2 name (some file)).1
  have hmade := hc'.made hm.toRooted hm.small (first_freeIno blank)
  unfold Call.after at hmade
  rw [hrun] at hformed hmade
  refine ⟨m', ?_, hformed, hmade, ?_⟩
  · unfold main
    rw [Act.bind_ok (format_run blank), Act.bind_ok hrun]
    rfl
  · obtain ⟨f, n, hf, hempty, hfiled⟩ := (hc'.filed_iff hm first_freeInodes hread hname hrun).mpr
      ⟨hne, hlen, file, rfl, hfit, first_cost hfit⟩
    cases hf
    obtain rfl := hmade.eq_slot hempty hfiled.used
    exact ((hmade.filed_iff hname).mp hfiled).2.2.2

end Agreement

/-- AGREEMENT: the kernel that mounts the image of a file finds the file in it. -/
theorem builder_kernel_agree (name : List UInt8) (file : Reads) (hname : 0 ∉ name) (hne : name ≠ [])
    (hlen : name.length ≤ 13) (hwhole : file.Whole)
    (hfit : file.bytes.length ≤ fileBlocks * blkSize) :
    ∃ turns m', main turns name (some file) blank = .ok 0 m' ∧ Stores m' firstIno file.bytes ∧
      (∀ s, Mounts m' s → ∃ l, Serves m' s l) ∧
      ∀ s l, Serves m' s l → Agrees m' firstIno name file.bytes s l := by
  obtain ⟨m', hrun, hm, hmade, hstores⟩ := main_stores hname hne (hlen.trans (by decide)) hwhole hfit
  have hslot : slotFor (formatted blank) = 0 := holding_start.slotFor (by decide) (by decide)
  have hc : Call.Enters ⟨0, name, some file⟩ (formatted blank) := first_enters _
  have hstands := hmade.stands
  have hsole := hmade.sole (hc.unknown blank_formed) hlen hname hne
  rw [hslot] at hstands hsole
  refine ⟨2, m', hrun, hstores, fun s => Mounts.serves, fun s l hserves => ⟨fun va hva hns => ?_, ?_,
    fun file' buf b pa ft fb hfile hint hb hft hfb htarget hns =>
      hserves.fileRead_block (by decide) hstores hfit hfile hint hb hft hfb htarget hns⟩⟩
  · obtain ⟨s', hwalk⟩ := hsole.kernel hstands (by decide) hm hlen hname hserves hva hns
    rw [hwalk] at hns
    obtain ⟨l', htook⟩ : ∃ l', Took s l s' l' := by
      obtain ⟨ft, fb, hmount, -⟩ := hserves
      exact Myos.Kernel.walkPath_took hmount.free hmount.npages hwalk hns
    rw [hstands.entryIno] at hwalk
    exact ⟨s', l', hwalk, hserves.took htook hns⟩
  · rw [hserves.size firstIno (by decide)]
    exact hstores.size

/-- A file of two bytes under a name of one. -/
theorem builder_kernel_agree_one :
    ∃ turns m', main turns [97] (some sampleWhole) blank = .ok 0 m' ∧
      Stores m' firstIno sampleWhole.bytes ∧ (∀ s, Mounts m' s → ∃ l, Serves m' s l) ∧
      ∀ s l, Serves m' s l → Agrees m' firstIno [97] sampleWhole.bytes s l :=
  builder_kernel_agree [97] sampleWhole (by decide) (by decide) (by decide)
    (by unfold Reads.Whole; decide) (by decide)

end Myos.Image
