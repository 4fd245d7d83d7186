import Myos.Image.Agreement
import Myos.Lib.Catalog

/-!
# The image as an archive

A row of `create_file_image` calls fills a catalog, in which the first file of a name
stays. A formatted image has the empty one, a call adds its file or, if the name is there,
fails and leaves the image alone (`Archived.call`), and it does so as long as there are
inodes in the kernel's part of the table and blocks (`archive_built`). A kernel that mounts
the image finds the files of the catalog and no others (`archive_served`).
-/

namespace Myos.Image

open Myos.Lib
open Myos.Kernel (Fs FreeList Kept Took blkSize rootInode inodesInTable inodeSize directSize
  nameOff)

/-- A name that an entry has room for, and for its nought. -/
structure FileName where
  bytes : List UInt8
  ended : 0 ∉ bytes
  named : bytes ≠ []
  short : bytes.length ≤ 13
deriving DecidableEq

/-- A file for the image: it is read in whole blocks, and an inode has places for it. -/
structure Member where
  name : FileName
  file : Reads
  whole : file.Whole
  fits : file.bytes.length ≤ fileBlocks * blkSize

/-- The call for it, with turns enough. -/
def Member.call (t : Nat) (f : Member) : Call := ⟨t + 2, f.name.bytes, some f.file⟩

/-- The files of an image, by their names. -/
abbrev Archive := Catalog FileName (List UInt8)

/-- What it brings to an archive. -/
def Member.row (f : Member) : FileName × List UInt8 := (f.name, f.file.bytes)

/-- The archive of a row of files. -/
def archive (files : List Member) : Archive := Catalog.empty.addAll (files.map Member.row)

/-- The blocks that the files take. -/
def Archive.cost (c : Archive) : Nat := c.total fun data => Image.cost data.length

/-- The image has the files of the archive: each is in the entry and the inode of its row, and
what is not free is theirs or the directory's. -/
structure Archived (m : Mem) (c : Archive) : Prop extends Filling m c.rows.length where
  stands : ∀ i (hi : i < c.rows.length) (ino : Fin inodes), ino.val = i + 1 →
    Stands m i ino c.rows[i].1.bytes ∧ Stores m ino c.rows[i].2
  fits : ∀ i (hi : i < c.rows.length), c.rows[i].2.length ≤ fileBlocks * blkSize
  room : freeBlocks m + rootBlocks m + c.cost = 32754

/-! ## The other files of a call -/

section Others

variable {m : Mem} {ino j : Fin inodes} {d : Nat} {name data : List UInt8} {c : Call}

/-- A new entry leaves what is stored. -/
theorem Stores.entered (h : Stores m j data) (hm : Rooted m) (hd : RootEntry m d) (hne : j ≠ ino)
    (hroot : j ≠ root) : Stores (entered m ino d name) j data := by
  have hb : Beside m (Image.entered m ino d name) := entered_beside hm hd
  have hval : ∀ b, blockNo (Image.entered m ino d name) j b = blockNo m j b := fun b => hb.val _
  refine ⟨(entered_size hd hm hne).trans h.size, fun b hlt => ?_, fun b hlt k hk => ?_⟩
  · rw [hval]
    exact h.number b hlt
  · obtain ⟨b', hb', hrange⟩ := hd.range
    have hno := h.number b hlt
    have hlo : 14 ≤ blockNo m j b := (hm.sane.sound.range (filePlace j b) hno).1
    have hblock : (blkSize * blockNo m j b + k) / blkSize = blockNo m j b := by
      rw [Nat.mul_add_div (by decide), Nat.div_eq_of_lt hk, Nat.add_zero]
    rw [hval, entered_out ?_, inodeTaken_out]
    · exact h.bytes b hlt k hk
    · omega
    · have hino := ino.isLt
      unfold inodes at hino
      rw [inode_eq]
      unfold blkSize at *
      omega
    · -- a block of the directory is not one of the file
      by_contra hmeet
      have hsame : blockNo m j b = blockNo m root b' := by
        rw [← hblock]
        exact hrange _ (by omega) (by omega)
      have hplace : filePlace j b = filePlace root b' := hm.sane.sound.inj _ _ hno hsame
      have howner := congrArg Place.owner hplace
      rw [filePlace_owner, filePlace_owner] at howner
      exact hroot howner

/-- CALL: what is stored in an inode that is in use stays. -/
theorem Call.Enters.stores (hc : c.Enters m) (hm : Formed m) (hfree : 1 ≤ freeInodes m)
    (hroot : j ≠ root) (hused : inoFree m j = false) (h : Stores m j data) :
    Stores (c.after m) j data := by
  obtain ⟨ino, hino, hinofree⟩ := freeIno_table hfree
  obtain ⟨m₁, hgot, hrun⟩ := hc.run hm.toRooted hm.small hino
  have hne : j ≠ ino := by
    rintro rfl
    rw [hused] at hinofree
    cases hinofree
  have hslot := slot_rootEntry hgot.slot
  have hfree₁ : inoFree m₁ ino = true := by
    rw [hgot.inoFree]
    exact hinofree
  obtain ⟨hrooted, -⟩ := @entered_rooted _ _ _ c.name hgot.rooted hslot hfree₁
  obtain ⟨hsane, hext⟩ := writeFile_keeps c.turns c.file hrooted.sane
    (@entered_size_same _ _ _ c.name hslot hgot.rooted)
  have hfirst : Stores m₁ j data := h.extends hgot.rooted.sane hgot.ext hroot
  unfold Call.after
  rw [hrun, Act.state_discard]
  exact (hfirst.entered hgot.rooted hslot hne hroot).extends hsane hext hne

/-- What a call for a file that can be had leaves free. -/
theorem Call.Enters.spent {f : Reads} {t : Nat} {m' : Mem}
    (hc : Call.Enters ⟨t + 2, name, some f⟩ m) (hm : Formed m)
    (hino : freeIno m = some ino.val) (hinofree : inoFree m ino = true) (hwhole : f.Whole)
    (hfits : f.bytes.length ≤ fileBlocks * blkSize)
    (hroom : entryCost m + cost f.bytes.length ≤ freeBlocks m)
    (hrun : createFileImage (t + 2) name (some f) m = .ok 0 m') :
    Stores m' ino f.bytes ∧ freeBlocks m' + (entryCost m + cost f.bytes.length) = freeBlocks m := by
  obtain ⟨m₂, r, hsane, hfresh, hblocks, hwrite⟩ := hc.wrote hm hino hinofree hrun
  obtain ⟨r', m'', hwrite', -, -, hcase⟩ := writeChunks_spends (d := none) (t + 2) f.nonempty f.fits
    hwhole hsane hfresh.written (fun _ => Nat.dvd_zero _) (by rwa [List.nil_append])
  obtain ⟨rfl, rfl⟩ : r' = r ∧ m'' = m' := by
    have hsame := hwrite'.symm.trans hwrite
    injection hsame with h1 h2
    exact ⟨h1, h2⟩
  have hzero : cost ([] : List UInt8).length = 0 := by decide
  rw [List.nil_append, hzero, Nat.add_zero] at hcase
  change (if cost f.bytes.length ≤ _ then _ ∧ Written _ _ f.bytes ∧ _ + cost f.bytes.length = _
    else _) at hcase
  rw [if_pos (by omega)] at hcase
  exact ⟨hcase.2.1.toStores, by omega⟩

end Others

/-! ## A call -/

section Archived

variable {m m' : Mem} {c : Archive} {f : Member} {name : FileName} {e i n t : Nat}

/-- The first block of the directory comes with the first entry. -/
theorem Filling.entryCost (h : Filling m n) (hn : n < entries) :
    Image.entryCost m + rootBlocks m = 1 := by
  have hblocks := h.blocks
  cases hhand : handed m with
  | some k =>
    obtain ⟨hpos, -⟩ := handed_spec hhand
    rw [Image.entryCost, if_neg (by rw [hhand]; simp), hblocks]
    unfold entries at *
    omega
  | none =>
    have hzero : rootBlocks m = 0 := by
      by_contra hne
      have hused := handed_none hhand (Nat.pos_of_ne_zero hne) n hn
      rw [h.vacant, decide_eq_false_iff_not] at hused
      exact hused (Nat.le_refl n)
    rw [Image.entryCost, if_pos hhand, need, hzero, h.formed.bare 0 (by decide) hzero.le,
      if_neg (by omega), if_pos rfl]

theorem archived_start : Archived (formatted blank) Catalog.empty where
  toFilling := filling_start
  stands i hi := absurd hi (Nat.not_lt_zero i)
  fits i hi := absurd hi (Nat.not_lt_zero i)
  room := by
    rw [blank_freeBlocks, filling_start.blocks]
    rfl

/-- An entry of the first block has a name just if its row has it. -/
theorem Archived.named_iff (h : Archived m c) (he : e < entries) :
    named m e name.bytes = true ↔ ∃ hi : e < c.rows.length, c.rows[e].1 = name := by
  by_cases hlt : e < c.rows.length
  · have hino : e + 1 < inodes := by
      unfold entries at he
      unfold inodes
      omega
    obtain ⟨hs, -⟩ := h.stands e hlt ⟨e + 1, hino⟩ rfl
    by_cases hsame : c.rows[e].1 = name
    · refine iff_of_true ?_ ⟨hlt, hsame⟩
      rw [← hsame]
      exact hs.named c.rows[e].1.short c.rows[e].1.ended
    · refine iff_of_false (fun hnamed => ?_) fun ⟨_, he'⟩ => hsame he'
      have hother := Stands.named_other (c := ⟨0, c.rows[e].1.bytes, none⟩) hs name.short name.ended
        c.rows[e].1.ended fun hbytes => hsame ?_
      · rw [hother] at hnamed
        cases hnamed
      · cases hrow : c.rows[e].1
        cases name
        rw [hrow] at hbytes
        simpa using hbytes
  · refine iff_of_false (fun hnamed => ?_) fun ⟨hi, _⟩ => hlt hi
    have hempty := h.vacant e
    rw [decide_eq_true (Nat.not_lt.mp hlt), Image.vacant, decide_eq_true_iff] at hempty
    obtain ⟨b, bs, hname⟩ := List.exists_cons_of_ne_nil name.named
    have hended := name.ended
    unfold named at hnamed
    rw [hname] at hnamed hended
    have hb := spelled_byte hnamed (Nat.succ_pos _)
    rw [Nat.add_zero, hempty, List.getD_cons_zero] at hb
    rw [List.mem_cons, not_or] at hended
    exact hended.1 hb

/-- The names that `walk_path` knows are those of the archive. -/
theorem Archived.known_iff (h : Archived m c) (hn : c.rows.length ≤ entries) :
    Known m name.bytes ↔ c.Has name := by
  rw [Image.known_iff name.short]
  unfold Catalog.Has
  rw [List.mem_map]
  constructor
  · rintro ⟨-, e, he, hnamed⟩
    obtain ⟨hi, hsame⟩ := (h.named_iff he).mp hnamed
    exact ⟨c.rows[e], List.getElem_mem hi, hsame⟩
  · rintro ⟨r, hr, rfl⟩
    obtain ⟨i, hi, rfl⟩ := List.mem_iff_getElem.mp hr
    refine ⟨?_, i, hi.trans_le hn, (h.named_iff (hi.trans_le hn)).mpr ⟨hi, rfl⟩⟩
    rw [h.blocks]
    unfold entries
    omega

/-- The builder looks for a name. -/
theorem Archived.walkPath (h : Archived m c) (hn : c.rows.length ≤ entries) (name : FileName) :
    Image.walkPath name.bytes m = .ok (if c.Has name then 0 else -1) m := by
  have hfit : blkSize * blocks + 13 ≤ imgSize := by decide
  have hlen := name.short
  rcases walkPath_run h.formed.toRooted h.formed.small.le
    (show blkSize * blocks + name.bytes.length ≤ imgSize by omega) with ⟨hk, hrun⟩ | ⟨hk, hrun⟩
  · rw [if_pos ((h.known_iff hn).mp hk)]
    exact hrun
  · rw [if_neg fun hhas => hk ((h.known_iff hn).mpr hhas)]
    exact hrun

/-- A file whose name is there is refused. -/
theorem Archived.refused (h : Archived m c) (hn : c.rows.length ≤ entries) (hhas : c.Has f.name) :
    createFileImage (t + 2) f.name.bytes (some f.file) m = .ok (-1) m := by
  have hwalk := h.walkPath hn f.name
  rw [if_pos hhas] at hwalk
  unfold createFileImage
  rw [Act.bind_ok hwalk]
  rfl

/-- One with a new name is added. -/
theorem Archived.added (h : Archived m c) (hn : c.rows.length < entries - 1)
    (hnew : ¬ c.Has f.row.1) (hroom : 1 + c.cost + cost f.file.bytes.length ≤ 32754) :
    ∃ m', createFileImage (t + 2) f.name.bytes (some f.file) m = .ok 0 m' ∧
      Archived m' (c.snoc f.row hnew) := by
  obtain ⟨n, hlen⟩ : ∃ n, n = c.rows.length := ⟨_, rfl⟩
  have hfill : Filling m n := hlen ▸ h.toFilling
  rw [← hlen] at hn
  unfold entries at hn
  have hK := h.formed.small
  have hentry := hfill.entryCost (by unfold entries; omega)
  have hold := h.room
  have hc : (f.call t).Enters m := by
    rw [Call.enters_iff h.formed.toRooted hK]
    have hwalk := h.walkPath (by unfold entries; omega) f.name
    rw [if_neg (show ¬ c.Has f.name from hnew)] at hwalk
    exact ⟨hwalk, by omega⟩
  have hfree := hfill.freeInodes (by omega)
  obtain ⟨ino, hino⟩ : ∃ ino : Fin inodes, ino.val = n + 1 :=
    ⟨⟨n + 1, by unfold inodes; omega⟩, rfl⟩
  have hfirst : freeIno m = some ino.val := by rw [hfill.freeIno (by omega), hino]
  have hmade := hc.made h.formed.toRooted hK hfirst
  have hslot := hfill.slotFor (by omega) (by omega)
  obtain ⟨m', hrun⟩ := Call.Enters.returns (c := ⟨t, f.name.bytes, some f.file⟩) hc h.formed hfree
    fun g hg => by
      cases hg
      exact f.whole
  have hafter : (f.call t).after m = m' := by
    unfold Call.after Member.call
    rw [hrun]
    rfl
  obtain ⟨hstored, hspent⟩ := Call.Enters.spent hc h.formed hfirst (freeIno_spec hfirst).2.1 f.whole
    f.fits (by omega) hrun
  have hformed := (h.formed.create hfree (t + 2) f.name.bytes (some f.file)).1
  change Formed ((f.call t).after m) at hformed
  rw [hafter] at hformed hmade
  have hnext : Filling m' (n + 1) := hfill.made hformed hmade hino (by omega) fun hz => by
    obtain ⟨b, bs, hname⟩ := List.exists_cons_of_ne_nil f.name.named
    have hended := f.name.ended
    change f.name.bytes.getD 0 0 = 0 at hz
    rw [hname] at hz hended
    rw [List.mem_cons, not_or] at hended
    exact hended.1 hz.symm
  have hrows : (c.snoc f.row hnew).rows.length = n + 1 := by
    rw [Catalog.snoc_rows, List.length_append, ← hlen]
    rfl
  refine ⟨m', hrun, ⟨hrows.symm ▸ hnext, fun i hi j hj => ?_, fun i hi => ?_, ?_⟩⟩
  · by_cases hin : i < c.rows.length
    · obtain ⟨hs, hdata⟩ := h.stands i hin j hj
      simp only [Catalog.snoc_rows, List.getElem_append_left hin]
      rw [← hafter]
      exact ⟨hs.after h.formed (fun _ => hfree) c.rows[i].1.ended c.rows[i].1.named,
        hc.stores h.formed hfree (fun he => by
          have hval := congrArg Fin.val he
          rw [hj] at hval
          exact absurd hval (Nat.succ_ne_zero i)) hs.used hdata⟩
    · have hin' : i - c.rows.length = 0 := by omega
      have hlast : i = n := by omega
      obtain rfl : j = ino := Fin.ext (by rw [hj, hino, hlast])
      have hs := hmade.stands
      rw [hslot, ← hlast] at hs
      simp only [Catalog.snoc_rows, List.getElem_append_right (Nat.not_lt.mp hin), hin',
        List.getElem_singleton]
      exact ⟨hs, hstored⟩
  · by_cases hin : i < c.rows.length
    · simp only [Catalog.snoc_rows, List.getElem_append_left hin]
      exact h.fits i hin
    · have hin' : i - c.rows.length = 0 := by omega
      simp only [Catalog.snoc_rows, List.getElem_append_right (Nat.not_lt.mp hin), hin',
        List.getElem_singleton]
      exact f.fits
  · have hblocks : rootBlocks m' = 1 := by
      rw [hnext.blocks]
      unfold entries
      omega
    have hcost : Archive.cost (c.snoc f.row hnew) = c.cost + cost f.file.bytes.length :=
      Catalog.total_snoc hnew
    omega

/-- CALL: the file is added, or its name is there and the image stays as it is. -/
theorem Archived.call (h : Archived m c) (hn : c.rows.length < entries - 1)
    (hroom : 1 + Archive.cost (c.add f.row) ≤ 32754) :
    ∃ m', createFileImage (t + 2) f.name.bytes (some f.file) m =
        .ok (if c.Has f.name then -1 else 0) m' ∧
      Archived m' (c.add f.row) ∧ (c.Has f.name → m' = m) := by
  by_cases hhas : c.Has f.name
  · rw [if_pos hhas, Catalog.add_has (show c.Has f.row.1 from hhas)]
    exact ⟨m, h.refused (by unfold entries at *; omega) hhas, h, fun _ => rfl⟩
  · have hnew : ¬ c.Has f.row.1 := hhas
    rw [Catalog.add_new hnew] at hroom ⊢
    have hcost : Archive.cost (c.snoc f.row hnew) = c.cost + cost f.file.bytes.length :=
      Catalog.total_snoc hnew
    obtain ⟨m', hrun, hend⟩ := h.added (t := t) hn hnew (by omega)
    rw [if_neg hhas]
    exact ⟨m', hrun, hend, fun hc => absurd hc hhas⟩

end Archived

/-! ## A row of calls -/

section Built

variable {t : Nat} {files : List Member} {k : Nat}

theorem archive_take (hk : k < files.length) :
    archive (files.take (k + 1)) = (archive (files.take k)).add files[k].row := by
  unfold archive Catalog.addAll
  rw [List.take_succ_eq_append_getElem hk, List.map_append, List.foldl_append]
  rfl

theorem archive_until (files : List Member) (k : Nat) :
    (archive (files.take k)).rows <+: (archive files).rows := by
  have hsplit :
      archive files = (archive (files.take k)).addAll ((files.drop k).map Member.row) := by
    unfold archive Catalog.addAll
    rw [← List.foldl_append, ← List.map_append, List.take_append_drop]
  rw [hsplit]
  exact Catalog.prefix_addAll _

/-- The image after the first calls. -/
def archiveAt (t : Nat) (files : List Member) (k : Nat) : Mem :=
  stateAt (formatted blank) (files.map (Member.call t)) k

theorem archiveAt_succ (hk : k < files.length) :
    archiveAt t files (k + 1) = (files[k].call t).after (archiveAt t files k) := by
  have hk' : k < (files.map (Member.call t)).length := by rwa [List.length_map]
  rw [archiveAt, stateAt_succ _ hk', List.getElem_map]
  rfl

/-- RUN: the image has the files of the calls so far, if there are inodes and blocks for all. -/
theorem archived_run (hcount : (archive files).rows.length < inodesInTable)
    (hroom : 1 + (archive files).cost ≤ 32754) (hk : k ≤ files.length) :
    Archived (archiveAt t files k) (archive (files.take k)) := by
  induction k with
  | zero => exact archived_start
  | succ k ih =>
    have hold := ih (Nat.le_of_succ_le hk)
    have hlen := (archive_until files k).length_le
    have hcost : Archive.cost (archive (files.take (k + 1))) ≤ Archive.cost (archive files) :=
      Catalog.total_le (archive_until files (k + 1))
    rw [archive_take hk] at hcost ⊢
    obtain ⟨m', hrun, hend, -⟩ := hold.call (t := t) (f := files[k])
      (by unfold inodesInTable at hcount; unfold entries; omega) (by omega)
    have hafter : (files[k].call t).after (archiveAt t files k) = m' := by
      unfold Call.after Member.call
      rw [hrun]
      rfl
    rw [archiveAt_succ hk, hafter]
    exact hend

/-- What the calls of a row come to. -/
structure Builds (t : Nat) (files : List Member) : Prop where
  returns : ∀ k (hk : k < files.length),
    createFileImage (t + 2) files[k].name.bytes (some files[k].file) (archiveAt t files k) =
      .ok (if (archive (files.take k)).Has files[k].name then -1 else 0) (archiveAt t files (k + 1))
  refuses : ∀ k (hk : k < files.length), (archive (files.take k)).Has files[k].name →
    archiveAt t files (k + 1) = archiveAt t files k
  formed : ∀ k ≤ files.length, Formed (archiveAt t files k)
  room : ∀ k ≤ files.length, freeBlocks (archiveAt t files k) + rootBlocks (archiveAt t files k) +
    Archive.cost (archive (files.take k)) = 32754

/-- BUILD: with inodes and blocks for all, a call fails just if the name was there, and leaves the
image then; and no block is lost. -/
theorem archive_built (t : Nat) (files : List Member)
    (hcount : (archive files).rows.length < inodesInTable)
    (hroom : 1 + (archive files).cost ≤ 32754) : Builds t files := by
  have hcall : ∀ k (hk : k < files.length), ∃ m',
      createFileImage (t + 2) files[k].name.bytes (some files[k].file) (archiveAt t files k) =
        .ok (if (archive (files.take k)).Has files[k].name then -1 else 0) m' ∧
      archiveAt t files (k + 1) = m' ∧
      ((archive (files.take k)).Has files[k].name → m' = archiveAt t files k) := by
    intro k hk
    have hold := archived_run (t := t) hcount hroom hk.le
    have hlen := (archive_until files k).length_le
    have hcost : Archive.cost (archive (files.take (k + 1))) ≤ Archive.cost (archive files) :=
      Catalog.total_le (archive_until files (k + 1))
    rw [archive_take hk] at hcost
    obtain ⟨m', hrun, -, hsame⟩ := hold.call (t := t) (f := files[k])
      (by unfold inodesInTable at hcount; unfold entries; omega) (by omega)
    refine ⟨m', hrun, ?_, hsame⟩
    rw [archiveAt_succ hk]
    unfold Call.after Member.call
    rw [hrun]
    rfl
  refine ⟨fun k hk => ?_, fun k hk hhas => ?_, fun k hk => (archived_run hcount hroom hk).formed,
    fun k hk => (archived_run hcount hroom hk).room⟩
  · obtain ⟨m', hrun, hnext, -⟩ := hcall k hk
    rw [hnext]
    exact hrun
  · obtain ⟨m', -, hnext, hsame⟩ := hcall k hk
    rw [hnext]
    exact hsame hhas

end Built

/-! ## What the kernel finds -/

section Served

variable {m : Mem} {c : Archive} {s : Fs} {l : List Nat} {n : Nat} {ino : Fin inodes}
  {name data : List UInt8}

/-- A file that stands alone in the first block is what the kernel finds. -/
theorem Stands.agrees (hs : Stands m n ino name) (hsole : Sole m n name) (hm : Formed m)
    (hn : n < entries) (hino : ino.val < inodesInTable) (hlen : name.length ≤ 13) (hname : 0 ∉ name)
    (hstores : Stores m ino data) (hfits : data.length ≤ fileBlocks * blkSize)
    (hserves : Serves m s l) : Agrees m ino name data s l := by
  refine ⟨fun va hva hns => ?_, ?_, fun file buf b pa ft fb hfile hint hb hft hfb htarget hns =>
    hserves.fileRead_block hino hstores hfits hfile hint hb hft hfb htarget hns⟩
  · obtain ⟨s', hwalk⟩ := hsole.kernel hs hn hm hlen hname hserves hva hns
    rw [hwalk] at hns
    obtain ⟨l', htook⟩ : ∃ l', Took s l s' l' := by
      obtain ⟨ft, fb, hmount, -⟩ := hserves
      exact Myos.Kernel.walkPath_took hmount.free hmount.npages hwalk hns
    rw [hs.entryIno] at hwalk
    exact ⟨s', l', hwalk, hserves.took htook hns⟩
  · rw [hserves.size ino hino]
    exact hstores.size

/-- A name that no entry of the first block has is not found. -/
theorem Serves.missing (hserves : Serves m s l) (hm : Formed m) (hno : ¬ Known m name)
    (hlen : name.length ≤ 13) (hname : 0 ∉ name) {va : Nat} (hva : s.mm.Holds l va name)
    (hns : (Myos.Kernel.walkPath va s).state.starved = false) :
    ∃ r s' l', r < 0 ∧ Myos.Kernel.walkPath va s = .ok (r, none) s' ∧ Serves m s' l' := by
  obtain ⟨hl, hnp, hroot⟩ : FreeList s.mm l ∧ s.mm.npages ≤ 2 ^ 19 ∧
      Kept l (s.inode rootInode) inodeSize := by
    obtain ⟨ft, fb, hmount, -⟩ := hserves
    exact ⟨hmount.free, hmount.npages, hmount.kept_inode (by decide)⟩
  obtain ⟨r, o, s', hrun, hsearched⟩ := Myos.Kernel.walkPath_run hl hnp hroot hva hlen hns
  unfold Fs.Searched at hsearched
  rw [hserves.rootBlocks, Nat.zero_add] at hsearched
  rcases hsearched with ⟨hr, rfl, -⟩ | ⟨b, j, -, hb, hlead, ⟨-, hj, hspell⟩, -⟩
  · rw [hrun] at hns
    obtain ⟨l', htook⟩ : ∃ l', Took s l s' l' := by
      obtain ⟨ft, fb, hmount, -⟩ := hserves
      exact Myos.Kernel.walkPath_took hmount.free hmount.npages hrun hns
    exact ⟨r, s', l', hr, hrun, hserves.took htook hns⟩
  · have hpos : 0 < Image.rootBlocks m := by omega
    have hfirst : s.blockNo (s.inode rootInode) 0 = Image.blockNo m root 0 :=
      hserves.blockNo root (by decide) (by decide)
    obtain rfl : b = 0 := by
      by_contra hne
      have hzero := hlead 0 (Nat.le_refl 0) (Nat.pos_of_ne_zero hne)
      rw [hfirst] at hzero
      exact hm.present 0 hpos hzero
    refine absurd ⟨hpos, j, hj, ?_⟩ hno
    rw [spelled_iff_spells hname]
    rw [hserves.disk, Fs.direntAddr, hfirst] at hspell
    exact hspell

/-- What a kernel that serves the image finds: for a name that has a file in the archive this file,
and nothing for another. -/
structure Offers (m : Mem) (found : FileName → Option (List UInt8)) (s : Fs) (l : List Nat) :
    Prop where
  has : ∀ name data, found name = some data →
    ∃ ino : Fin inodes, Agrees m ino name.bytes data s l
  lacks : ∀ name va, found name = none → s.mm.Holds l va name.bytes →
    (Myos.Kernel.walkPath va s).state.starved = false →
      ∃ r s' l', r < 0 ∧ Myos.Kernel.walkPath va s = .ok (r, none) s' ∧ Serves m s' l'

/-- A file of the archive is in the image, and a kernel finds it there. -/
theorem Archived.holds {name : FileName} (h : Archived m c)
    (hcount : c.rows.length < inodesInTable) (hserves : Serves m s l)
    (hfind : c.find name = some data) : ∃ ino : Fin inodes, ino.val < inodesInTable ∧
      Stores m ino data ∧ Agrees m ino name.bytes data s l := by
  have hn : c.rows.length ≤ entries := by
    unfold inodesInTable at hcount
    unfold entries
    omega
  obtain ⟨i, hi, hrow⟩ := Catalog.find_eq_some.mp hfind
  have hlt : i + 1 < inodesInTable := by omega
  obtain ⟨hs, hstores⟩ := h.stands i hi ⟨i + 1, hlt.trans (by decide)⟩ rfl
  have hsole : Sole m i c.rows[i].1.bytes := by
    intro e he hne
    by_contra hnamed
    rw [Bool.not_eq_false] at hnamed
    obtain ⟨hlt', hsame⟩ := (h.named_iff he).mp hnamed
    exact hne (c.key_inj hsame)
  have hagrees :=
    hs.agrees hsole h.formed (hi.trans_le hn) hlt c.rows[i].1.short c.rows[i].1.ended
      hstores (h.fits i hi) hserves
  rw [hrow] at hstores hagrees
  exact ⟨_, hlt, hstores, hagrees⟩

theorem Archived.offers (h : Archived m c) (hcount : c.rows.length < inodesInTable)
    (hserves : Serves m s l) : Offers m c.find s l := by
  have hn : c.rows.length ≤ entries := by
    unfold inodesInTable at hcount
    unfold entries
    omega
  refine ⟨fun name data hfind => ?_, fun name va hfind hva hns => ?_⟩
  · obtain ⟨ino, -, -, hagrees⟩ := h.holds hcount hserves hfind
    exact ⟨ino, hagrees⟩
  · exact hserves.missing h.formed
      (fun hk => Catalog.find_eq_none.mp hfind ((h.known_iff hn).mp hk)) name.short name.ended
      hva hns

/-- SERVED: a kernel that mounts the image of a row of files finds, for each name, the first of them
that has it. -/
theorem archive_served (t : Nat) (files : List Member)
    (hcount : (archive files).rows.length < inodesInTable)
    (hroom : 1 + (archive files).cost ≤ 32754) :
    (∀ s, Mounts (archiveAt t files files.length) s →
      ∃ l, Serves (archiveAt t files files.length) s l) ∧
    ∀ s l, Serves (archiveAt t files files.length) s l →
      Offers (archiveAt t files files.length)
        (fun name => (files.map Member.row).lookup name) s l := by
  have h := archived_run (t := t) hcount hroom (Nat.le_refl files.length)
  rw [List.take_length] at h
  refine ⟨fun s => Mounts.serves, fun s l hserves => ?_⟩
  have hoffers := h.offers hcount hserves
  rwa [show (archive files).find = fun name => (files.map Member.row).lookup name from
    funext fun name => Catalog.find_empty_addAll _] at hoffers

end Served

/-- Three files, two of them of one name. -/
def sampleFiles : List Member :=
  [⟨⟨[97], by decide, by decide, by decide⟩, sampleWhole, by unfold Reads.Whole; decide, by decide⟩,
   ⟨⟨[98], by decide, by decide, by decide⟩, sampleWhole, by unfold Reads.Whole; decide, by decide⟩,
   ⟨⟨[97], by decide, by decide, by decide⟩, ⟨[[3]], by decide, by decide⟩,
     by unfold Reads.Whole; decide, by decide⟩]

theorem archive_built_sample : Builds 0 sampleFiles :=
  archive_built 0 sampleFiles (by decide) (by decide)

theorem archive_served_sample :
    (∀ s, Mounts (archiveAt 0 sampleFiles sampleFiles.length) s →
      ∃ l, Serves (archiveAt 0 sampleFiles sampleFiles.length) s l) ∧
    ∀ s l, Serves (archiveAt 0 sampleFiles sampleFiles.length) s l →
      Offers (archiveAt 0 sampleFiles sampleFiles.length)
        (fun name => (sampleFiles.map Member.row).lookup name) s l :=
  archive_served 0 sampleFiles (by decide) (by decide)

end Myos.Image
