import Myos.Image.RoundTrip

/-!
# All or nothing

`create_file_image` is to store the whole file, or to leave the files and the blocks as they
are. It returns nought once it has an entry and an inode, whatever `write_file` comes to: a
file that is missing or too long, or that there are no blocks for, is entered all the same.
It returns less than nought with a change in two places: the directory has got a block of
numbers and there is no block left for the directory itself, or the directory has got a
block for the entry and there is no inode left. `Affords` keeps to the rest, and there it is
all or nothing (`create_all_or_nothing`).
-/

namespace Myos.Image

open Myos.Lib
open Myos.Kernel (blkSize rootInode inodeSize directSize nameOff inoOff)

/-- The file is in the directory: entry `n` has the name, and its inode is in use and has a place
for every block, and the bytes. -/
structure Filed (m : Mem) (n : Nat) (name data : List UInt8) : Prop where
  slot : n / entries < rootBlocks m
  used : vacant m n = false
  named : ∀ i < 14, dirents m (directSize * n + nameOff + i) = name.getD i 0
  length : name.length ≤ 14
  inode : ∃ ino : Fin inodes, entryIno m n = ino ∧ inoFree m ino = false ∧ Stores m ino data
  fits : data.length ≤ fileBlocks * blkSize

/-- The bitmaps, the directory and the files are the same. -/
structure SameFiles (m m' : Mem) : Prop where
  blkFree : ∀ no, blkFree m' no = blkFree m no
  inoFree : ∀ no, inoFree m' no = inoFree m no
  blocks : rootBlocks m' = rootBlocks m
  dirents : dirents m' = dirents m
  files : ∀ (ino : Fin inodes) data, Stores m' ino data ↔ Stores m ino data

/-- A call that returns nought has put the whole file in an entry that was empty, and one that
returns less has changed nothing. -/
structure AllOrNothing (m : Mem) (name : List UInt8) (file : Option Reads) : Prop where
  all : ∀ turns m', createFileImage turns name file m = .ok 0 m' →
    ∃ f n, file = some f ∧ vacant m n = true ∧ Filed m' n name f.bytes
  nothing : ∀ turns r m', createFileImage turns name file m = .ok r m' → r < 0 → SameFiles m m'

/-- Where there is an entry and an inode to be had for a new name, the name fits in it, the file
is there and not too long, and there are blocks for all of it. Where there is no inode, the entry
is in the block the directory has. And a block of numbers for the directory is not the last
block. -/
structure Affords (m : Mem) (name : List UInt8) (file : Option Reads) : Prop where
  stored : walkPath name m = .ok (-1) m → entryCost m ≤ freeBlocks m → freeIno m ≠ none →
    name ≠ [] ∧ name.length ≤ 14 ∧ ∃ f, file = some f ∧ f.bytes.length ≤ fileBlocks * blkSize ∧
      entryCost m + cost f.bytes.length ≤ freeBlocks m
  inode : walkPath name m = .ok (-1) m → entryCost m ≤ freeBlocks m → freeIno m = none →
    handed m ≠ none
  last : walkPath name m = .ok (-1) m → handed m = none → 10 ≤ rootBlocks m →
    indirect m root = 0 → freeBlocks m ≠ 1

section Calls

variable {m m' m₁ : Mem} {c : Call} {ino : Fin inodes} {n : Nat} {name : List UInt8}
  {file : Option Reads} {f : Reads}

theorem SameFiles.refl (m : Mem) : SameFiles m m :=
  ⟨fun _ => rfl, fun _ => rfl, rfl, rfl, fun _ _ => Iff.rfl⟩

theorem SameFiles.freeBlocks (h : SameFiles m m') : freeBlocks m' = freeBlocks m := by
  unfold Image.freeBlocks Ledger.available ledger
  simp only [h.blkFree]

/-! ## What a call returns -/

/-- The file is read in whole blocks. -/
def ReadWhole (file : Option Reads) : Prop := ∀ f, file = some f → f.Whole

/-- The inode that a call has taken is fresh, and the entry has cost what it costs. -/
theorem Obtained.entered (h : Obtained m m₁ n) (hfree : Image.inoFree m ino = true) :
    Sane (entered m₁ ino (slotAt m₁ n) name) ∧ Fresh (entered m₁ ino (slotAt m₁ n) name) ino ∧
      freeBlocks (entered m₁ ino (slotAt m₁ n) name) + entryCost m = freeBlocks m := by
  have hslot := slot_rootEntry h.slot
  have hb : Beside m₁ (Image.entered m₁ ino (slotAt m₁ n) name) := entered_beside h.rooted hslot
  refine ⟨h.rooted.sane.beside hb, ⟨entered_size_same hslot h.rooted, fun i => ?_⟩, ?_⟩
  · rw [hb.val]
    refine h.rooted.fresh ino ?_ i
    rw [h.inoFree]
    exact hfree
  · rw [← h.free]
    unfold freeBlocks
    rw [hb.ledger]

/-- A file that is read in whole blocks is written to some end. -/
theorem writeFile_returns (hm : Sane m) (hfresh : Fresh m ino) (hread : ReadWhole file) (t : Nat) :
    ∃ r m', writeFile (t + 2) file (inode ino) m = .ok r m' := by
  cases file with
  | none => exact ⟨-1, m, rfl⟩
  | some f =>
    refine writeChunks_returns t f.nonempty f.fits (hread f rfl) hm (.inl ?_) fun _ => ?_
    · rw [hfresh.size]
      decide
    · rw [hfresh.size]
      exact Nat.dvd_zero _

/-- It is stored just if it is not too long and there are blocks enough. -/
theorem writeFile_stores (hm : Sane m) (hfresh : Fresh m ino) (hwhole : f.Whole)
    (hlen : f.bytes.length ≤ fileBlocks * blkSize) {t : Nat} {r : Int}
    (hrun : writeFile (t + 2) (some f) (inode ino) m = .ok r m') :
    Stores m' ino f.bytes ↔ cost f.bytes.length ≤ freeBlocks m := by
  obtain ⟨r', m'', hrun', -, -, hcase⟩ := writeChunks_run (d := none) t f.nonempty f.fits hwhole hm
    hfresh.written (fun _ => Nat.dvd_zero _) (by rwa [List.nil_append])
  have hzero : cost ([] : List UInt8).length = 0 := by decide
  obtain ⟨rfl, rfl⟩ : r' = r ∧ m'' = m' := by
    have hsame := hrun'.symm.trans hrun
    injection hsame with h1 h2
    exact ⟨h1, h2⟩
  rw [List.nil_append, hzero, Nat.add_zero] at hcase
  split at hcase
  · next hcost => exact iff_of_true hcase.2.toStores hcost
  · next hcost =>
    refine iff_of_false (fun hs => ?_) hcost
    have hsize := hs.size
    have hless := hcase.2
    rw [hsize] at hless
    exact Nat.lt_irrefl _ hless

/-- A call that gets an entry returns nought. -/
theorem Call.Enters.zero (hc : c.Enters m) (hm : Formed m) (hfree : 1 ≤ freeInodes m) {r : Int}
    (hrun : createFileImage c.turns c.name c.file m = .ok r m') : r = 0 := by
  obtain ⟨ino, hino, -⟩ := freeIno_table hfree
  obtain ⟨m₁, -, hsame⟩ := hc.run hm.toRooted hm.small hino
  rw [hsame] at hrun
  obtain ⟨_, m₂, -, hend⟩ := Act.bind_eq_ok.mp hrun
  cases hend
  rfl

/-- And leaves what `write_file` has left. -/
theorem Call.Enters.wrote (hc : c.Enters m) (hm : Formed m) (hino : freeIno m = some ino.val)
    (hfree : inoFree m ino = true)
    (hrun : createFileImage c.turns c.name c.file m = .ok 0 m') :
    ∃ m₂ r, Sane m₂ ∧ Fresh m₂ ino ∧ freeBlocks m₂ + entryCost m = freeBlocks m ∧
      writeFile (c.turns + 2) c.file (inode ino) m₂ = .ok r m' := by
  obtain ⟨m₁, hgot, hsame⟩ := hc.run hm.toRooted hm.small hino
  obtain ⟨hsane, hfresh, hblocks⟩ := @Obtained.entered _ _ ino _ c.name hgot hfree
  rw [hsame] at hrun
  obtain ⟨r, m₂, hwrite, hend⟩ := Act.bind_eq_ok.mp hrun
  cases hend
  exact ⟨_, r, hsane, hfresh, hblocks,
    writeFile_more c.file (inode ino) (Nat.le_add_right c.turns 2) _ r _ hwrite⟩

/-- A call that gets an entry comes to an end, with turns enough. -/
theorem Call.Enters.returns (hc : c.Enters m) (hm : Formed m) (hfree : 1 ≤ freeInodes m)
    (hread : ReadWhole c.file) : ∃ m', createFileImage (c.turns + 2) c.name c.file m = .ok 0 m' := by
  obtain ⟨ino, hino, hinofree⟩ := freeIno_table hfree
  have hc' : Call.Enters ⟨c.turns + 2, c.name, c.file⟩ m := hc
  obtain ⟨m₁, hgot, hsame⟩ := hc'.run hm.toRooted hm.small hino
  obtain ⟨hsane, hfresh, -⟩ := @Obtained.entered _ _ ino _ c.name hgot hinofree
  obtain ⟨r, m', hwrite⟩ := writeFile_returns hsane hfresh hread c.turns
  exact ⟨m', hsame.trans (Act.bind_ok hwrite)⟩

/-! ## All -/

/-- The entry that a call has made has the file just if the name fits and the file is stored. -/
theorem Made.filed_iff (h : Made m m' ino name) (hname : 0 ∉ name) {data : List UInt8} :
    Filed m' (slotFor m) name data ↔ name ≠ [] ∧ name.length ≤ 14 ∧
      data.length ≤ fileBlocks * blkSize ∧ Stores m' ino data := by
  have hs := h.stands
  constructor
  · intro hf
    obtain ⟨j, hj, -, hstores⟩ := hf.inode
    obtain rfl : ino = j := Fin.ext (hs.entryIno.symm.trans hj)
    refine ⟨?_, hf.length, hf.fits, hstores⟩
    rintro rfl
    have hused := hf.used
    have hbyte := hf.named 0 (by decide)
    rw [Nat.add_zero] at hbyte
    rw [vacant, decide_eq_false_iff_not] at hused
    exact hused hbyte
  · rintro ⟨hne, hlen, hfits, hstores⟩
    exact ⟨hs.slot, hs.not_vacant hname hne, fun i hi => hs.name_byte hi, hlen,
      ⟨ino, hs.entryIno, hs.used, hstores⟩, hfits⟩

/-- An entry that was empty and has a name now is the one that the call has made. -/
theorem Made.eq_slot (h : Made m m' ino name) (hempty : vacant m n = true)
    (hused : vacant m' n = false) : n = slotFor m := by
  by_contra hne
  rw [vacant, h.byte_ne hne (by unfold nameOff directSize; omega)] at hused
  rw [vacant, hused] at hempty
  cases hempty

/-- A call that gets an entry stores the file just if it is afforded. -/
theorem Call.Enters.filed_iff (hc : c.Enters m) (hm : Formed m) (hfree : 1 ≤ freeInodes m)
    (hread : ReadWhole c.file) (hname : 0 ∉ c.name)
    (hrun : createFileImage c.turns c.name c.file m = .ok 0 m') :
    (∃ f n, c.file = some f ∧ vacant m n = true ∧ Filed m' n c.name f.bytes) ↔
      c.name ≠ [] ∧ c.name.length ≤ 14 ∧ ∃ f, c.file = some f ∧
        f.bytes.length ≤ fileBlocks * blkSize ∧
        entryCost m + cost f.bytes.length ≤ freeBlocks m := by
  obtain ⟨ino, hino, hinofree⟩ := freeIno_table hfree
  have hmade : Made m m' ino c.name := by
    have hmade := hc.made hm.toRooted hm.small hino
    unfold Call.after at hmade
    rwa [hrun] at hmade
  obtain ⟨m₂, r, hsane, hfresh, hblocks, hwrite⟩ := hc.wrote hm hino hinofree hrun
  have hstores : ∀ f, c.file = some f → f.bytes.length ≤ fileBlocks * blkSize →
      (Stores m' ino f.bytes ↔ entryCost m + cost f.bytes.length ≤ freeBlocks m) := by
    intro f hf hlen
    rw [hf] at hwrite
    refine (writeFile_stores hsane hfresh (hread f hf) hlen hwrite).trans ?_
    omega
  constructor
  · rintro ⟨f, n, hf, hempty, hfiled⟩
    obtain rfl := hmade.eq_slot hempty hfiled.used
    obtain ⟨hne, hlen, hfits, hs⟩ := (hmade.filed_iff hname).mp hfiled
    exact ⟨hne, hlen, f, hf, hfits, (hstores f hf hfits).mp hs⟩
  · rintro ⟨hne, hlen, f, hf, hfits, hcost⟩
    exact ⟨f, slotFor m, hf, hmade.empty,
      (hmade.filed_iff hname).mpr ⟨hne, hlen, hfits, (hstores f hf hfits).mpr hcost⟩⟩

/-! ## Nothing -/

/-- A block of numbers was the last block. -/
theorem numbered_last (hm : Rooted m) (h : numbered m root (rootBlocks m) = some m₁)
    (hno : freeNo m₁ = none) (hb : 10 ≤ rootBlocks m) (hz : indirect m root = 0) :
    freeBlocks m = 1 := by
  have hfree := (numbered_spec hm.sane h).free
  have hzero : freeBlocks m₁ = 0 := freeNo_eq_none.mp hno
  rw [if_pos ⟨hb, hz⟩] at hfree
  omega

/-- A call that fails leaves the image, but for a block of numbers that was the last block. -/
theorem Call.refused_same (hm : Formed m) (hno : ¬ c.Enters m)
    (hlast : walkPath c.name m = .ok (-1) m → handed m = none → 10 ≤ rootBlocks m →
      indirect m root = 0 → freeBlocks m ≠ 1) {r : Int}
    (hrun : createFileImage c.turns c.name c.file m = .ok r m') : r = -1 ∧ m' = m := by
  rcases Call.refused_cases hm.toRooted hm.small hno with
    hfault | hfail | ⟨m₁, hwalk, hnone, hn, hfull, hfail⟩
  · rw [hfault] at hrun
    cases hrun
  · rw [hfail] at hrun
    cases hrun
    exact ⟨rfl, rfl⟩
  · rw [hfail] at hrun
    cases hrun
    refine ⟨rfl, (numbered_cases hn).resolve_right fun hlater => ?_⟩
    exact hlast hwalk hnone hlater.1 hlater.2.1
      (numbered_last hm.toRooted hn hfull hlater.1 hlater.2.1)

/-- Where it was, the call fails and the block is used. -/
theorem last_block (hm : Formed m) (hwalk : walkPath name m = .ok (-1) m) (hnone : handed m = none)
    (hb : 10 ≤ rootBlocks m) (hz : indirect m root = 0) (hone : freeBlocks m = 1) (turns : Nat) :
    ∃ m₁, createFileImage turns name file m = .ok (-1) m₁ ∧ ¬ SameFiles m m₁ := by
  have hno : ¬ Call.Enters ⟨turns, name, file⟩ m := by
    rw [Call.enters_iff hm.toRooted hm.small, entryCost, if_pos hnone, need, if_pos ⟨hb, hz⟩,
      hm.bare _ hm.small (Nat.le_refl _), if_pos rfl, hone]
    omega
  obtain ⟨d, halloc⟩ := allocFile_append hm.toRooted hm.small.le hnone
  rcases appendBlock_run hm.toRooted hm.small d with ⟨hn, -⟩ | ⟨m₁, hn, hfull, hend⟩ | ⟨no, m₁, hend, -⟩
  · obtain ⟨-, -, hzero⟩ := numbered_eq_none.mp hn
    omega
  · refine ⟨m₁, ?_, fun hsame => ?_⟩
    · unfold createFileImage
      rw [Act.bind_ok hwalk, if_neg (by decide), Act.bind_ok (halloc.trans hend)]
      rfl
    · have hfree := (numbered_spec hm.sane hn).free
      rw [if_pos ⟨hb, hz⟩, hsame.freeBlocks] at hfree
      omega
  · exact absurd ⟨hwalk, _, _, halloc.trans hend⟩ hno

/-- An inode of the table that is handed out is free. -/
theorem freeInodes_pos {no : Nat} (h : freeIno m = some no) (hno : no < inodes) :
    1 ≤ freeInodes m := by
  have hfree := (freeIno_spec h).2.1
  exact Finset.card_pos.mpr ⟨no, Finset.mem_filter.mpr ⟨Finset.mem_range.mpr hno, hfree⟩⟩

/-- A call that gets an entry and no inode fails; what `alloc_file` has done stays. -/
theorem Call.Enters.no_inode (hc : c.Enters m) (hm : Formed m) (hnone : freeIno m = none) :
    ∃ m₁, createFileImage c.turns c.name c.file m = .ok (-1) m₁ ∧
      (handed m ≠ none → m₁ = m) ∧ (handed m = none → rootBlocks m₁ = rootBlocks m + 1) := by
  obtain ⟨hwalk, d, m₁, halloc⟩ := hc
  have hend := allocFile_end hm.toRooted hm.small
  rw [halloc] at hend
  have hgot := (hend.obtained hm.toRooted hm.small).2.2
  have hnone₁ : freeIno m₁ = none := by
    rw [← hnone, freeIno, freeIno, funext hgot.inoFree]
  have hfail : getFreeNo inoBitmap m₁ = .ok (-1) m₁ := by rw [getFreeIno_run, hnone₁]
  refine ⟨m₁, ?_, fun hhanded => ?_, fun hhanded => ?_⟩
  · unfold createFileImage
    rw [Act.bind_ok hwalk, if_neg (by decide), Act.bind_ok halloc]
    simp only [Int.lt_irrefl, if_false]
    rw [Act.bind_ok hfail]
    rfl
  · cases hend with
    | found he => rfl
    | appended he ha => exact absurd he hhanded
  · cases hend with
    | found he => rw [hhanded] at he; cases he
    | appended he ha => exact ha.rootBlocks

/-- CREATE: on a well-formed image whose next inode, if there is one, is in the table, a call is
all or nothing just if what it enters is afforded. -/
theorem create_all_or_nothing (hm : Formed m) (hname : 0 ∉ name) (hread : ReadWhole file)
    (htable : walkPath name m = .ok (-1) m → entryCost m ≤ freeBlocks m →
      ∀ no, freeIno m = some no → no < inodes) :
    AllOrNothing m name file ↔ Affords m name file := by
  have henters : ∀ turns, Call.Enters ⟨turns, name, file⟩ m ↔
      walkPath name m = .ok (-1) m ∧ entryCost m ≤ freeBlocks m :=
    fun turns => Call.enters_iff hm.toRooted hm.small
  have hfree : walkPath name m = .ok (-1) m → entryCost m ≤ freeBlocks m → freeIno m ≠ none →
      1 ≤ freeInodes m := by
    intro hwalk hcost hsome
    obtain ⟨no, hno⟩ := Option.ne_none_iff_exists'.mp hsome
    exact freeInodes_pos hno (htable hwalk hcost no hno)
  constructor
  · intro hall
    refine ⟨fun hwalk hcost hsome => ?_, fun hwalk hcost hnone hhanded => ?_,
      fun hwalk hnone hb hz hone => ?_⟩
    · have hino := hfree hwalk hcost hsome
      obtain ⟨m', hrun⟩ := ((henters 0).mpr ⟨hwalk, hcost⟩).returns hm hino hread
      exact (((henters 2).mpr ⟨hwalk, hcost⟩).filed_iff hm hino hread hname hrun).mp
        (hall.all 2 m' hrun)
    · obtain ⟨m₁, hrun, -, hmore⟩ := ((henters 0).mpr ⟨hwalk, hcost⟩).no_inode hm hnone
      have hblocks := (hall.nothing 0 (-1) m₁ hrun (by decide)).blocks
      rw [hmore hhanded] at hblocks
      exact Nat.succ_ne_self _ hblocks
    · obtain ⟨m₁, hrun, hdiff⟩ := @last_block _ _ file hm hwalk hnone hb hz hone 0
      exact hdiff (hall.nothing 0 (-1) m₁ hrun (by decide))
  · intro hafford
    refine ⟨fun turns m' hrun => ?_, fun turns r m' hrun hr => ?_⟩
    · by_cases hc : Call.Enters ⟨turns, name, file⟩ m
      · obtain ⟨hwalk, hcost⟩ := (henters turns).mp hc
        by_cases hnone : freeIno m = none
        · obtain ⟨m₁, hfail, -, -⟩ := hc.no_inode hm hnone
          cases hfail.symm.trans hrun
        · exact (hc.filed_iff hm (hfree hwalk hcost hnone) hread hname hrun).mpr
            (hafford.stored hwalk hcost hnone)
      · have hfail := (Call.refused_same hm hc hafford.last hrun).1
        exact absurd hfail (by decide)
    · by_cases hc : Call.Enters ⟨turns, name, file⟩ m
      · obtain ⟨hwalk, hcost⟩ := (henters turns).mp hc
        by_cases hnone : freeIno m = none
        · obtain ⟨m₁, hfail, hsame, -⟩ := hc.no_inode hm hnone
          have hm₁ : m₁ = m' := (Res.ok.inj (hfail.symm.trans hrun)).2
          rw [← hm₁, hsame (hafford.inode hwalk hcost hnone)]
          exact .refl m
        · rw [hc.zero hm (hfree hwalk hcost hnone) hrun] at hr
          exact absurd hr (by decide)
      · rw [(Call.refused_same hm hc hafford.last hrun).2]
        exact .refl m

end Calls

/-! ## The first file -/

theorem first_freeInodes : 1 ≤ freeInodes (formatted blank) := by
  rw [blank_freeInodes]
  decide

/-- A file of two bytes. -/
theorem create_all_or_nothing_one : AllOrNothing (formatted blank) [97] (some sampleWhole) := by
  have hzero : rootBlocks (formatted blank) = 0 := holding_start.blocks
  have hread : ReadWhole (some sampleWhole) := by
    intro f hf
    cases hf
    unfold Reads.Whole
    decide
  obtain ⟨ino, hino, -⟩ := freeIno_table first_freeInodes
  refine (create_all_or_nothing blank_formed (by decide) hread fun _ _ no hno => ?_).mpr
    ⟨fun _ _ _ => ⟨by decide, by decide, sampleWhole, rfl, by decide, ?_⟩, fun _ _ hnone => ?_,
      fun _ _ hb => ?_⟩
  · cases hino.symm.trans hno
    exact ino.isLt
  · have hcost := entryCost_le (formatted blank)
    have hone : cost sampleWhole.bytes.length = 1 := by decide
    rw [blank_freeBlocks, hone]
    omega
  · rw [hino] at hnone
    cases hnone
  · rw [hzero] at hb
    exact absurd hb (by decide)

/-- A file that is not there is entered, and the call returns nought. -/
theorem create_all_or_nothing_missing : ¬ ∀ (m : Mem) (name : List UInt8) (file : Option Reads),
    Formed m → 0 ∉ name → ReadWhole file → 1 ≤ freeInodes m → AllOrNothing m name file := by
  intro h
  have hread : ReadWhole none := fun f hf => by cases hf
  have hc : Call.Enters ⟨0, [97], none⟩ (formatted blank) := first_enters _
  obtain ⟨m', hrun⟩ := hc.returns blank_formed first_freeInodes hread
  obtain ⟨f, n, hf, -⟩ := (h _ [97] none blank_formed (by decide) hread first_freeInodes).all 2 m' hrun
  cases hf

end Myos.Image
