import Myos.Image.Entering

/-!
# A call of `create_file_image`

What a call comes to on a well-formed image, from the end of `alloc_file` on
(`AllocEnd`): the inode is taken, its number and the name go to the entry
(`entered`), and the file is written. All of it but the writing is done beside the
places of the block numbers, so the image stays well-formed as long as an inode
of the table is free (`Formed.create`).
-/

namespace Myos.Image

open Myos.Lib
open Myos.Kernel (blkSize rootInode inodeSize blockOff blockSlot diSizeOff directSize inoOff nameOff)

/-! ## What only looks -/

/-- The image is left as it is. -/
def Looks {α : Type} (x : Act Mem α) : Prop := Act.Within (fun m m' => m' = m) x

namespace Looks

variable {α β : Type}

theorem pure (a : α) : Looks (Pure.pure a : Act Mem α) := Act.Within.pure (fun _ => rfl) a

theorem bind {x : Act Mem α} {f : α → Act Mem β} (hx : Looks x) (hf : ∀ a, Looks (f a)) :
    Looks (x >>= f) :=
  Act.Within.bind (r := fun m m' => m' = m) (fun h h' => h'.trans h) hx hf

theorem deref (o : Option α) : Looks (Act.deref o : Act Mem α) := by
  cases o with
  | none => exact Act.Within.stop fun _ => rfl
  | some a => exact pure a

theorem load (n a : Nat) : Looks (Image.load n a) := by
  intro m
  unfold Image.load
  split <;> rfl

theorem strcmp (name : List UInt8) (a : Nat) : Looks (Image.strcmp a name) := by
  induction name generalizing a with
  | nil => exact bind (load 1 a) fun _ => pure _
  | cons c cs ih =>
    refine bind (load 1 a) fun b => ?_
    split
    · exact ih (a + 1)
    · exact pure false

theorem walkEntries (name : List UInt8) (n pdir : Nat) : Looks (Image.walkEntries name n pdir) := by
  induction n generalizing pdir with
  | zero => exact pure false
  | succ n ih =>
    refine bind (strcmp name _) fun b => ?_
    split
    · exact pure true
    · exact ih _

theorem walkBlock (p fileno : Nat) (d : Option Nat) : Looks (Image.walkBlock p fileno d 0) := by
  unfold Image.walkBlock
  split
  · exact pure _
  · split
    · refine bind (load 2 _) fun no => ?_
      split
      · exact pure _
      · exact bind (load 2 _) fun _ => pure _
    · exact pure _

theorem walkPathLoop (p : Nat) (name : List UInt8) (n i j : Nat) (d : Option Nat) :
    Looks (Image.walkPathLoop p name n i j d) := by
  induction n generalizing i j d with
  | zero => exact pure _
  | succ n ih =>
    refine bind (walkBlock p i d) fun ⟨r, d'⟩ => ?_
    show Looks (if r < 0 then _ else _)
    split
    · exact pure _
    · refine bind (deref _) fun ptr => bind (load 2 ptr) fun no => ?_
      split
      · refine bind (walkEntries name _ _) fun b => ?_
        split
        · exact pure _
        · exact ih _ _ _
      · exact ih _ _ _

theorem walkPath (name : List UInt8) : Looks (Image.walkPath name) :=
  bind (load 4 _) fun _ => walkPathLoop _ _ _ _ _ _

end Looks

/-! ## The ends of `alloc_file` -/

/-- What `alloc_file` comes to on a well-formed image: an entry of the first block, an
error, or the first entry of a block more. -/
inductive AllocEnd (m : Mem) : Res Mem (Int × Option Nat) → Prop
  | found {e : Nat} (h : handed m = some e) :
      AllocEnd m (.ok (0, some (entryAt (blockNo m root 0) e)) m)
  | noNumbers (h : handed m = none) (hn : numbered m root (rootBlocks m) = none) :
      AllocEnd m (.ok (-2, none) m)
  | noBlock {m₁ : Mem} (h : handed m = none) (hn : numbered m root (rootBlocks m) = some m₁)
      (hno : freeNo m₁ = none) : AllocEnd m (.ok (-1, none) m₁)
  | appended {no : Nat} {m' : Mem} (h : handed m = none) (ha : Appended m m' no) :
      AllocEnd m (.ok (0, some (entryAt no 0)) m')

theorem allocFile_end {m : Mem} (h : Rooted m) (hK : rootBlocks m < fileBlocks) :
    AllocEnd m (allocFile m) := by
  cases he : handed m with
  | some e =>
    rw [allocFile_found h hK.le he]
    exact .found he
  | none =>
    obtain ⟨d, hrun⟩ := allocFile_append h hK.le he
    rw [hrun]
    rcases appendBlock_run h hK d with ⟨hn, hend⟩ | ⟨m₁, hn, hno, hend⟩ | ⟨no, m', hend, ha⟩
    · rw [hend]
      exact .noNumbers he hn
    · rw [hend]
      exact .noBlock he hn hno
    · rw [hend]
      exact .appended he ha

/-- The well-formed image and its free inodes, with a block of numbers more. -/
theorem Numbered.rooted {m m₁ : Mem} (hn : Numbered root (rootBlocks m) m m₁) (h : Rooted m) :
    Rooted m₁ ∧ rootBlocks m₁ = rootBlocks m ∧ freeInodes m₁ = freeInodes m := by
  have hK : rootBlocks m₁ = rootBlocks m := by
    unfold rootBlocks
    rw [hn.size]
  have hno : ∀ b, Image.blockNo m₁ root b = Image.blockNo m root b := by
    intro b
    refine hn.vals _ fun he => ?_
    have hdata := filePlace_data root b
    rw [he] at hdata
    exact hdata rfl
  have hino : ∀ no, inoFree m₁ no = inoFree m no := hn.ext.inoFree hn.sane
  refine ⟨⟨hn.sane, ?_, fun b hb => ?_, fun b hb hge => ?_, ?_, fun ino hfree i => ?_⟩, hK,
    freeInodes_congr hino⟩
  · rw [hn.size]
    exact h.whole
  · rw [hno]
    exact h.present b (hK ▸ hb)
  · rw [hno]
    exact h.bare b hb (hK ▸ hge)
  · rw [hino]
    exact h.rootUsed
  · rw [hino] at hfree
    rw [hn.ext.others (.slot ino i) (h.ne_root hfree)]
    exact h.fresh ino hfree i

/-! ## The inode and the entry -/

/-- The inode that is handed out next. -/
def freeIno (m : Mem) : Option Nat := Bitmap.firstFrom (inoFree m) blocks 0

/-- An entry of the root directory. -/
def RootEntry (m : Mem) (d : Nat) : Prop :=
  ∃ b e, b < rootBlocks m ∧ e < entries ∧ d = entryAt (blockNo m root b) e

/-- The inode is taken, and is that of an empty file. -/
def inodeTaken (m : Mem) (ino : Nat) : Mem :=
  Mem.wr 2 (Mem.wr 4 (Bitmap.clear m inoBitmap ino) (inode ino + diSizeOff) 0) (inode ino + diTypeOff) 0

/-- Its number and the name go to the entry at `d`. -/
def entered (m : Mem) (ino d : Nat) (name : List UInt8) : Mem :=
  (Mem.wr 2 (inodeTaken m ino) (d + inoOff) ino).overlay (d + nameOff) 14 fun i => name.getD i 0

section Entered

variable {m m₁ : Mem} {ino : Fin inodes} {d no n x t : Nat} {name : List UInt8} {file : Option Reads}

theorem getFreeIno_run : getFreeNo inoBitmap m =
    .ok (match freeIno m with
      | some k => (k : Int)
      | none => -1) m := by
  have hfirst : freeIno m = Bitmap.firstFrom (Bitmap.bit m inoBitmap) blocks 0 :=
    Bitmap.firstFrom_congr fun j _ hj => by
      unfold inoFree
      rw [decide_eq_true (by omega), Bool.true_and]
  rw [hfirst]
  exact getFreeNoLoop_run (by decide) (blkSize * 8) 0 (by decide)

/-- The inode handed out is the first that is free. -/
theorem freeIno_spec (h : freeIno m = some no) :
    no < blocks ∧ inoFree m no = true ∧ ∀ k < no, inoFree m k = false := by
  obtain ⟨-, hlt, hfree, hfirst⟩ := Bitmap.firstFrom_eq_some h
  exact ⟨by rwa [Nat.zero_add] at hlt, hfree, fun k hk => hfirst k (Nat.zero_le k) hk⟩

/-- While an inode of the table is free, one of them is handed out. -/
theorem freeIno_table (h : 1 ≤ freeInodes m) :
    ∃ ino : Fin inodes, freeIno m = some ino.val ∧ inoFree m ino = true := by
  obtain ⟨k, hk⟩ := Finset.card_pos.mp h
  obtain ⟨hlt, hfree⟩ := Finset.mem_filter.mp hk
  rw [Finset.mem_range] at hlt
  cases hino : freeIno m with
  | none =>
    refine absurd hino (Bitmap.firstFrom_ne_none (Nat.zero_le k) ?_ hfree)
    exact (Nat.lt_of_lt_of_le hlt (by decide : inodes ≤ blocks)).trans_eq (Nat.zero_add _).symm
  | some no =>
    obtain ⟨-, hnofree, hfirst⟩ := freeIno_spec hino
    have hle : no ≤ k := by
      by_contra hgt
      rw [hfirst k (Nat.lt_of_not_le hgt)] at hfree
      cases hfree
    exact ⟨⟨no, by omega⟩, rfl, hnofree⟩

/-- An entry is in a block of the directory. -/
theorem RootEntry.range (hd : RootEntry m d) :
    ∃ b < rootBlocks m, ∀ x, d ≤ x → x < d + directSize → x / blkSize = blockNo m root b := by
  obtain ⟨b, e, hb, he, rfl⟩ := hd
  refine ⟨b, hb, fun x h1 h2 => ?_⟩
  unfold entryAt directSize at h1 h2
  unfold entries at he
  unfold blkSize at *
  omega

theorem RootEntry.imgSize (hd : RootEntry m d) (h : Rooted m) :
    57344 ≤ d ∧ d + directSize ≤ imgSize := by
  obtain ⟨b, hb, hrange⟩ := hd.range
  obtain ⟨hlo, hlt⟩ := h.sane.sound.range (filePlace root b) (h.present b hb)
  have hno : (filePlace root b).val m = blockNo m root b := rfl
  have hfirst := hrange d (Nat.le_refl d) (by unfold directSize; omega)
  have hlast := hrange (d + 15) (by omega) (by unfold directSize; omega)
  have hlo' : 14 ≤ blockNo m root b := hlo
  have hlt' : blockNo m root b < blocks := hlt
  refine ⟨by unfold blkSize at hfirst; omega, le_imgSize ?_⟩
  unfold directSize
  unfold blkSize at *
  unfold blocks at *
  omega

theorem inodeTaken_out (h3 : x / blkSize ≠ 3) (hx : x < inode ino ∨ inode ino + 8 ≤ x) :
    inodeTaken m ino x = m x := by
  have hino := ino.isLt
  unfold inodes at hino
  unfold inodeTaken
  rw [Mem.wr_out (by unfold diTypeOff; omega), Mem.wr_out (by unfold diSizeOff; omega),
    Bitmap.clear_out]
  unfold inoBitmap
  unfold blkSize at *
  omega

theorem entered_out (hx : x < d ∨ d + directSize ≤ x) :
    entered m no d name x = inodeTaken m no x := by
  unfold directSize at hx
  unfold entered
  rw [Mem.overlay_out (by unfold nameOff; omega), Mem.wr_out (by unfold inoOff; omega)]

theorem inodeTaken_beside (h : Sane m) : Beside m (inodeTaken m ino) := by
  refine h.beside_head fun x hx => inodeTaken_out ?_ ?_
  · unfold blkSize at *
    omega
  · have hino := ino.isLt
    unfold inodes at hino
    rw [inode_eq]
    unfold blkSize at hx
    omega

/-- What is stored for a file is stored beside the places. -/
theorem entered_beside (h : Rooted m) (hd : RootEntry m d) : Beside m (entered m ino d name) := by
  obtain ⟨b, hb, hrange⟩ := hd.range
  have hhead : Beside m (inodeTaken m ino) := inodeTaken_beside h.sane
  have hval : (filePlace root b).val (inodeTaken m ino) = blockNo m root b := hhead.val _
  refine hhead.trans ((h.sane.beside hhead).beside_data (filePlace_data root b) ?_ fun x hx => ?_)
  · rw [hval]
    exact h.present b hb
  · rw [hval] at hx
    refine entered_out ?_
    by_contra hin
    exact hx (hrange x (by omega) (by omega))

/-- The inode is not free any more, and nothing else changes for the others. -/
theorem entered_inoFree (hd : RootEntry m d) (h : Rooted m) (k : Nat) :
    inoFree (entered m ino d name) k = (inoFree m k && decide (k ≠ ino)) := by
  have hlo := (hd.imgSize h).1
  have hclear : inoFree (entered m ino d name) k = inoFree (Bitmap.clear m inoBitmap ino) k := by
    refine inoFree_congr (fun x hx => ?_) k
    have hsmall : x < 16384 := by
      unfold blkSize at hx
      omega
    rw [entered_out (.inl (by omega)), inodeTaken,
      Mem.wr_out (.inl (by rw [inode_eq]; unfold diTypeOff; omega)),
      Mem.wr_out (.inl (by rw [inode_eq]; unfold diSizeOff; omega))]
  rw [hclear]
  unfold inoFree
  rw [Bitmap.bit_clear, Bool.and_assoc]

/-- The size of another file. -/
theorem entered_size (hd : RootEntry m d) (h : Rooted m) {j : Fin inodes} (hj : j ≠ ino) :
    fileSize (entered m ino d name) j = fileSize m j := by
  have hlo := (hd.imgSize h).1
  have hlt := j.isLt
  have hne : j.val ≠ ino.val := fun he => hj (Fin.ext he)
  unfold inodes at hlt
  refine fileSize_congr fun x h1 h2 => ?_
  rw [inode_eq] at h1 h2
  rw [entered_out (.inl (by omega)), inodeTaken_out (by unfold blkSize; omega)
    (by rw [inode_eq]; omega)]

/-- The file is empty, and is written from its start on. -/
theorem entered_size_same (hd : RootEntry m d) (h : Rooted m) :
    fileSize (entered m ino d name) ino = 0 := by
  have hlo := (hd.imgSize h).1
  have hlt := ino.isLt
  unfold inodes at hlt
  have hsame : fileSize (entered m ino d name) ino =
      Mem.rd 4 (Mem.wr 4 (Bitmap.clear m inoBitmap ino) (inode ino + diSizeOff) 0)
        (inode ino + diSizeOff) := by
    refine Mem.rd_congr fun x h1 h2 => ?_
    rw [inode_eq] at h1 h2
    unfold diSizeOff at h1 h2
    rw [entered_out (.inl (by omega)), inodeTaken,
      Mem.wr_out (.inl (by rw [inode_eq]; unfold diTypeOff; omega))]
  rw [hsame, Mem.rd_wr_same]
  rfl

/-- A well-formed image, with an inode of the table taken. -/
theorem entered_rooted (h : Rooted m) (hd : RootEntry m d) (hfree : inoFree m ino = true) :
    Rooted (entered m ino d name) ∧ rootBlocks (entered m ino d name) = rootBlocks m ∧
      freeInodes (entered m ino d name) + 1 = freeInodes m := by
  have hb : Beside m (entered m ino d name) := entered_beside h hd
  have hsize : fileSize (entered m ino d name) root = fileSize m root :=
    entered_size hd h (h.ne_root hfree).symm
  have hK : rootBlocks (entered m ino d name) = rootBlocks m := by
    unfold rootBlocks
    rw [hsize]
  have hno : ∀ b, blockNo (entered m ino d name) root b = blockNo m root b := fun b => hb.val _
  have hino : ∀ k, inoFree (entered m ino d name) k = (inoFree m k && decide (k ≠ ino)) :=
    entered_inoFree hd h
  refine ⟨⟨h.sane.beside hb, ?_, fun b hb => ?_, fun b hb hge => ?_, ?_, fun j hj i => ?_⟩, hK, ?_⟩
  · rw [hsize]
    exact h.whole
  · rw [hno]
    exact h.present b (hK ▸ hb)
  · rw [hno]
    exact h.bare b hb (hK ▸ hge)
  · rw [hino, h.rootUsed, Bool.false_and]
  · rw [hino, Bool.and_eq_true] at hj
    rw [hb.val]
    exact h.fresh j hj.1 i
  · have herase : ((Finset.range inodes).filter fun k => inoFree (entered m ino d name) k) =
        ((Finset.range inodes).filter fun k => inoFree m k).erase ino := by
      ext k
      simp only [Finset.mem_erase, Finset.mem_filter, hino, Bool.and_eq_true, decide_eq_true_iff]
      exact ⟨fun ⟨h1, h2, h3⟩ => ⟨h3, h1, h2⟩, fun ⟨h1, h2, h3⟩ => ⟨h2, h3, h1⟩⟩
    have hmem : ino.val ∈ (Finset.range inodes).filter fun k => inoFree m k :=
      Finset.mem_filter.mpr ⟨Finset.mem_range.mpr ino.isLt, hfree⟩
    rw [freeInodes, herase, Finset.card_erase_add_one hmem, freeInodes]

/-- What is left of the call once an entry and an inode are there. -/
theorem createFileImage_run {r : Int} (hwalk : walkPath name m = .ok (-1) m)
    (halloc : allocFile m = .ok (r, some d) m₁) (hr : ¬ r < 0) (hino : freeIno m₁ = some ino.val)
    (hd : d + directSize ≤ imgSize) :
    createFileImage t name file m = (do
      let _ ← writeFile t file (inode ino)
      return 0) (entered m₁ ino d name) := by
  have hlt := ino.isLt
  have hfree : getFreeNo inoBitmap m₁ = .ok (ino.val : Int) m₁ := by rw [getFreeIno_run, hino]
  have htype : inode ino + diTypeOff + 2 ≤ imgSize := by
    rw [inode_eq]
    unfold diTypeOff imgSize
    unfold inodes at hlt
    omega
  unfold directSize at hd
  unfold createFileImage
  rw [Act.bind_ok hwalk, if_neg (by decide), Act.bind_ok halloc]
  simp only [hr, if_false]
  rw [Act.bind_ok hfree, if_neg (show ¬ (ino.val : Int) < 0 by omega), Int.toNat_natCast,
    Act.bind_ok (setBitmap_run (by decide) (Nat.lt_trans hlt (by decide : inodes < blocks))),
    Act.bind_ok (store_ok (inode_imgSize ino)), Act.bind_ok (store_ok htype), Act.deref_bind_apply,
    Act.bind_ok (store_ok (show d + inoOff + 2 ≤ imgSize by unfold inoOff; omega)),
    Act.bind_ok (copyIn_ok (show d + nameOff + 14 ≤ imgSize by unfold nameOff; omega))]
  rfl

/-- An entry that `alloc_file` hands out is one of the directory, in a well-formed image. -/
structure Handed (m m₁ : Mem) (d : Nat) : Prop where
  rooted : Rooted m₁
  entry : RootEntry m₁ d
  inodes : freeInodes m₁ = freeInodes m
  blocks : rootBlocks m₁ ≤ rootBlocks m + 1

/-- ALLOC: an entry of a well-formed image, or an error and a well-formed image. -/
theorem AllocEnd.spec {o : Res Mem (Int × Option Nat)} (hend : AllocEnd m o) (h : Rooted m)
    (hK : rootBlocks m < fileBlocks) :
    (∃ m₁ d, o = .ok (0, some d) m₁ ∧ Handed m m₁ d) ∨
      ∃ r m₁, o = .ok (r, none) m₁ ∧ r < 0 ∧ Rooted m₁ ∧ rootBlocks m₁ = rootBlocks m ∧
        freeInodes m₁ = freeInodes m := by
  cases hend with
  | @found e he =>
    refine .inl ⟨m, _, rfl, h, ⟨0, e, ?_, ?_, rfl⟩, rfl, Nat.le_succ _⟩
    · unfold handed at he
      split at he
      · cases he
      · next hne => exact Nat.pos_of_ne_zero hne
    · unfold handed at he
      split at he
      · cases he
      · exact (Nat.zero_add entries) ▸ (Bitmap.firstFrom_eq_some he).2.1
  | noNumbers he hn => exact .inr ⟨-2, m, rfl, by decide, h, rfl, rfl⟩
  | noBlock he hn hno =>
    obtain ⟨hrooted, hblocks, hinodes⟩ := (numbered_spec h.sane hn).rooted h
    exact .inr ⟨-1, _, rfl, by decide, hrooted, hblocks, hinodes⟩
  | @appended no m' he ha =>
    have hblocks := ha.rootBlocks
    refine .inl ⟨m', _, rfl, ha.rooted h hK, ⟨rootBlocks m, 0, by omega, by decide, ?_⟩, ?_, ?_⟩
    · rw [ha.number]
    · exact freeInodes_congr (ha.ext.inoFree ha.sane)
    · exact Nat.le_of_eq hblocks

/-- Writing a file whose inode is in use leaves the directory as it is. -/
theorem Rooted.extends {m' : Mem} (h : Rooted m) (hm : Sane m') (he : Extends ino m m')
    (hused : inoFree m ino = false) (hroot : ino ≠ root) :
    Rooted m' ∧ rootBlocks m' = rootBlocks m ∧ freeInodes m' = freeInodes m := by
  have hsize : fileSize m' root = fileSize m root := he.size hm hroot.symm
  have hK : rootBlocks m' = rootBlocks m := by
    unfold rootBlocks
    rw [hsize]
  have hno : ∀ b, blockNo m' root b = blockNo m root b := by
    intro b
    refine he.others _ ?_
    rw [filePlace_owner]
    exact hroot.symm
  have hfree : ∀ k, inoFree m' k = inoFree m k := he.inoFree hm
  refine ⟨⟨hm, ?_, fun b hb => ?_, fun b hb hge => ?_, ?_, fun j hj i => ?_⟩, hK,
    freeInodes_congr hfree⟩
  · rw [hsize]
    exact h.whole
  · rw [hno]
    exact h.present b (hK ▸ hb)
  · rw [hno]
    exact h.bare b hb (hK ▸ hge)
  · rw [hfree]
    exact h.rootUsed
  · rw [hfree] at hj
    have hne : j ≠ ino := by
      rintro rfl
      rw [hused] at hj
      cases hj
    rw [he.others (.slot j i) hne]
    exact h.fresh j hj i

/-- CREATE: whatever a call comes to, the image is well-formed after it, and an
inode fewer is free at most. -/
theorem Formed.create (h : Formed m) (hfree : 1 ≤ freeInodes m) (t : Nat) (name : List UInt8)
    (file : Option Reads) :
    Formed (createFileImage t name file m).state ∧
      freeInodes m ≤ freeInodes (createFileImage t name file m).state + 1 := by
  have hK := h.small
  have hsame : Formed m ∧ freeInodes m ≤ freeInodes m + 1 := ⟨h, Nat.le_succ _⟩
  have hlook := Looks.walkPath name m
  cases hwalk : walkPath name m with
  | fault m' =>
    rw [hwalk] at hlook
    obtain rfl : m' = m := hlook
    unfold createFileImage
    rw [Act.bind_fault hwalk]
    exact hsame
  | ok r m' =>
    rw [hwalk] at hlook
    obtain rfl : m' = m := hlook
    by_cases hr : r = -1
    · subst hr
      rcases (allocFile_end h.toRooted hK).spec h.toRooted hK with
        ⟨m₁, d, halloc, hd⟩ | ⟨r, m₁, halloc, hr, hrooted, hblocks, hinodes⟩
      · obtain ⟨ino, hino, hinofree⟩ := freeIno_table (hd.inodes.symm ▸ hfree)
        obtain ⟨hrooted, hblocks, hinodes⟩ := @entered_rooted _ _ _ name hd.rooted hd.entry hinofree
        have hused : inoFree (entered m₁ ino d name) ino = false := by
          rw [entered_inoFree hd.entry hd.rooted]
          simp
        obtain ⟨hsane, hext⟩ := writeFile_keeps t file hrooted.sane
          (@entered_size_same _ _ _ name hd.entry hd.rooted)
        obtain ⟨hend, hblocks', hinodes'⟩ := hrooted.extends hsane hext hused
          (hd.rooted.ne_root hinofree)
        rw [createFileImage_run hwalk halloc (by decide) hino (hd.entry.imgSize hd.rooted).2,
          Act.state_discard]
        have hroom := h.room
        have hinodes₁ := hd.inodes
        have hblocks₁ := hd.blocks
        exact ⟨⟨hend, by omega⟩, by omega⟩
      · unfold createFileImage
        rw [Act.bind_ok hwalk, if_neg (by decide), Act.bind_ok halloc]
        simp only [hr, if_true]
        refine ⟨⟨hrooted, ?_⟩, ?_⟩
        · show rootBlocks m₁ + freeInodes m₁ ≤ _
          rw [hblocks, hinodes]
          exact h.room
        · show _ ≤ freeInodes m₁ + 1
          omega
    · unfold createFileImage
      rw [Act.bind_ok hwalk, if_pos hr]
      exact hsame

end Entered

/-! ## Call after call -/

/-- A call of `create_file_image`, with what its file is read as. -/
structure Call where
  turns : Nat
  name : List UInt8
  file : Option Reads

/-- The image after a call, wherever it ended. -/
def Call.after (m : Mem) (c : Call) : Mem := (createFileImage c.turns c.name c.file m).state

/-- The image after the formatting of a blank one, and the calls. -/
def built (calls : List Call) : Mem := calls.foldl Call.after (format blank).state

/-- Every call takes one inode at most. -/
theorem Formed.calls {m : Mem} (calls : List Call) (h : Formed m)
    (hfree : calls.length ≤ freeInodes m) :
    Formed (calls.foldl Call.after m) ∧
      freeInodes m ≤ freeInodes (calls.foldl Call.after m) + calls.length := by
  induction calls generalizing m with
  | nil => exact ⟨h, Nat.le_add_right _ _⟩
  | cons c calls ih =>
    rw [List.length_cons] at hfree
    obtain ⟨hafter, hcount⟩ := h.create (by omega) c.turns c.name c.file
    change Formed (c.after m) at hafter
    change freeInodes m ≤ freeInodes (c.after m) + 1 at hcount
    obtain ⟨hend, hrest⟩ := ih hafter (by omega)
    refine ⟨hend, ?_⟩
    rw [List.length_cons, List.foldl_cons]
    omega

theorem built_formed {calls : List Call} (h : calls.length ≤ 1279) : Formed (built calls) := by
  unfold built
  rw [format_run]
  exact (blank_formed.calls calls (by rw [blank_freeInodes]; exact h)).1

/-- The numbers of blocks that the table and the blocks of numbers hold are of blocks
behind the first 14, in use, and no two places hold the same. -/
theorem image_well_formed (calls : List Call) (h : calls.length ≤ 1279) :
    (∀ q : Place, q.val (built calls) ≠ 0 →
      14 ≤ q.val (built calls) ∧ q.val (built calls) < 32768 ∧
        Bitmap.bit (built calls) blkBitmap (q.val (built calls)) = false) ∧
    ∀ q q' : Place, q.val (built calls) ≠ 0 → q.val (built calls) = q'.val (built calls) → q = q' := by
  have hs := (built_formed h).sane.sound
  refine ⟨fun q hq => ?_, fun q q' => hs.inj q q'⟩
  obtain ⟨hlo, hlt⟩ := hs.range q hq
  have hused : blkFree (built calls) (q.val (built calls)) = false := hs.used q hq
  refine ⟨hlo, hlt, ?_⟩
  rw [blkFree, decide_eq_true (show q.val (built calls) < blocks from hlt), Bool.true_and] at hused
  exact hused

/-- A file of a block and a byte. -/
def sampleReads : Reads where
  chunks := [List.replicate blkSize 88, [65]]
  nonempty := by
    rw [List.forall_mem_cons, ← List.length_pos_iff, List.length_replicate]
    exact ⟨by decide, by decide⟩
  fits := by
    rw [List.forall_mem_cons, List.length_replicate]
    exact ⟨Nat.le_refl _, by decide⟩

/-- The file, the same name again, and a file that cannot be opened. -/
def sampleCalls : List Call :=
  [⟨2, [104], some sampleReads⟩, ⟨2, [104], some sampleReads⟩, ⟨2, [105], none⟩]

theorem image_well_formed_sample :
    (∀ q : Place, q.val (built sampleCalls) ≠ 0 →
      14 ≤ q.val (built sampleCalls) ∧ q.val (built sampleCalls) < 32768 ∧
        Bitmap.bit (built sampleCalls) blkBitmap (q.val (built sampleCalls)) = false) ∧
    ∀ q q' : Place, q.val (built sampleCalls) ≠ 0 →
      q.val (built sampleCalls) = q'.val (built sampleCalls) → q = q' :=
  image_well_formed sampleCalls (by decide)

end Myos.Image
