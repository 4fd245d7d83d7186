import Myos.Image.Create

/-!
# The entries of the root directory

The directory as one row of bytes, block after block (`dirents`), and its entries by
their numbers. `alloc_file` hands out the first entry of the first block that has no
name, else the first one of a block more (`slotFor`), and that entry is empty
(`Obtained`). A call that stores a name changes this entry and no other (`Made`).
-/

namespace Myos.Image

open Myos.Lib
open Myos.Kernel (blkSize rootInode inodeSize blockOff blockSlot diSizeOff directSize inoOff nameOff)

/-- The bytes of the root directory, nought behind its last block. -/
def dirents (m : Mem) : Mem := fun x =>
  if x / blkSize < rootBlocks m then m (blkSize * blockNo m root (x / blkSize) + x % blkSize)
  else 0

/-- Whether entry `n` has no name. -/
def vacant (m : Mem) (n : Nat) : Bool := decide (dirents m (directSize * n + nameOff) = 0)

/-- The entry that the next name goes to. -/
def slotFor (m : Mem) : Nat := (handed m).getD (entries * rootBlocks m)

/-- How many blocks that takes. -/
def entryCost (m : Mem) : Nat := if handed m = none then need m root (rootBlocks m) else 0

/-- The address of entry `n`. -/
def slotAt (m : Mem) (n : Nat) : Nat := entryAt (blockNo m root (n / entries)) (n % entries)

/-- The bytes of an entry. -/
def dirent (ino : Nat) (name : List UInt8) : Mem :=
  (Mem.wr 2 (fun _ => 0) inoOff ino).overlay nameOff 14 fun i => name.getD i 0

section Dirents

variable {m m₁ m' : Mem} {ino : Fin inodes} {n k x d : Nat} {r : Int} {name : List UInt8}

/-- An entry's bytes are where it is. -/
theorem dirents_slot (hn : n / entries < rootBlocks m) (hk : k < directSize) :
    dirents m (directSize * n + k) = m (slotAt m n + k) := by
  have hdiv : (directSize * n + k) / blkSize = n / entries := by
    unfold directSize blkSize entries at *
    omega
  have hmod : (directSize * n + k) % blkSize = directSize * (n % entries) + k := by
    unfold directSize blkSize entries at *
    omega
  rw [dirents, hdiv, if_pos hn, hmod, ← Nat.add_assoc]
  rfl

theorem slot_rootEntry (hn : n / entries < rootBlocks m) : RootEntry m (slotAt m n) :=
  ⟨n / entries, n % entries, hn, Nat.mod_lt _ (by decide), rfl⟩

/-- The first entry of the first block that has no name. -/
theorem handed_spec {e : Nat} (h : handed m = some e) :
    0 < rootBlocks m ∧ e < entries ∧ vacant m e = true ∧ ∀ j < e, vacant m j = false := by
  unfold handed at h
  split at h
  · cases h
  · next hne =>
    obtain ⟨-, hlt, hempty, hfirst⟩ := Bitmap.firstFrom_eq_some h
    rw [Nat.zero_add] at hlt
    have hpos : 0 < rootBlocks m := Nat.pos_of_ne_zero hne
    have hvac : ∀ j < entries, vacant m j = emptyAt m (blockNo m root 0) j := by
      intro j hj
      have hslot : dirents m (directSize * j + nameOff) = m (slotAt m j + nameOff) :=
        dirents_slot (by rwa [Nat.div_eq_of_lt hj]) (by decide)
      rw [vacant, hslot, slotAt, Nat.div_eq_of_lt hj, Nat.mod_eq_of_lt hj]
      rfl
    exact ⟨hpos, hlt, (hvac e hlt).trans hempty, fun j hj =>
      (hvac j (hj.trans hlt)).trans (hfirst j (Nat.zero_le j) hj)⟩

/-- A directory without blocks, or whose first block is full. -/
theorem handed_none (h : handed m = none) (hpos : 0 < rootBlocks m) :
    ∀ j < entries, vacant m j = false := by
  intro j hj
  unfold handed at h
  rw [if_neg (Nat.ne_of_gt hpos)] at h
  by_contra hvac
  rw [Bool.not_eq_false] at hvac
  refine absurd h (Bitmap.firstFrom_ne_none (Nat.zero_le j) ((Nat.zero_add entries).symm ▸ hj) ?_)
  have hslot : dirents m (directSize * j + nameOff) = m (slotAt m j + nameOff) :=
    dirents_slot (by rwa [Nat.div_eq_of_lt hj]) (by decide)
  rw [vacant, hslot, slotAt, Nat.div_eq_of_lt hj, Nat.mod_eq_of_lt hj] at hvac
  exact hvac

/-- It is in a block of the directory, or at the start of one more. -/
theorem slotFor_le : slotFor m / entries ≤ rootBlocks m := by
  unfold slotFor
  cases h : handed m with
  | none => exact (Nat.mul_div_right _ (by decide)).le
  | some e =>
    obtain ⟨-, hlt, -⟩ := handed_spec h
    exact (Nat.div_eq_of_lt hlt).le.trans (Nat.zero_le _)

/-- A block and a block of numbers, at most. -/
theorem entryCost_le (m : Mem) : entryCost m ≤ 2 := by
  unfold entryCost need
  split
  · split <;> split <;> decide
  · decide

/-! ## What `alloc_file` hands out -/

/-- Entry `n` is one of the directory then. -/
structure Obtained (m m₁ : Mem) (n : Nat) : Prop where
  rooted : Rooted m₁
  blocks : rootBlocks m₁ = max (rootBlocks m) (n / entries + 1)
  dirents : dirents m₁ = dirents m
  empty : vacant m n = true
  inoFree : ∀ k, inoFree m₁ k = inoFree m k
  ext : Extends root m m₁
  free : freeBlocks m₁ + entryCost m = freeBlocks m

theorem Obtained.slot (h : Obtained m m₁ n) : n / entries < rootBlocks m₁ := by
  rw [h.blocks]
  exact Nat.lt_of_lt_of_le (Nat.lt_succ_self _) (Nat.le_max_right _ _)

/-- The directory with a block more, that is empty. -/
theorem Appended.dirents {no : Nat} (ha : Appended m m' no) (h : Rooted m)
    (hK : Image.rootBlocks m < fileBlocks) : Image.dirents m' = Image.dirents m := by
  funext x
  have hblocks := ha.rootBlocks
  unfold Image.dirents
  rw [hblocks]
  rcases Nat.lt_trichotomy (x / blkSize) (Image.rootBlocks m) with hlt | heq | hgt
  · have hval : blockNo m' root (x / blkSize) = blockNo m root (x / blkSize) := by
      refine ha.vals _ (fun he => ?_) fun he => ?_
      · have hdata := filePlace_data root (x / blkSize)
        rw [he] at hdata
        exact hdata rfl
      · exact absurd (filePlace_inj (hlt.trans hK) hK he).2 (Nat.ne_of_lt hlt)
    rw [if_pos hlt, if_pos (Nat.lt_succ_of_lt hlt), hval]
    refine ha.data (filePlace root (x / blkSize)) (filePlace_data _ _) (h.present _ hlt) _ ?_
    exact (Nat.mul_add_div (by decide) _ _).trans (by
      rw [Nat.div_eq_of_lt (Nat.mod_lt x (by decide)), Nat.add_zero]
      rfl)
  · rw [if_pos (by omega), if_neg (by omega), heq, ha.number]
    refine ha.clean _ ?_
    rw [Nat.mul_add_div (by decide), Nat.div_eq_of_lt (Nat.mod_lt x (by decide)), Nat.add_zero]
  · rw [if_neg (by omega), if_neg (by omega)]

/-- An entry that is handed out is the one that is due. -/
theorem AllocEnd.obtained (hend : AllocEnd m (.ok (r, some d) m₁)) (h : Rooted m)
    (hK : rootBlocks m < fileBlocks) :
    r = 0 ∧ d = slotAt m₁ (slotFor m) ∧ Obtained m m₁ (slotFor m) := by
  cases hend with
  | @found e he =>
    obtain ⟨hpos, hlt, hempty, -⟩ := handed_spec he
    have hslot : slotFor m = e := by
      rw [slotFor, he]
      rfl
    have hdiv : e / entries = 0 := Nat.div_eq_of_lt hlt
    rw [hslot]
    refine ⟨rfl, ?_, h, ?_, rfl, hempty, fun _ => rfl, .refl root m, ?_⟩
    · rw [slotAt, hdiv, Nat.mod_eq_of_lt hlt]
    · rw [hdiv]
      exact (Nat.max_eq_left hpos).symm
    · rw [entryCost, he, if_neg (by simp), Nat.add_zero]
  | @appended no m' he ha =>
    have hslot : slotFor m = entries * rootBlocks m := by
      rw [slotFor, he]
      rfl
    have hdiv : entries * rootBlocks m / entries = rootBlocks m := Nat.mul_div_right _ (by decide)
    have hbehind : (directSize * (entries * rootBlocks m) + nameOff) / blkSize = rootBlocks m := by
      unfold directSize entries nameOff blkSize
      omega
    rw [hslot]
    refine ⟨rfl, ?_, ha.rooted h hK, ?_, ha.dirents h hK, ?_, ha.ext.inoFree ha.sane, ha.ext, ?_⟩
    · rw [slotAt, hdiv, Nat.mul_mod_right, ha.number, entryAt, Nat.mul_zero, Nat.add_zero]
    · rw [hdiv, ha.rootBlocks]
      exact (Nat.max_eq_right (Nat.le_succ _)).symm
    · refine decide_eq_true ?_
      rw [Image.dirents, hbehind, if_neg (Nat.lt_irrefl _)]
    · rw [entryCost, if_pos he]
      exact ha.blocks

/-! ## What a call leaves of the directory -/

/-- The name and the number go to the entry, and every other entry is left. -/
theorem entered_dirents (h : Rooted m) (hK : rootBlocks m ≤ fileBlocks)
    (hn : n / entries < rootBlocks m) (hfree : inoFree m ino = true) : dirents (entered m ino (slotAt m n) name) =
      (dirents m).overlay (directSize * n) directSize (dirent ino name) := by
  obtain ⟨-, hblocks, -⟩ := @entered_rooted _ _ _ name h (slot_rootEntry hn) hfree
  have hbeside := @entered_beside _ ino _ name h (slot_rootEntry hn)
  have hno : ∀ b, blockNo (entered m ino (slotAt m n) name) root b = blockNo m root b :=
    fun b => hbeside.val _
  funext x
  unfold dirents
  rw [hblocks, hno]
  by_cases hin : directSize * n ≤ x ∧ x < directSize * n + directSize
  · obtain ⟨k, rfl⟩ := Nat.exists_eq_add_of_le hin.1
    have hk : k < directSize := by omega
    have hdiv : (directSize * n + k) / blkSize = n / entries := by
      unfold directSize blkSize entries at *
      omega
    have hmod : (directSize * n + k) % blkSize = directSize * (n % entries) + k := by
      unfold directSize blkSize entries at *
      omega
    rw [hdiv, if_pos hn, hmod, ← Nat.add_assoc, Mem.overlay_in hin, Nat.add_sub_cancel_left]
    show entered m ino (slotAt m n) name (slotAt m n + k) = _
    unfold entered dirent
    by_cases hname : nameOff ≤ k
    · have hlt : k < nameOff + 14 := by
        unfold directSize at hk
        unfold nameOff
        omega
      rw [Mem.overlay_in ⟨by omega, by omega⟩, Mem.overlay_in ⟨hname, hlt⟩]
      congr 1
      omega
    · have hlow : k < 2 := by
        unfold nameOff at hname
        omega
      rw [Mem.overlay_out (.inl (by omega)), Mem.overlay_out (.inl (by omega)), Mem.wr, Mem.wr,
        Mem.overlay_in (by unfold inoOff; omega), Mem.overlay_in (by unfold inoOff; omega)]
      congr 3
      unfold inoOff
      omega
  · rw [Mem.overlay_out (by omega)]
    split
    · next hb =>
      obtain ⟨hlo, hlt⟩ := h.sane.sound.range (filePlace root (x / blkSize)) (h.present _ hb)
      have hlo' : 14 ≤ blockNo m root (x / blkSize) := hlo
      rw [entered_out ?_, inodeTaken_out]
      · unfold blkSize at *
        omega
      · have hino := ino.isLt
        unfold inodes at hino
        rw [inode_eq]
        unfold blkSize at *
        omega
      · -- two blocks of the directory are different ones
        by_contra hmeet
        have hsame : blockNo m root (x / blkSize) = blockNo m root (n / entries) := by
          unfold slotAt entryAt directSize blkSize entries at *
          omega
        have hplace : filePlace root (x / blkSize) = filePlace root (n / entries) :=
          h.sane.sound.inj _ _ (h.present _ hb) hsame
        have hdiv := (filePlace_inj (hb.trans_le hK) (hn.trans_le hK) hplace).2
        unfold slotAt entryAt directSize at *
        rw [← hdiv] at hmeet
        unfold blkSize entries at *
        omega
    · rfl

/-- The directory is what it was, where its blocks are. -/
theorem dirents_congr (hblocks : rootBlocks m' = rootBlocks m)
    (hno : ∀ b, blockNo m' root b = blockNo m root b)
    (hdata : ∀ b, b < rootBlocks m → ∀ x, x / blkSize = blockNo m root b → m' x = m x) :
    dirents m' = dirents m := by
  funext x
  unfold dirents
  rw [hblocks, hno]
  split
  · next hb =>
    refine hdata _ hb _ ?_
    rw [Nat.mul_add_div (by decide), Nat.div_eq_of_lt (Nat.mod_lt x (by decide)), Nat.add_zero]
  · rfl

/-- Writing a file leaves the directory. -/
theorem Extends.dirents (he : Extends ino m m') (hm : Sane m') (h : Rooted m) (hroot : ino ≠ root) :
    Image.dirents m' = Image.dirents m := by
  have howner : ∀ b, (filePlace root b).owner ≠ ino := fun b => by
    rw [filePlace_owner]
    exact hroot.symm
  refine dirents_congr ?_ (fun b => he.others _ (howner b)) fun b hb x hx =>
    he.block hm (howner b) (h.present b hb) hx
  unfold rootBlocks
  rw [he.size hm hroot.symm]

/-- A block of numbers more leaves it. -/
theorem Numbered.dirents (hn : Numbered root (rootBlocks m) m m₁) (h : Rooted m) :
    Image.dirents m₁ = Image.dirents m := by
  refine dirents_congr (hn.rooted h).2.1 (fun b => hn.vals _ fun he => ?_) fun b hb x hx =>
    hn.data _ (filePlace_data root b) (h.present b hb) x hx
  have hdata := filePlace_data root b
  rw [he] at hdata
  exact hdata rfl

/-! ## What a call comes to -/

/-- The call finds no entry with the name, and gets one for it. -/
def Call.Enters (c : Call) (m : Mem) : Prop :=
  walkPath c.name m = .ok (-1) m ∧ ∃ d m₁, allocFile m = .ok (0, some d) m₁

/-- It gets one just if there are blocks for that. -/
theorem Call.enters_iff {c : Call} (h : Rooted m) (hK : rootBlocks m < fileBlocks) :
    c.Enters m ↔ walkPath c.name m = .ok (-1) m ∧ entryCost m ≤ freeBlocks m := by
  unfold Call.Enters
  refine and_congr_right fun _ => ⟨fun ⟨d, m₁, halloc⟩ => ?_, fun hcost => ?_⟩
  · have hend := allocFile_end h hK
    rw [halloc] at hend
    have hfree := (hend.obtained h hK).2.2.free
    omega
  · cases he : handed m with
    | some e => exact ⟨_, m, allocFile_found h hK.le he⟩
    | none =>
      rw [entryCost, if_pos he, need, h.bare _ hK (Nat.le_refl _), if_pos rfl] at hcost
      obtain ⟨d, hrun⟩ := allocFile_append h hK.le he
      rw [hrun]
      rcases appendBlock_run h hK d with ⟨hn, -⟩ | ⟨m₁, hn, hfull, -⟩ | ⟨no, m', hend, -⟩
      · obtain ⟨-, -, hzero⟩ := numbered_eq_none.mp hn
        omega
      · have hfree := (numbered_spec h.sane hn).free
        have hzero : freeBlocks m₁ = 0 := freeNo_eq_none.mp hfull
        omega
      · exact ⟨_, _, hend⟩

/-- The directory and the inodes are left. -/
structure Unmade (m m' : Mem) : Prop where
  rooted : Rooted m'
  blocks : rootBlocks m' = rootBlocks m
  dirents : dirents m' = dirents m
  inoFree : ∀ k, inoFree m' k = inoFree m k

theorem Unmade.refl (h : Rooted m) : Unmade m m := ⟨h, rfl, rfl, fun _ => rfl⟩

/-- One entry and one inode are used, the entry is for the name and the inode. -/
structure Made (m m' : Mem) (ino : Fin inodes) (name : List UInt8) : Prop where
  rooted : Rooted m'
  blocks : rootBlocks m' = max (rootBlocks m) (slotFor m / entries + 1)
  dirents : dirents m' =
    (dirents m).overlay (directSize * slotFor m) directSize (dirent ino name)
  empty : vacant m (slotFor m) = true
  inoFree : ∀ k, inoFree m' k = (inoFree m k && decide (k ≠ ino))

/-- What is left of the call once it has an entry. -/
theorem Call.Enters.run {c : Call} (hc : c.Enters m) (h : Rooted m) (hK : rootBlocks m < fileBlocks)
    (hino : freeIno m = some ino.val) :
    ∃ m₁, Obtained m m₁ (slotFor m) ∧ createFileImage c.turns c.name c.file m = (do
      let _ ← writeFile c.turns c.file (inode ino)
      return 0) (entered m₁ ino (slotAt m₁ (slotFor m)) c.name) := by
  obtain ⟨hwalk, d, m₁, halloc⟩ := hc
  have hend := allocFile_end h hK
  rw [halloc] at hend
  obtain ⟨-, rfl, hgot⟩ := hend.obtained h hK
  have hino₁ : freeIno m₁ = some ino.val := by
    rw [← hino, freeIno, freeIno, funext hgot.inoFree]
  exact ⟨m₁, hgot, createFileImage_run hwalk halloc (by decide) hino₁
    ((slot_rootEntry hgot.slot).imgSize hgot.rooted).2⟩

/-- CALL: the entry that is due is made. -/
theorem Call.Enters.made {c : Call} (hc : c.Enters m) (h : Rooted m)
    (hK : rootBlocks m < fileBlocks) (hino : freeIno m = some ino.val) :
    Made m (c.after m) ino c.name := by
  obtain ⟨m₁, hgot, hrun⟩ := hc.run h hK hino
  have hslot := slot_rootEntry hgot.slot
  have hfree : inoFree m₁ ino = true := by
    rw [hgot.inoFree]
    exact (freeIno_spec hino).2.1
  have hK₁ : rootBlocks m₁ ≤ fileBlocks := by
    have hblocks := hgot.blocks
    have hle : slotFor m / entries ≤ rootBlocks m := slotFor_le
    omega
  obtain ⟨hrooted, hblocks, -⟩ := @entered_rooted _ _ _ c.name hgot.rooted hslot hfree
  have hused : inoFree (entered m₁ ino (slotAt m₁ (slotFor m)) c.name) ino = false := by
    rw [entered_inoFree hslot hgot.rooted]
    simp
  have hroot := hgot.rooted.ne_root hfree
  obtain ⟨hsane, hext⟩ := writeFile_keeps c.turns c.file hrooted.sane
    (@entered_size_same _ _ _ c.name hslot hgot.rooted)
  obtain ⟨hend, hblocks', -⟩ := hrooted.extends hsane hext hused hroot
  unfold Call.after
  rw [hrun, Act.state_discard]
  refine ⟨hend, ?_, ?_, hgot.empty, fun k => ?_⟩
  · rw [hblocks', hblocks, hgot.blocks]
  · rw [hext.dirents hsane hrooted hroot, entered_dirents hgot.rooted hK₁ hgot.slot hfree,
      hgot.dirents]
  · rw [hext.inoFree hsane, entered_inoFree hslot hgot.rooted, hgot.inoFree]

/-- A call that gets no entry fails: nothing has changed, or a block of numbers was the last block
that was free. -/
theorem Call.refused_cases {c : Call} (h : Rooted m) (hK : rootBlocks m < fileBlocks)
    (hno : ¬ c.Enters m) : createFileImage c.turns c.name c.file m = .fault m ∨
      createFileImage c.turns c.name c.file m = .ok (-1) m ∨
      ∃ m₁, walkPath c.name m = .ok (-1) m ∧ handed m = none ∧
        numbered m root (rootBlocks m) = some m₁ ∧ freeNo m₁ = none ∧
        createFileImage c.turns c.name c.file m = .ok (-1) m₁ := by
  have hlook := Looks.walkPath c.name m
  cases hwalk : walkPath c.name m with
  | fault m' =>
    rw [hwalk] at hlook
    obtain rfl : m' = m := hlook
    refine .inl ?_
    unfold createFileImage
    rw [Act.bind_fault hwalk]
  | ok r m' =>
    rw [hwalk] at hlook
    obtain rfl : m' = m := hlook
    refine .inr ?_
    unfold createFileImage
    rw [Act.bind_ok hwalk]
    by_cases hr : r = -1
    · subst hr
      rw [if_neg (by decide)]
      have hend := allocFile_end h hK
      cases halloc : allocFile m' with
      | fault m'' =>
        rw [halloc] at hend
        nomatch hend
      | ok o m₁ =>
        obtain ⟨r, o⟩ := o
        rw [halloc] at hend
        rw [Act.bind_ok halloc]
        cases hend with
        | found he => exact absurd ⟨hwalk, _, _, halloc⟩ hno
        | appended he ha => exact absurd ⟨hwalk, _, _, halloc⟩ hno
        | noNumbers he hn => exact .inl rfl
        | noBlock he hn hfull => exact .inr ⟨m₁, rfl, he, hn, hfull, rfl⟩
    · rw [if_pos hr]
      exact .inl rfl

/-- And the directory is left. -/
theorem Call.refused {c : Call} (h : Rooted m) (hK : rootBlocks m < fileBlocks)
    (hno : ¬ c.Enters m) : createFileImage c.turns c.name c.file m = .fault m ∨
      ∃ m', createFileImage c.turns c.name c.file m = .ok (-1) m' ∧ Unmade m m' := by
  rcases Call.refused_cases h hK hno with hrun | hrun | ⟨m₁, -, -, hn, -, hrun⟩
  · exact .inl hrun
  · exact .inr ⟨m, hrun, .refl h⟩
  · have hnum := numbered_spec h.sane hn
    obtain ⟨hrooted, hblocks, -⟩ := hnum.rooted h
    exact .inr ⟨m₁, hrun, hrooted, hblocks, hnum.dirents h, hnum.ext.inoFree hnum.sane⟩

theorem Call.kept {c : Call} (h : Rooted m) (hK : rootBlocks m < fileBlocks) (hno : ¬ c.Enters m) :
    Unmade m (c.after m) := by
  unfold Call.after
  rcases Call.refused h hK hno with hrun | ⟨m', hrun, hunmade⟩
  · rw [hrun]
    exact .refl h
  · rw [hrun]
    exact hunmade

/-! ## Call after call -/

/-- The image after the first `k` calls of a row. -/
def stateAt (m : Mem) (calls : List Call) (k : Nat) : Mem := (calls.take k).foldl Call.after m

theorem stateAt_zero (m : Mem) (calls : List Call) : stateAt m calls 0 = m := rfl

theorem stateAt_succ (calls : List Call) (hk : k < calls.length) :
    stateAt m calls (k + 1) = calls[k].after (stateAt m calls k) := by
  rw [stateAt, List.take_succ_eq_append_getElem hk, List.foldl_append]
  rfl

/-- Whenever a call gets an entry, an inode of the table is free for it. -/
def InodesLast (m : Mem) (calls : List Call) : Prop :=
  ∀ k (hk : k < calls.length), calls[k].Enters (stateAt m calls k) → 1 ≤ freeInodes (stateAt m calls k)

/-- A well-formed image stays so through such a row. -/
theorem Formed.stateAt {calls : List Call} (h : Formed m) (hlast : InodesLast m calls)
    (hk : k ≤ calls.length) : Formed (stateAt m calls k) := by
  induction k with
  | zero => exact h
  | succ k ih =>
    have hold := ih (Nat.le_of_succ_le hk)
    rw [stateAt_succ calls hk]
    by_cases hc : calls[k].Enters (Image.stateAt m calls k)
    · exact (hold.create (hlast k hk hc) _ _ _).1
    · have hunmade := Call.kept hold.toRooted hold.small hc
      refine ⟨hunmade.rooted, ?_⟩
      rw [hunmade.blocks, freeInodes_congr hunmade.inoFree]
      exact hold.room

end Dirents

/-! ## Looking for a name -/

/-- Whether a name, and the nought that ends it, is at an address. -/
def spelled (m : Mem) : Nat → List UInt8 → Bool
  | a, [] => decide (m a = 0)
  | a, c :: cs => decide (m a = c) && spelled m (a + 1) cs

/-- Whether an entry of the first block has the name, as far as `strcmp` sees. -/
def Known (m : Mem) (name : List UInt8) : Prop :=
  0 < rootBlocks m ∧ ∃ e < entries, spelled m (entryAt (blockNo m root 0) e + nameOff) name = true

section Names

variable {m m' : Mem} {a n i : Nat} {name : List UInt8} {r : Int} {b : Bool} {d : Option Nat}

theorem load_eq_ok {v : Nat} (h : load n a m = .ok v m') : m' = m ∧ v = Mem.rd n m a := by
  unfold load at h
  split at h
  · cases h
    exact ⟨rfl, rfl⟩
  · cases h

theorem byte_eq_ok {v : Nat} (h : load 1 a m = .ok v m') : m' = m ∧ v = (m a).toNat := by
  obtain ⟨rfl, rfl⟩ := load_eq_ok h
  exact ⟨rfl, by simp only [Mem.rd, Nat.mul_zero, Nat.add_zero]⟩

/-- What `strcmp` finds, where it returns. -/
theorem strcmp_eq_ok (h : strcmp a name m = .ok b m') : m' = m ∧ b = spelled m a name := by
  induction name generalizing a with
  | nil =>
    obtain ⟨v, m₁, hv, h⟩ := Act.bind_eq_ok.mp h
    obtain ⟨rfl, rfl⟩ := byte_eq_ok hv
    cases h
    refine ⟨rfl, decide_eq_decide.mpr ⟨fun h => UInt8.toNat_inj.mp h, fun h => by rw [h]; rfl⟩⟩
  | cons c cs ih =>
    obtain ⟨v, m₁, hv, h⟩ := Act.bind_eq_ok.mp h
    obtain ⟨rfl, rfl⟩ := byte_eq_ok hv
    rw [spelled]
    by_cases hc : m₁ a = c
    · rw [if_pos (by rw [hc])] at h
      rw [decide_eq_true hc, Bool.true_and]
      exact ih h
    · rw [if_neg fun he => hc (UInt8.toNat_inj.mp he)] at h
      cases h
      rw [decide_eq_false hc, Bool.false_and]
      exact ⟨rfl, rfl⟩

/-- `strcmp` returns where the image does not end before the name. -/
theorem strcmp_run (h : a + name.length + 1 ≤ imgSize) :
    strcmp a name m = .ok (spelled m a name) m := by
  cases hrun : strcmp a name m with
  | ok b m' =>
    obtain ⟨rfl, rfl⟩ := strcmp_eq_ok hrun
    rfl
  | fault m' =>
    exfalso
    induction name generalizing a with
    | nil =>
      rw [strcmp, Act.bind_ok (load_byte (show a + 1 ≤ imgSize from h))] at hrun
      cases hrun
    | cons c cs ih =>
      rw [List.length_cons] at h
      rw [strcmp, Act.bind_ok (load_byte (by omega))] at hrun
      split at hrun
      · exact ih (by omega) hrun
      · cases hrun

/-- What the search of a block finds, where it returns. -/
theorem walkEntries_eq_ok {no : Nat} (h : walkEntries name n (entryAt no i) m = .ok b m') :
    m' = m ∧ (b = true ↔ ∃ e, i ≤ e ∧ e < i + n ∧ spelled m (entryAt no e + nameOff) name = true) := by
  induction n generalizing i with
  | zero =>
    cases h
    refine ⟨rfl, iff_of_false Bool.false_ne_true ?_⟩
    rintro ⟨e, h1, h2, -⟩
    omega
  | succ n ih =>
    have hnext : entryAt no i + directSize = entryAt no (i + 1) := by
      unfold entryAt
      rw [Nat.mul_succ, Nat.add_assoc]
    obtain ⟨v, m₁, hv, h⟩ := Act.bind_eq_ok.mp h
    obtain ⟨rfl, rfl⟩ := strcmp_eq_ok hv
    by_cases hs : spelled m₁ (entryAt no i + nameOff) name = true
    · rw [if_pos hs] at h
      cases h
      exact ⟨rfl, iff_of_true rfl ⟨i, Nat.le_refl i, by omega, hs⟩⟩
    · rw [if_neg hs, hnext] at h
      obtain ⟨rfl, hiff⟩ := ih h
      refine ⟨rfl, hiff.trans ⟨fun ⟨e, h1, h2, h3⟩ => ⟨e, by omega, by omega, h3⟩, ?_⟩⟩
      rintro ⟨e, h1, h2, h3⟩
      have hne : i ≠ e := by
        rintro rfl
        exact hs h3
      exact ⟨e, by omega, by omega, h3⟩

/-- It returns where the image does not end before the name. -/
theorem walkEntries_run {no : Nat} (hi : i + n ≤ entries)
    (hfit : entryAt no entries + name.length ≤ imgSize) :
    ∃ b, walkEntries name n (entryAt no i) m = .ok b m := by
  induction n generalizing i with
  | zero => exact ⟨false, rfl⟩
  | succ n ih =>
    have hlen : entryAt no i + nameOff + name.length + 1 ≤ imgSize := by
      unfold entryAt directSize entries at *
      unfold nameOff
      omega
    have hnext : entryAt no i + directSize = entryAt no (i + 1) := by
      unfold entryAt
      rw [Nat.mul_succ, Nat.add_assoc]
    rw [walkEntries, Act.bind_ok (strcmp_run hlen), hnext]
    split
    · exact ⟨true, rfl⟩
    · exact ih (by omega)

/-- The blocks after the first are passed over. -/
theorem walkPathLoop_rest (h : Rooted m) (hK : rootBlocks m ≤ fileBlocks) (n i : Nat)
    (hi : i + n ≤ rootBlocks m) (d : Option Nat) :
    walkPathLoop (inode root) name n i (blkSize / directSize) d m = .ok (-1) m := by
  induction n generalizing i d with
  | zero => rfl
  | succ n ih =>
    obtain ⟨hwalk, hload⟩ := h.walk (d := d) hK (by omega : i < rootBlocks m) 0
    rw [walkPathLoop, Act.bind_ok hwalk]
    simp only [Int.lt_irrefl, if_false]
    rw [Act.deref_bind_apply, Act.bind_ok hload, if_pos (h.present i (by omega)), Nat.sub_self]
    show walkPathLoop _ name n (i + 1) (max (blkSize / directSize) (blkSize / directSize)) _ m = _
    rw [Nat.max_self]
    exact ih (i + 1) (by omega) _

/-- `walk_path` looks at the first block only. -/
theorem walkPath_first (h : Rooted m) (hK : rootBlocks m ≤ fileBlocks) :
    walkPath name m = if rootBlocks m = 0 then .ok (-1) m else (do
      if ← walkEntries name entries (entryAt (blockNo m root 0) 0) then return 0
      else return -1) m := by
  have hload : load 4 (inode rootInode + diSizeOff) m = .ok (fileSize m root) m := @load_size _ root
  unfold walkPath
  rw [Act.bind_ok hload]
  show walkPathLoop (inode root) name (rootBlocks m) 0 0 none m = _
  cases hn : rootBlocks m with
  | zero => rfl
  | succ n =>
    obtain ⟨hwalk, hno⟩ := h.walk (d := none) hK (by omega : 0 < rootBlocks m) 0
    have hstart : entryAt (blockNo m root 0) 0 = blkSize * blockNo m root 0 := by
      rw [entryAt, Nat.mul_zero, Nat.add_zero]
    rw [if_neg (Nat.succ_ne_zero n), walkPathLoop, Act.bind_ok hwalk, hstart]
    simp only [Int.lt_irrefl, if_false]
    rw [Act.deref_bind_apply, Act.bind_ok hno, if_pos (h.present 0 (by omega))]
    show (walkEntries name entries (blkSize * blockNo m root 0) >>= _) m = _
    cases hsearch : walkEntries name entries (blkSize * blockNo m root 0) m with
    | fault m' => rw [Act.bind_fault hsearch, Act.bind_fault hsearch]
    | ok b m' =>
      rw [Act.bind_ok hsearch, Act.bind_ok hsearch]
      have hsame := Looks.walkEntries name entries (blkSize * blockNo m root 0) m
      rw [hsearch] at hsame
      obtain rfl : m' = m := hsame
      split
      · rfl
      · exact walkPathLoop_rest h hK n 1 (by omega) _

/-- What `walk_path` finds, where it returns. -/
theorem walkPath_eq_ok (h : Rooted m) (hK : rootBlocks m ≤ fileBlocks)
    (hrun : walkPath name m = .ok r m') : m' = m ∧ (Known m name ∧ r = 0 ∨ ¬ Known m name ∧ r = -1) := by
  rw [walkPath_first h hK] at hrun
  split at hrun
  · next hz =>
    cases hrun
    exact ⟨rfl, .inr ⟨fun hk => absurd hk.1 (by omega), rfl⟩⟩
  · next hne =>
    obtain ⟨b, m₁, hsearch, hres⟩ := Act.bind_eq_ok.mp hrun
    obtain ⟨rfl, hiff⟩ := walkEntries_eq_ok hsearch
    have hknown : b = true ↔ Known m₁ name := by
      refine hiff.trans ⟨fun ⟨e, _, h2, h3⟩ => ⟨Nat.pos_of_ne_zero hne, e, by omega, h3⟩,
        fun ⟨_, e, h2, h3⟩ => ⟨e, Nat.zero_le e, by omega, h3⟩⟩
    split at hres
    · next hb =>
      cases hres
      exact ⟨rfl, .inl ⟨hknown.mp hb, rfl⟩⟩
    · next hb =>
      cases hres
      exact ⟨rfl, .inr ⟨fun hk => hb (hknown.mpr hk), rfl⟩⟩

/-- A name that the image does not end before is looked for. -/
theorem walkPath_run (h : Rooted m) (hK : rootBlocks m ≤ fileBlocks)
    (hfit : blkSize * blocks + name.length ≤ imgSize) :
    (Known m name ∧ walkPath name m = .ok 0 m) ∨ (¬ Known m name ∧ walkPath name m = .ok (-1) m) := by
  have hrun : ∃ r, walkPath name m = .ok r m := by
    rw [walkPath_first h hK]
    split
    · exact ⟨-1, rfl⟩
    · next hne =>
      have hlt : blockNo m root 0 < blocks :=
        (h.sane.sound.range (filePlace root 0) (h.present 0 (Nat.pos_of_ne_zero hne))).2
      have hend : entryAt (blockNo m root 0) entries ≤ blkSize * blocks := by
        unfold entryAt directSize entries blkSize blocks at *
        omega
      obtain ⟨b, hb⟩ := @walkEntries_run m entries 0 name (blockNo m root 0) (by decide) (by omega)
      rw [Act.bind_ok hb]
      split
      · exact ⟨0, rfl⟩
      · exact ⟨-1, rfl⟩
  obtain ⟨r, hr⟩ := hrun
  rcases walkPath_eq_ok h hK hr with ⟨-, ⟨hk, rfl⟩ | ⟨hk, rfl⟩⟩
  · exact .inl ⟨hk, hr⟩
  · exact .inr ⟨hk, hr⟩

end Names

end Myos.Image
