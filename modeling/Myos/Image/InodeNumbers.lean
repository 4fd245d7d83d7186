import Myos.Image.Mount

/-!
# The numbers of the inodes

`create_file_image` takes the first number that is set in a bitmap of 32768. The table on
the image has 1280 inodes, and the kernel reads the first 128 of them. So the numbers are
inside on both sides as long as one below 128 is free whenever a call looks for one
(`inode_numbers`), and on a formatted image the call that makes the 128th file is the
first that takes another one.
-/

namespace Myos.Image

open Myos.Lib
open Myos.Kernel (Fs blkSize kbase inodesInTable inodeSize directSize nameOff inoOff diSizeOff)

/-! ## The number of a call -/

/-- The steps of `create_file_image` up to the number of the inode. -/
def inodeNumber (name : List UInt8) : Act Mem (Int × Option Nat) := do
  let r ← walkPath name
  if r ≠ -1 then return (-1, none)
  else do
    let (r, pdir) ← allocFile
    if r < 0 then return (-1, none)
    else do
      let ino ← getFreeNo inoBitmap
      return (ino, pdir)

/-- The other steps take the number from there. -/
theorem createFileImage_inodeNumber (t : Nat) (name : List UInt8) (file : Option Reads) :
    createFileImage t name file = (do
      let (ino, pdir) ← inodeNumber name
      if ino < 0 then return -1
      else do
        setBitmap inoBitmap ino.toNat
        let pinode := inode ino.toNat
        store 4 (pinode + diSizeOff) 0
        store 2 (pinode + diTypeOff) 0
        let pdir ← Act.deref pdir
        store 2 (pdir + inoOff) ino.toNat
        copyIn (pdir + nameOff) 14 fun i => name.getD i 0
        let _ ← writeFile t file pinode
        return 0) := by
  unfold createFileImage inodeNumber
  rw [Act.bind_assoc]
  congr 1
  funext r
  split
  · rfl
  · rw [Act.bind_assoc]
    congr 1
    funext o
    obtain ⟨r, pdir⟩ := o
    simp only []
    split
    · rfl
    · rw [Act.bind_assoc]
      congr 1

/-- The number that a call takes. -/
def Call.taken (c : Call) (m : Mem) : Option Nat :=
  match inodeNumber c.name m with
  | .ok (ino, _) _ => if ino < 0 then none else some ino.toNat
  | .fault _ => none

/-- The image in which a call looks for a number, if it comes to that. -/
def Call.Asks (c : Call) (m m₁ : Mem) : Prop :=
  ∃ r d m₀, walkPath c.name m = .ok (-1) m₀ ∧ allocFile m₀ = .ok (r, d) m₁ ∧ ¬ r < 0

/-- The inode is one of the table, and a kernel that mounts the image has it in the frame of its
table. -/
structure InTable (m : Mem) (ino : Nat) : Prop where
  image : inode ino + inodeSize ≤ inoTable + inoSize
  inside : ∀ s, Mounts m s → s.inoTable ≤ s.inode ino ∧
    s.inode ino + inodeSize ≤ s.inoTable + blkSize
  holds : ∀ s, Mounts m s → ∀ x < inodeSize, s.mm.mem (s.inode ino - kbase + x) = m (inode ino + x)

/-- The numbers taken in a row of calls are inside, in the image they end with. -/
def NumbersInside (m : Mem) (calls : List Call) : Prop :=
  ∀ k (hk : k < calls.length) ino, calls[k].taken (stateAt m calls k) = some ino →
    InTable (stateAt m calls calls.length) ino

/-- Whenever a call looks for a number and finds one, there is one below 128. -/
def RoomBelow (m : Mem) (calls : List Call) : Prop :=
  ∀ k (hk : k < calls.length) m₁, calls[k].Asks (stateAt m calls k) m₁ →
    (∃ no, inoFree m₁ no = true) → ∃ no < inodesInTable, inoFree m₁ no = true

section Numbers

variable {m m₁ : Mem} {c : Call} {ino no : Nat}

/-- A number is inside just if it is below 128. -/
theorem inTable_iff : InTable m ino ↔ ino < inodesInTable := by
  constructor
  · intro h
    obtain ⟨s, hs⟩ := mounts_sample m
    obtain ⟨-, hend⟩ := h.inside s hs
    unfold Fs.inode inodeSize blkSize at hend
    unfold inodesInTable
    omega
  · intro hino
    refine ⟨?_, fun s _ => ⟨Nat.le_add_right _ _, ?_⟩, fun s hs x hx => ?_⟩
    · unfold inodesInTable at hino
      unfold inode inoSize inodeSize
      omega
    · unfold inodesInTable at hino
      unfold Fs.inode inodeSize blkSize
      omega
    · obtain ⟨l, hserves⟩ := hs.serves
      exact hserves.byte hino hx

/-- A call takes the first number that is free where it looks for one. -/
theorem taken_iff : c.taken m = some ino ↔ ∃ m₁, c.Asks m m₁ ∧ freeIno m₁ = some ino := by
  unfold Call.taken inodeNumber Call.Asks
  constructor
  · intro h
    cases hwalk : walkPath c.name m with
    | fault m₀ =>
      rw [Act.bind_fault hwalk] at h
      cases h
    | ok r m₀ =>
      rw [Act.bind_ok hwalk] at h
      by_cases hr : r = -1
      · subst hr
        rw [if_neg (by decide)] at h
        cases halloc : allocFile m₀ with
        | fault m₁ =>
          rw [Act.bind_fault halloc] at h
          cases h
        | ok o m₁ =>
          obtain ⟨r, d⟩ := o
          rw [Act.bind_ok halloc] at h
          simp only [] at h
          by_cases hneg : r < 0
          · rw [if_pos hneg] at h
            cases h
          · rw [if_neg hneg, Act.bind_ok getFreeIno_run] at h
            refine ⟨m₁, ⟨r, d, m₀, rfl, halloc, hneg⟩, ?_⟩
            cases hfree : freeIno m₁ with
            | none =>
              rw [hfree] at h
              cases h
            | some k =>
              rw [hfree] at h
              simpa using h
      · rw [if_pos hr] at h
        cases h
  · rintro ⟨m₁, ⟨r, d, m₀, hwalk, halloc, hneg⟩, hfree⟩
    have hget : getFreeNo inoBitmap m₁ = .ok (ino : Int) m₁ := by rw [getFreeIno_run, hfree]
    rw [Act.bind_ok hwalk, if_neg (by decide), Act.bind_ok halloc]
    simp only []
    rw [if_neg hneg, Act.bind_ok hget]
    simp

/-- One that is free is found. -/
theorem freeIno_exists (h : inoFree m no = true) : ∃ k, freeIno m = some k ∧ k ≤ no := by
  have hlt : no < blocks := by
    unfold inoFree at h
    rw [Bool.and_eq_true, decide_eq_true_iff] at h
    exact h.1
  cases hino : freeIno m with
  | none =>
    exact absurd hino (Bitmap.firstFrom_ne_none (Nat.zero_le no) ((Nat.zero_add blocks).symm ▸ hlt) h)
  | some k =>
    refine ⟨k, rfl, ?_⟩
    by_contra hgt
    rw [(freeIno_spec hino).2.2 no (Nat.lt_of_not_le hgt)] at h
    cases h

/-- The numbers that a row of calls takes are inside just if one below 128 is free whenever
one is looked for. -/
theorem inode_numbers (m : Mem) (calls : List Call) : NumbersInside m calls ↔ RoomBelow m calls := by
  constructor
  · rintro h k hk m₁ hasks ⟨no, hfree⟩
    obtain ⟨ino, hino, -⟩ := freeIno_exists hfree
    have hin := h k hk ino (taken_iff.mpr ⟨m₁, hasks, hino⟩)
    exact ⟨ino, inTable_iff.mp hin, (freeIno_spec hino).2.1⟩
  · intro h k hk ino htaken
    obtain ⟨m₁, hasks, hino⟩ := taken_iff.mp htaken
    obtain ⟨no, hno, hfree⟩ := h k hk m₁ hasks ⟨ino, (freeIno_spec hino).2.1⟩
    obtain ⟨j, hj, hle⟩ := freeIno_exists hfree
    rw [hino] at hj
    cases hj
    exact inTable_iff.mpr (hle.trans_lt hno)

/-- On a well-formed image the call looks for a number among those that were free before it. -/
theorem Call.Asks.inoFree (h : c.Asks m m₁) (hm : Rooted m) (hK : rootBlocks m < fileBlocks)
    (k : Nat) : Image.inoFree m₁ k = Image.inoFree m k := by
  obtain ⟨r, d, m₀, hwalk, halloc, hneg⟩ := h
  obtain ⟨rfl, -⟩ := walkPath_eq_ok hm hK.le hwalk
  have hend := allocFile_end hm hK
  rw [halloc] at hend
  cases d with
  | some d => exact (hend.obtained hm hK).2.2.inoFree k
  | none =>
    cases hend with
    | noNumbers => exact absurd (by decide) hneg
    | noBlock => exact absurd (by decide) hneg

end Numbers

/-! ## The first files of an image -/

/-- The name of the file `i`. -/
def plainName (i : Nat) : List UInt8 := [UInt8.ofNat (i / 128 + 1), UInt8.ofNat (i % 128 + 1)]

/-- A call for an empty file. -/
def plainCall (i : Nat) : Call := ⟨0, plainName i, some ⟨[], nofun, nofun⟩⟩

/-- The first `i` entries are used, and the inodes after the root's for them. -/
structure Filling (m : Mem) (i : Nat) : Prop where
  formed : Formed m
  free : ∀ k, inoFree m k = decide (i + 1 ≤ k ∧ k < blocks)
  blocks : rootBlocks m = (i + 255) / entries
  vacant : ∀ e, vacant m e = decide (i ≤ e)

/-- A formatted image with the entries and inodes of `i` such calls. -/
structure Holding (m : Mem) (i : Nat) : Prop extends Filling m i where
  names : ∀ e < i, ∀ k < 2, dirents m (directSize * e + (nameOff + k)) = (plainName e).getD k 0
  room : 32754 ≤ freeBlocks m + 2 * rootBlocks m

section Holding

variable {m : Mem} {i : Nat}

theorem filling_start : Filling (formatted blank) 0 := by
  have hzero : rootBlocks (formatted blank) = 0 := by
    rw [rootBlocks, formatted_size]
    rfl
  refine ⟨blank_formed, fun _ => formatted_inoFree, hzero, fun e => ?_⟩
  rw [vacant, dirents, hzero, if_neg (Nat.not_lt_zero _), decide_eq_true rfl,
    decide_eq_true (Nat.zero_le e)]

theorem holding_start : Holding (formatted blank) 0 := by
  refine ⟨filling_start, fun e he => absurd he (Nat.not_lt_zero e), ?_⟩
  rw [blank_freeBlocks]
  exact Nat.le_add_right _ _

theorem Filling.small (h : Filling m i) (hi : i ≤ 257) : rootBlocks m < fileBlocks := by
  rw [h.blocks]
  unfold entries fileBlocks
  omega

/-- No two of the names are alike. -/
theorem Holding.unknown (h : Holding m i) (hi : i ≤ 257) : ¬ Known m (plainName i) := by
  rintro ⟨hpos, e, he, hspell⟩
  have hbyte : ∀ k, k < 2 → m (entryAt (blockNo m root 0) e + nameOff + k) =
      dirents m (directSize * e + (nameOff + k)) := by
    intro k hk
    rw [dirents_slot (by rwa [Nat.div_eq_of_lt he]) (by unfold nameOff directSize; omega), slotAt,
      Nat.div_eq_of_lt he, Nat.mod_eq_of_lt he, Nat.add_assoc]
  have h0 := hbyte 0 (by decide)
  have h1 := hbyte 1 (by decide)
  simp only [plainName, spelled, Bool.and_eq_true, decide_eq_true_iff] at hspell
  rw [Nat.add_zero, hspell.1] at h0
  rw [hspell.2.1] at h1
  by_cases hei : e < i
  · rw [h.names e hei 0 (by decide)] at h0
    rw [h.names e hei 1 (by decide)] at h1
    have hv0 := congrArg UInt8.toNat h0
    have hv1 := congrArg UInt8.toNat h1
    simp only [plainName, List.getD_cons_zero, List.getD_cons_succ, UInt8.toNat_ofNat'] at hv0 hv1
    omega
  · have hempty := h.vacant e
    rw [decide_eq_true (Nat.not_lt.mp hei), Image.vacant, decide_eq_true_iff] at hempty
    rw [Nat.add_zero nameOff, hempty] at h0
    have hv0 := congrArg UInt8.toNat h0
    simp only [UInt8.toNat_ofNat'] at hv0
    rw [show (0 : UInt8).toNat = 0 from rfl] at hv0
    omega

/-- The entry that is due is the next one. -/
theorem Filling.slotFor (h : Filling m i) (hi : i ≤ 257) (hne : i ≠ 257) :
    Image.slotFor m = i := by
  unfold Image.slotFor
  cases hhand : handed m with
  | some e =>
    obtain ⟨-, he, hempty, hfirst⟩ := handed_spec hhand
    rw [h.vacant, decide_eq_true_iff] at hempty
    refine Nat.le_antisymm (Nat.not_lt.mp fun hlt => ?_) hempty
    have hused := hfirst i hlt
    rw [h.vacant, decide_eq_false_iff_not] at hused
    exact hused (Nat.le_refl i)
  | none =>
    have hblocks := h.blocks
    show entries * rootBlocks m = i
    by_cases hz : i = 0
    · rw [hblocks, hz]
      rfl
    · have hused := handed_none hhand (by rw [hblocks]; unfold entries; omega)
      have hge : entries ≤ i := by
        by_contra hlt
        have hvac := hused i (Nat.lt_of_not_le hlt)
        rw [h.vacant, decide_eq_false_iff_not] at hvac
        exact hvac (Nat.le_refl i)
      rw [hblocks]
      unfold entries at *
      omega

/-- There is an entry to be had. -/
theorem Holding.enters (h : Holding m i) (hi : i ≤ 257) : (plainCall i).Enters m := by
  rw [Call.enters_iff h.formed.toRooted (h.small hi)]
  refine ⟨?_, ?_⟩
  · have hfit : blkSize * Image.blocks + 2 ≤ imgSize := by decide
    rcases @walkPath_run _ (plainName i) h.formed.toRooted (h.small hi).le hfit with
      ⟨hk, -⟩ | ⟨-, hrun⟩
    · exact absurd hk (h.unknown hi)
    · exact hrun
  · have hroom := h.room
    have hblocks := h.blocks
    have hcost : entryCost m ≤ 2 := by
      unfold entryCost need
      split
      · split <;> split <;> omega
      · omega
    unfold entries at hblocks
    omega

/-- The next inode is that of the call. -/
theorem Filling.freeIno (h : Filling m i) (hi : i ≤ 257) : Image.freeIno m = some (i + 1) := by
  have hfree : inoFree m (i + 1) = true := by
    rw [h.free]
    exact decide_eq_true ⟨Nat.le_refl _, by unfold Image.blocks; omega⟩
  obtain ⟨k, hk, hle⟩ := freeIno_exists hfree
  have hkfree := (freeIno_spec hk).2.1
  rw [h.free, decide_eq_true_iff] at hkfree
  rw [hk, Nat.le_antisymm hle hkfree.1]

/-- There is one for it. -/
theorem Filling.freeInodes (h : Filling m i) (hi : i ≤ 257) : 1 ≤ Image.freeInodes m := by
  refine Finset.card_pos.mpr ⟨i + 1, Finset.mem_filter.mpr ⟨Finset.mem_range.mpr ?_, ?_⟩⟩
  · unfold inodes
    omega
  · rw [h.free]
    exact decide_eq_true ⟨Nat.le_refl _, by unfold Image.blocks; omega⟩

/-- A call that makes the next entry. -/
theorem Filling.made {m' : Mem} {ino : Fin inodes} {name : List UInt8} (h : Filling m i)
    (hm' : Formed m') (hmade : Made m m' ino name) (hino : ino.val = i + 1) (hi : i < 257)
    (hne : name.getD 0 0 ≠ 0) : Filling m' (i + 1) := by
  have hslot := h.slotFor hi.le (Nat.ne_of_lt hi)
  refine ⟨hm', fun k => ?_, ?_, fun e => ?_⟩
  · rw [hmade.inoFree, h.free, hino, ← Bool.decide_and]
    exact decide_eq_decide.mpr (by omega)
  · have hold := h.blocks
    rw [hmade.blocks, hslot]
    unfold entries at *
    omega
  · rw [Image.vacant, hmade.dirents, hslot]
    by_cases hei : e = i
    · rw [hei, Mem.overlay_in (by unfold directSize nameOff; omega), Nat.add_sub_cancel_left, dirent,
        Mem.overlay_in (by omega), Nat.sub_self, decide_eq_false hne,
        decide_eq_false (by omega : ¬ i + 1 ≤ i)]
    · rw [Mem.overlay_out (by unfold directSize nameOff; omega)]
      show Image.vacant m e = _
      rw [h.vacant]
      exact decide_eq_decide.mpr (by omega)

theorem Holding.next (h : Holding m i) (hi : i < 257) : Holding ((plainCall i).after m) (i + 1) := by
  have hlt : i + 1 < inodes := by
    unfold inodes
    omega
  obtain ⟨ino, hino⟩ : ∃ ino : Fin inodes, ino.val = i + 1 := ⟨⟨i + 1, hlt⟩, rfl⟩
  have hfirst : Image.freeIno m = some ino.val := by rw [h.freeIno hi.le, hino]
  have hK := h.small hi.le
  have hmade := (h.enters hi.le).made h.formed.toRooted hK hfirst
  obtain ⟨m₁, hgot, hrun⟩ := (h.enters hi.le).run h.formed.toRooted hK hfirst
  have hslot := h.slotFor hi.le (Nat.ne_of_lt hi)
  have hdirents := hmade.dirents
  rw [hslot] at hdirents
  have hname : ∀ k < 2, dirent ino (plainName i) (nameOff + k) = (plainName i).getD k 0 := by
    intro k hk
    rw [dirent, Mem.overlay_in (by omega), Nat.add_sub_cancel_left]
  have hnext := h.made (h.formed.create (h.freeInodes hi.le) _ _ _).1 hmade hino hi (by
    intro hz
    have hval := congrArg UInt8.toNat hz
    simp only [plainCall, plainName, List.getD_cons_zero, UInt8.toNat_ofNat'] at hval
    rw [show (0 : UInt8).toNat = 0 from rfl] at hval
    omega)
  have hblocks : rootBlocks ((plainCall i).after m) = (i + 1 + 255) / entries := hnext.blocks
  refine ⟨hnext, fun e he k hk => ?_, ?_⟩
  · rw [hdirents]
    by_cases hei : e = i
    · rw [hei, Mem.overlay_in (by unfold directSize nameOff; omega), Nat.add_sub_cancel_left]
      exact hname k hk
    · rw [Mem.overlay_out (by unfold directSize nameOff; omega)]
      exact h.names e (by omega) k hk
  · have hafter : (plainCall i).after m = entered m₁ ino (slotAt m₁ (Image.slotFor m)) (plainName i) := by
      unfold Call.after
      rw [hrun, Act.state_discard]
      rfl
    have hbeside := @entered_beside _ ino _ (plainName i) hgot.rooted (slot_rootEntry hgot.slot)
    have hsame : freeBlocks ((plainCall i).after m) = freeBlocks m₁ := by
      rw [hafter, freeBlocks, hbeside.ledger]
      rfl
    have hspent := hgot.free
    have hroom := h.room
    have hold := h.blocks
    have hcost : entryCost m ≤ 2 * (rootBlocks ((plainCall i).after m) - rootBlocks m) := by
      unfold entryCost
      split
      · next hnone =>
        have hdue : Image.slotFor m = entries * rootBlocks m := by
          rw [Image.slotFor, hnone]
          rfl
        rw [hslot] at hdue
        have hneed : need m root (rootBlocks m) ≤ 2 := by
          unfold need
          split <;> split <;> omega
        rw [hblocks]
        unfold entries at *
        omega
      · exact Nat.zero_le _
    have hmono : rootBlocks m ≤ rootBlocks ((plainCall i).after m) := by
      rw [hblocks, hold]
      unfold entries
      omega
    omega

/-- The calls for the first `n` files. -/
def plainCalls (n : Nat) : List Call := (List.range n).map plainCall

theorem plainCalls_length (n : Nat) : (plainCalls n).length = n := by
  rw [plainCalls, List.length_map, List.length_range]

theorem plainCalls_get {k n : Nat} (hk : k < (plainCalls n).length) :
    (plainCalls n)[k] = plainCall k := by
  simp only [plainCalls, List.getElem_map, List.getElem_range]

/-- The image after the first calls. -/
theorem holding_calls {n : Nat} (hn : i ≤ n) (hi : i ≤ 257) :
    Holding (stateAt (formatted blank) (plainCalls n) i) i := by
  induction i with
  | zero => exact holding_start
  | succ i ih =>
    have hlt : i < (plainCalls n).length := by
      rw [plainCalls_length]
      exact hn
    rw [stateAt_succ _ hlt, plainCalls_get hlt]
    exact (ih (by omega) (by omega)).next (by omega)

/-- The 128th call takes a number that is not inside. -/
theorem inode_numbers_past : ¬ ∀ calls : List Call, NumbersInside (formatted blank) calls := by
  intro h
  have hlt : 127 < (plainCalls 128).length := by
    rw [plainCalls_length]
    decide
  have hold := @holding_calls 127 128 (by decide) (by decide)
  have hin := h (plainCalls 128) 127 hlt 128 ?_
  · exact absurd (inTable_iff.mp hin) (by decide)
  · rw [plainCalls_get hlt]
    obtain ⟨hwalk, d, m₁, halloc⟩ := hold.enters (by decide)
    refine taken_iff.mpr ⟨m₁, ⟨0, some d, _, hwalk, halloc, by decide⟩, ?_⟩
    have hsame := Call.Asks.inoFree ⟨0, some d, _, hwalk, halloc, by decide⟩
      hold.formed.toRooted (hold.small (by decide))
    rw [← hold.freeIno (by decide), freeIno, freeIno, funext hsame]

end Holding

end Myos.Image
