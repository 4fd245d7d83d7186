import Myos.Image.Places

/-!
# Allocation in the image

What the allocator and `walk_block` of the image builder do on a sane image. `walk_block`
and its callers fill a place: one that has a number is left alone, one that has none
is given the first free block, and without a free block nothing is stored (`filled`).
-/

namespace Myos.Image

open Myos.Lib
open Myos.Kernel (blkSize bitLength inodeSize blockOff blockSlot diSizeOff)

section Mapping

variable {m : Mem} {n a v : Nat} {f : Mem}

theorem load_ok (h : a + n ≤ imgSize) : load n a m = .ok (Mem.rd n m a) m := if_pos h

theorem store_ok (h : a + n ≤ imgSize) : store n a v m = .ok () (Mem.wr n m a v) := if_pos h

theorem copyIn_ok (h : a + n ≤ imgSize) : copyIn a n f m = .ok () (m.overlay a n f) := if_pos h

/-- What lies before the last block fits in the mapping. -/
theorem le_imgSize (h : a ≤ blkSize * blocks) : a ≤ imgSize := h.trans (by decide)

end Mapping

/-! ## The bitmaps -/

section Bitmaps

variable {m : Mem} {bitmap no : Nat}

theorem isBlkempty_run (hb : bitmap + blkSize ≤ imgSize) (hno : no < blocks) :
    ∃ w, isBlkempty bitmap no m = .ok w m ∧ (w ≠ 0 ↔ Bitmap.bit m bitmap no = true) := by
  have hword : bitmap + 4 * (no / 32) + 4 ≤ imgSize := by
    unfold blkSize at hb
    unfold blocks at hno
    omega
  refine ⟨_, ?_, Bitmap.land_bit_ne_zero _ _⟩
  unfold isBlkempty bitLength
  rw [Act.bind_ok (load_ok hword)]
  rfl

theorem getFreeNoLoop_run (hb : bitmap + blkSize ≤ imgSize) (n i : Nat) (hi : i + n ≤ blocks) :
    getFreeNoLoop bitmap n i m =
      .ok (match Bitmap.firstFrom (Bitmap.bit m bitmap) n i with
        | some k => (k : Int)
        | none => -1) m := by
  induction n generalizing i with
  | zero => rfl
  | succ n ih =>
    obtain ⟨w, hw, hbit⟩ := isBlkempty_run (m := m) hb (by omega : i < blocks)
    rw [getFreeNoLoop, Act.bind_ok hw, Bitmap.firstFrom]
    by_cases h : w ≠ 0
    · rw [if_pos h, if_pos (hbit.mp h)]
      rfl
    · rw [if_neg h, if_neg fun h' => h (hbit.mpr h'), ih (i + 1) (by omega)]

theorem setBitmap_run (hb : bitmap + blkSize ≤ imgSize) (hno : no < blocks) :
    setBitmap bitmap no m = .ok () (Bitmap.clear m bitmap no) := by
  have hword : bitmap + 4 * (no / 32) + 4 ≤ imgSize := by
    unfold blkSize at hb
    unfold blocks at hno
    omega
  unfold setBitmap bitLength Bitmap.clear
  rw [Act.bind_ok (load_ok hword), store_ok hword]

end Bitmaps

/-- The block that the allocator hands out next. -/
def freeNo (m : Mem) : Option Nat := Bitmap.firstFrom (blkFree m) blocks 0

section FreeNo

variable {m : Mem} {no : Nat}

theorem getFreeNo_run : getFreeNo blkBitmap m =
    .ok (match freeNo m with
      | some k => (k : Int)
      | none => -1) m := by
  have hfirst : freeNo m = Bitmap.firstFrom (Bitmap.bit m blkBitmap) blocks 0 :=
    Bitmap.firstFrom_congr fun j _ hj => by
      unfold blkFree
      rw [decide_eq_true (by omega), Bool.true_and]
  rw [hfirst]
  exact getFreeNoLoop_run (by decide) (blkSize * 8) 0 (by decide)

theorem getFreeNo_some (h : freeNo m = some no) : getFreeNo blkBitmap m = .ok (no : Int) m := by
  rw [getFreeNo_run, h]

theorem getFreeNo_none (h : freeNo m = none) : getFreeNo blkBitmap m = .ok (-1) m := by
  rw [getFreeNo_run, h]

theorem freeNo_free (h : freeNo m = some no) : blkFree m no = true :=
  (Ledger.free_of_firstFrom (s := ledger m) h).2

theorem freeNo_lt (h : freeNo m = some no) : no < blocks := by
  obtain ⟨-, hlt, -⟩ := Bitmap.firstFrom_eq_some h
  rwa [Nat.zero_add] at hlt

theorem freeNo_eq_none : freeNo m = none ↔ (ledger m).available blocks = 0 :=
  Ledger.firstFrom_eq_none (s := ledger m)

end FreeNo

/-! ## Filling a place -/

/-- The image in which the place has a number, if that can be had. -/
def filled (m : Mem) (q : Place) : Option Mem :=
  if q.val m ≠ 0 then some m else (freeNo m).map (given m (q.addr m))

section Filled

variable {m m' : Mem} {q : Place} {no : Nat}

theorem filled_of_val (h : q.val m ≠ 0) : filled m q = some m := if_pos h

theorem filled_of_free (h : q.val m = 0) (hno : freeNo m = some no) :
    filled m q = some (given m (q.addr m) no) := by
  rw [filled, if_neg (not_not.mpr h), hno]
  rfl

theorem filled_eq_none : filled m q = none ↔ q.val m = 0 ∧ freeNo m = none := by
  unfold filled
  split
  · next h => exact iff_of_false (by simp) fun he => h he.1
  · next h => rw [Option.map_eq_none_iff, and_iff_right (not_not.mp h)]

/-- Either nothing was to do, or a free block was given. -/
theorem filled_cases (h : filled m q = some m') :
    (q.val m ≠ 0 ∧ m' = m) ∨
      ∃ no, q.val m = 0 ∧ blkFree m no = true ∧ m' = given m (q.addr m) no := by
  unfold filled at h
  split at h
  · next hne => exact .inl ⟨hne, (Option.some.inj h).symm⟩
  · next hz =>
    obtain ⟨no, hno, rfl⟩ := Option.map_eq_some_iff.mp h
    exact .inr ⟨no, not_not.mp hz, freeNo_free hno, rfl⟩

namespace Sane

theorem filled (h : Sane m) (hq : q.There m) (hf : filled m q = some m') : Sane m' := by
  obtain ⟨-, rfl⟩ | ⟨no, hzero, hfree, rfl⟩ := filled_cases hf
  · exact h
  · exact h.given hq hzero hfree

/-- The place has a number then. -/
theorem filled_val (h : Sane m) (hq : q.There m) (hf : Image.filled m q = some m') :
    q.val m' ≠ 0 := by
  obtain ⟨hne, rfl⟩ | ⟨no, hzero, hfree, rfl⟩ := filled_cases hf
  · exact hne
  · rw [h.given_val hq hzero hfree, if_pos rfl]
    have hlo : 14 ≤ no := (h.sound.bounds no hfree).1
    omega

/-- No other place does. -/
theorem filled_val_of_ne (h : Sane m) (hq : q.There m) (hf : Image.filled m q = some m')
    {q' : Place} (hne : q' ≠ q) : q'.val m' = q'.val m := by
  obtain ⟨-, rfl⟩ | ⟨no, hzero, hfree, rfl⟩ := filled_cases hf
  · rfl
  · rw [h.given_val hq hzero hfree, if_neg hne]

/-- One block is used for it, if it had no number. -/
theorem filled_available (h : Sane m) (hq : q.There m) (hf : Image.filled m q = some m') :
    (ledger m').available blocks + (if q.val m = 0 then 1 else 0) =
      (ledger m).available blocks := by
  obtain ⟨hne, rfl⟩ | ⟨no, hzero, hfree, rfl⟩ := filled_cases hf
  · rw [if_neg hne, Nat.add_zero]
  · rw [if_pos hzero, h.given_ledger hq hzero hfree]
    exact h.sound.available_assign hfree

end Sane

end Filled

/-! ## A place that can be filled -/

/-- The place is in the image, and a number that it has or may get is of a block behind the first
ones. In a sane image every place that is there is such a one. -/
structure Usable (m : Mem) (q : Place) : Prop where
  there : q.There m
  addr : q.addr m + 2 ≤ blkSize * blocks
  numbers : ∀ ino k, q = .entry ino k → firstBlock ≤ indirect m ino
  bounds : ∀ no, blkFree m no = true → firstBlock ≤ no
  range : q.val m ≠ 0 → firstBlock ≤ q.val m ∧ q.val m < blocks

section Usable

variable {m : Mem} {q : Place} {no : Nat}

theorem Sane.usable (h : Sane m) (hq : q.There m) : Usable m q where
  there := hq
  addr := (h.addr_lt hq).2
  numbers ino k he := by
    subst he
    exact (h.indirect_lt ino hq).1
  bounds no hno := (h.sound.bounds no hno).1
  range := h.sound.range q

/-- It holds the number that was given to it. -/
theorem Usable.given_val (h : Usable m q) (hno : no < blocks) : q.val (given m (q.addr m) no) = no := by
  cases q with
  | slot ino i =>
    have hlo := (slot_lt ino.isLt i.isLt).1
    rw [Place.addr_slot, Place.val_slot]
    exact given_same hno (by omega)
  | entry ino k =>
    have hlo : 14 ≤ indirect m ino := h.numbers ino k rfl
    obtain ⟨-, hhi⟩ := slot_lt ino.isLt (by decide : 10 < 11)
    have haddr : 57344 ≤ Place.addr m (.entry ino k) := by
      rw [Place.addr_entry]
      unfold blkSize
      omega
    have hind : indirect (given m (Place.addr m (.entry ino k)) no) ino = indirect m ino :=
      given_rd hno (by have := (slot_lt ino.isLt (by decide : 10 < 11)).1; omega) (.inl (by omega))
    rw [Place.val_entry, hind, if_neg h.there]
    exact given_same hno (by omega)

end Usable

/-! ## The blocks of an inode -/

/-- The place for the number of block `b` of an inode. -/
def filePlace (ino : Fin inodes) (b : Nat) : Place :=
  if h : b < 10 then .slot ino ⟨b, by omega⟩
  else .entry ino ⟨(b - 10) % 2048, Nat.mod_lt _ (by decide)⟩

/-- How many blocks an inode can have. -/
def fileBlocks : Nat := 2058

/-- The number of block `b` of an inode. -/
def blockNo (m : Mem) (ino : Fin inodes) (b : Nat) : Nat := (filePlace ino b).val m

section FilePlace

variable {m m' : Mem} {ino ino' : Fin inodes} {b b' : Nat} {d : Option Nat}

theorem filePlace_slot (h : b < 10) : filePlace ino b = .slot ino ⟨b, by omega⟩ := dif_pos h

theorem filePlace_entry (h : ¬ b < 10) :
    filePlace ino b = .entry ino ⟨(b - 10) % 2048, Nat.mod_lt _ (by decide)⟩ := dif_neg h

theorem filePlace_data (ino : Fin inodes) (b : Nat) : (filePlace ino b).Data := by
  by_cases h : b < 10
  · rw [filePlace_slot h]
    exact Nat.ne_of_lt h
  · rw [filePlace_entry h]
    trivial

/-- The blocks of an inode have different places. -/
theorem filePlace_inj (hb : b < fileBlocks) (hb' : b' < fileBlocks)
    (h : filePlace ino b = filePlace ino' b') : ino = ino' ∧ b = b' := by
  unfold fileBlocks at hb hb'
  by_cases h1 : b < 10
  · by_cases h2 : b' < 10
    · rw [filePlace_slot h1, filePlace_slot h2] at h
      cases h
      exact ⟨rfl, rfl⟩
    · rw [filePlace_slot h1, filePlace_entry h2] at h
      cases h
  · by_cases h2 : b' < 10
    · rw [filePlace_entry h1, filePlace_slot h2] at h
      cases h
    · rw [filePlace_entry h1, filePlace_entry h2] at h
      injection h with hi hk
      have hmod := congrArg Fin.val hk
      exact ⟨hi, by simp only at hmod; omega⟩

/-- The place of a block is there if the block of numbers is. -/
theorem filePlace_there (h : b < 10 ∨ indirect m ino ≠ 0) : (filePlace ino b).There m := by
  by_cases hb : b < 10
  · rw [filePlace_slot hb]
    trivial
  · rw [filePlace_entry hb]
    exact h.resolve_left hb

theorem filePlace_addr (hb : ¬ b < 10) :
    (filePlace ino b).addr m = blkSize * indirect m ino + 2 * ((b - 10) % 2048) := by
  rw [filePlace_entry hb]
  rfl

theorem slot_imgSize (ino : Fin inodes) : blockSlot (inode ino) 10 + 2 ≤ imgSize := by
  obtain ⟨-, hs⟩ := slot_lt ino.isLt (by decide : 10 < 11)
  exact hs.trans (by decide)

theorem level_eq (hb : ¬ b < 10) (hlt : b < fileBlocks) : (b - 10) / 2048 + 10 = 10 := by
  unfold fileBlocks at hlt
  omega

/-- A block past the tenth, in a block of numbers that is there. -/
theorem walkBlock_numbers (hb : ¬ b < 10) (hlt : b < fileBlocks) (hne : indirect m ino ≠ 0)
    (alloc : Nat) :
    walkBlock (inode ino) b d alloc m = .ok (0, some ((filePlace ino b).addr m)) m := by
  have hload : load 2 (blockSlot (inode ino) 10) m = .ok (indirect m ino) m :=
    load_ok (slot_imgSize ino)
  rw [walkBlock, if_neg hb, if_pos (show b < 1024 * 2 + 10 from hlt)]
  simp only [level_eq hb hlt]
  rw [Act.bind_ok hload, if_neg hne, Act.bind_ok hload, filePlace_addr hb]
  rfl

/-- One of the first ten, or one whose number is looked for where it is. -/
theorem walkBlock_there (hlt : b < fileBlocks) (h : b < 10 ∨ indirect m ino ≠ 0) (alloc : Nat) :
    walkBlock (inode ino) b d alloc m = .ok (0, some ((filePlace ino b).addr m)) m := by
  by_cases hb : b < 10
  · rw [walkBlock, if_pos hb, filePlace_slot hb]
    rfl
  · exact walkBlock_numbers hb hlt (h.resolve_left hb) alloc

/-- Without a block of numbers there is nothing to hand out, if none may be allocated. -/
theorem walkBlock_missing {alloc : Nat} (hb : ¬ b < 10) (hlt : b < fileBlocks)
    (hz : indirect m ino = 0) (halloc : alloc ≠ 1) :
    walkBlock (inode ino) b d alloc m = .ok (-1, none) m := by
  have hload : load 2 (blockSlot (inode ino) 10) m = .ok (indirect m ino) m :=
    load_ok (slot_imgSize ino)
  rw [walkBlock, if_neg hb, if_pos (show b < 1024 * 2 + 10 from hlt)]
  simp only [level_eq hb hlt]
  rw [Act.bind_ok hload, if_pos hz, if_neg halloc]
  rfl

/-- No block of numbers is to be had. -/
theorem walkBlock_full (hb : ¬ b < 10) (hlt : b < fileBlocks) (hz : indirect m ino = 0)
    (hfull : freeNo m = none) :
    walkBlock (inode ino) b d 1 m = .ok (-1, d) m := by
  have hload : load 2 (blockSlot (inode ino) 10) m = .ok (indirect m ino) m :=
    load_ok (slot_imgSize ino)
  rw [walkBlock, if_neg hb, if_pos (show b < 1024 * 2 + 10 from hlt)]
  simp only [level_eq hb hlt]
  rw [Act.bind_ok hload, if_pos hz, if_pos trivial, Act.bind_ok (getFreeNo_none hfull),
    if_pos (by decide)]
  rfl

/-- A block of numbers is allocated. -/
theorem walkBlock_given {no : Nat} (hb : ¬ b < 10) (hlt : b < fileBlocks)
    (hz : indirect m ino = 0) (hno : freeNo m = some no) :
    walkBlock (inode ino) b d 1 m =
      .ok (0, some ((filePlace ino b).addr (given m (blockSlot (inode ino) 10) no)))
        (given m (blockSlot (inode ino) 10) no) := by
  have hload : ∀ m' : Mem, load 2 (blockSlot (inode ino) 10) m' = .ok (indirect m' ino) m' :=
    fun m' => load_ok (slot_imgSize ino)
  have hblk := freeNo_lt hno
  rw [walkBlock, if_neg hb, if_pos (show b < 1024 * 2 + 10 from hlt)]
  simp only [level_eq hb hlt]
  rw [Act.bind_ok (hload m), if_pos hz, if_pos trivial, Act.bind_ok (getFreeNo_some hno),
    if_neg (by omega), Int.toNat_natCast, Act.bind_ok (store_ok (slot_imgSize ino)),
    Act.bind_ok (setBitmap_run (by decide) hblk), filePlace_addr hb]
  exact Act.bind_ok (hload _)

/-- Past the last block nothing is looked up, and nothing is reported. -/
theorem walkBlock_past (p alloc : Nat) (h : fileBlocks ≤ b) :
    walkBlock p b d alloc m = .ok (0, d) m := by
  unfold fileBlocks at h
  rw [walkBlock, if_neg (by omega), if_neg (by omega)]
  rfl

/-- The image in which the place of a block is there, if that can be had. -/
def numbered (m : Mem) (ino : Fin inodes) (b : Nat) : Option Mem :=
  if b < 10 then some m else filled m (.slot ino 10)

/-- Nothing was to do, or a block of numbers was given. -/
theorem numbered_cases (h : numbered m ino b = some m') : m' = m ∨
    10 ≤ b ∧ indirect m ino = 0 ∧
      ∃ no, freeNo m = some no ∧ m' = given m (blockSlot (inode ino) 10) no := by
  unfold numbered at h
  split at h
  · cases h
    exact .inl rfl
  · next hb =>
    by_cases hz : indirect m ino = 0
    · obtain ⟨no, hno⟩ | hnone : (∃ no, freeNo m = some no) ∨ freeNo m = none := by
        cases freeNo m with
        | none => exact .inr rfl
        | some no => exact .inl ⟨no, rfl⟩
      · rw [filled_of_free (q := .slot ino 10) hz hno] at h
        cases h
        exact .inr ⟨by omega, hz, no, hno, rfl⟩
      · rw [(filled_eq_none (q := .slot ino 10)).mpr ⟨hz, hnone⟩] at h
        cases h
    · rw [filled_of_val (q := .slot ino 10) hz] at h
      cases h
      exact .inl rfl

theorem numbered_there (hm : Sane m) (h : numbered m ino b = some m') :
    (filePlace ino b).There m' := by
  unfold numbered at h
  split at h
  · next hb => exact filePlace_there (.inl hb)
  · exact filePlace_there (.inr (hm.filled_val (q := .slot ino 10) trivial h))

/-- `walk_block` with allocation: the pointer is to the place of the block, in an image where
the place is there; or no block was free and nothing has changed. -/
theorem walkBlock_alloc (hlt : b < fileBlocks) :
    walkBlock (inode ino) b d 1 m =
      match numbered m ino b with
      | none => .ok (-1, d) m
      | some m' => .ok (0, some ((filePlace ino b).addr m')) m' := by
  by_cases hb : b < 10
  · rw [numbered, if_pos hb]
    exact walkBlock_there hlt (.inl hb) 1
  · rw [numbered, if_neg hb]
    by_cases hz : indirect m ino = 0
    · cases hno : freeNo m with
      | none =>
        rw [(filled_eq_none (q := .slot ino 10)).mpr ⟨hz, hno⟩, walkBlock_full hb hlt hz hno]
      | some no =>
        rw [filled_of_free (q := .slot ino 10) hz hno]
        exact walkBlock_given hb hlt hz hno
    · rw [filled_of_val (q := .slot ino 10) hz]
      exact walkBlock_numbers hb hlt hz 1

end FilePlace

end Myos.Image
