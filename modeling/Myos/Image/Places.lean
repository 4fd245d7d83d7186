import Myos.Image.Mkxxx
import Myos.Lib.Ledger

/-!
# Where block numbers are kept

A block number of the image is in one of the first eleven slots of an inode, or in
the block of numbers that the eleventh points at. With the block bitmap these places
are a ledger. `Sane` says that the ledger is sound and that a block which is free is
all nought; a write that stores a free number in an empty place and marks it used
keeps an image sane, and so does a write beside the places (`Beside`), to a block
that holds data among others.
-/

namespace Myos.Image

open Myos.Lib
open Myos.Kernel (blkSize inodeSize blockOff blockSlot diSizeOff)

/-- How many inodes there are in the table. -/
def inodes : Nat := 1280

theorem inodes_eq : inodes = inoSize / inodeSize := by decide

/-- How many blocks there are in the bitmap. -/
def blocks : Nat := 32768

theorem blocks_eq : blocks = blkSize * 8 := rfl

/-- The blocks before this one are not handed out. -/
def firstBlock : Nat := 14

/-- A place for a block number. -/
inductive Place where
  | slot (ino : Fin inodes) (i : Fin 11)
  | entry (ino : Fin inodes) (k : Fin 2048)
  deriving DecidableEq

/-- The number of the block of numbers of an inode. -/
def indirect (m : Mem) (ino : Nat) : Nat := Mem.rd 2 m (blockSlot (inode ino) 10)

/-- The address of a place. -/
def Place.addr (m : Mem) : Place → Nat
  | slot ino i => blockSlot (inode ino) i
  | entry ino k => blkSize * indirect m ino + 2 * k

/-- Whether the image has the place: an entry is in the block of numbers. -/
def Place.There (m : Mem) : Place → Prop
  | slot _ _ => True
  | entry ino _ => indirect m ino ≠ 0

/-- The number in a place, nought if there is none. -/
def Place.val (m : Mem) : Place → Nat
  | slot ino i => Mem.rd 2 m (blockSlot (inode ino) i)
  | entry ino k =>
    if indirect m ino = 0 then 0 else Mem.rd 2 m (blkSize * indirect m ino + 2 * k)

/-- Whether a block is free. -/
def blkFree (m : Mem) (no : Nat) : Bool := decide (no < blocks) && Bitmap.bit m blkBitmap no

/-- The places of the image, and the bitmap. -/
def ledger (m : Mem) : Ledger Place := ⟨Place.val m, blkFree m⟩

/-- No number is held twice, every number held is of a block in use, and a block that is
free is all nought. -/
structure Sane (m : Mem) : Prop where
  sound : (ledger m).Sound firstBlock blocks
  clean : ∀ no, blkFree m no = true → ∀ x, x / blkSize = no → m x = 0

section Addresses

variable {m m' : Mem} {ino i no a : Nat} {q q' : Place}

theorem blockSlot_eq (ino i : Nat) : blockSlot (inode ino) i = 16394 + 32 * ino + 2 * i := by
  unfold blockSlot inode inoTable inodeSize blockOff blkSize
  omega

@[simp] theorem Place.addr_slot (ino : Fin inodes) (i : Fin 11) :
    Place.addr m (.slot ino i) = blockSlot (inode ino) i := rfl

@[simp] theorem Place.addr_entry (ino : Fin inodes) (k : Fin 2048) :
    Place.addr m (.entry ino k) = blkSize * indirect m ino + 2 * k := rfl

theorem Place.there_entry (ino : Fin inodes) (k : Fin 2048) :
    Place.There m (.entry ino k) ↔ indirect m ino ≠ 0 := Iff.rfl

theorem Place.val_slot (ino : Fin inodes) (i : Fin 11) :
    Place.val m (.slot ino i) = Mem.rd 2 m (blockSlot (inode ino) i) := rfl

theorem Place.val_entry (ino : Fin inodes) (k : Fin 2048) : Place.val m (.entry ino k) =
    if indirect m ino = 0 then 0 else Mem.rd 2 m (blkSize * indirect m ino + 2 * k) := rfl

theorem Place.val_of_there (h : q.There m) : q.val m = Mem.rd 2 m (q.addr m) := by
  cases q with
  | slot ino i => rfl
  | entry ino k => exact if_neg h

theorem Place.there_of_val (h : q.val m ≠ 0) : q.There m := by
  cases q with
  | slot ino i => trivial
  | entry ino k => exact fun hz => h (if_pos hz)

/-- A slot is in the inode table. -/
theorem slot_lt (hino : ino < inodes) (hi : i < 11) :
    16384 ≤ blockSlot (inode ino) i ∧ blockSlot (inode ino) i + 2 ≤ 57344 := by
  rw [blockSlot_eq]
  unfold inodes at hino
  omega

theorem indirect_eq (ino : Fin inodes) : indirect m ino = Place.val m (.slot ino 10) := rfl

namespace Sane

/-- The block of numbers of an inode is none of the first blocks. -/
theorem indirect_lt (h : Sane m) (ino : Fin inodes) (hne : indirect m ino ≠ 0) :
    firstBlock ≤ indirect m ino ∧ indirect m ino < blocks :=
  h.sound.range (.slot ino 10) hne

/-- A place is in the inode table, or behind it. -/
theorem addr_lt (h : Sane m) (hq : q.There m) :
    16384 ≤ q.addr m ∧ q.addr m + 2 ≤ blkSize * blocks := by
  cases q with
  | slot ino i =>
    obtain ⟨h1, h2⟩ := slot_lt ino.isLt i.isLt
    exact ⟨h1, h2.trans (by decide)⟩
  | entry ino k =>
    obtain ⟨h1, h2⟩ := h.indirect_lt ino hq
    have hk := k.isLt
    unfold firstBlock at h1
    unfold blocks at h2
    rw [Place.addr_entry]
    unfold blkSize blocks
    omega

/-- Two places of an image do not meet. -/
theorem apart (h : Sane m) (hq : q.There m) (hq' : q'.There m) (hne : q ≠ q') :
    q.addr m + 2 ≤ q'.addr m ∨ q'.addr m + 2 ≤ q.addr m := by
  cases q with
  | slot ino i =>
    obtain ⟨-, hs⟩ := slot_lt ino.isLt i.isLt
    cases q' with
    | slot ino' i' =>
      have hi := i.isLt
      have hi' := i'.isLt
      have hdiff : ino.val ≠ ino'.val ∨ i.val ≠ i'.val := by
        by_contra hall
        obtain ⟨h1, h2⟩ := not_or.mp hall
        exact hne (by rw [Fin.ext (not_not.mp h1), Fin.ext (not_not.mp h2)])
      rw [Place.addr_slot, Place.addr_slot, blockSlot_eq, blockSlot_eq]
      omega
    | entry ino' k =>
      obtain ⟨h1, -⟩ := h.indirect_lt ino' hq'
      refine .inl (hs.trans ?_)
      rw [Place.addr_entry]
      unfold firstBlock at h1
      unfold blkSize
      omega
  | entry ino k =>
    obtain ⟨h1, -⟩ := h.indirect_lt ino hq
    cases q' with
    | slot ino' i' =>
      obtain ⟨-, hs⟩ := slot_lt ino'.isLt i'.isLt
      refine .inr (hs.trans ?_)
      rw [Place.addr_entry]
      unfold firstBlock at h1
      unfold blkSize
      omega
    | entry ino' k' =>
      have hk := k.isLt
      have hk' := k'.isLt
      have hdiff : indirect m ino ≠ indirect m ino' ∨ k.val ≠ k'.val := by
        by_contra hall
        obtain ⟨h2, h3⟩ := not_or.mp hall
        have hslot := h.sound.inj (.slot ino 10) (.slot ino' 10) hq (not_not.mp h2)
        cases hslot
        exact hne (by rw [Fin.ext (not_not.mp h3)])
      rw [Place.addr_entry, Place.addr_entry]
      unfold blkSize
      omega

end Sane

end Addresses

/-! ## A number goes to a place -/

/-- The number is stored, and marked used. -/
def given (m : Mem) (a no : Nat) : Mem := Bitmap.clear (Mem.wr 2 m a no) blkBitmap no

section Given

variable {m m' : Mem} {no a b n x : Nat} {q : Place}

theorem clear_out (hno : no < blocks) (hx : x / blkSize ≠ 2) :
    Bitmap.clear m blkBitmap no x = m x := by
  refine Bitmap.clear_out ?_
  unfold blkBitmap
  unfold blocks at hno
  unfold blkSize at *
  omega

theorem given_out (hno : no < blocks) (hx : x / blkSize ≠ 2) (ha : x < a ∨ a + 2 ≤ x) :
    given m a no x = m x := (clear_out hno hx).trans (Mem.wr_out ha)

/-- A word apart from the place and the bitmap. -/
theorem given_rd (hno : no < blocks) (hb : 12288 ≤ b) (ha : b + n ≤ a ∨ a + 2 ≤ b) :
    Mem.rd n (given m a no) b = Mem.rd n m b := by
  refine Mem.rd_congr fun x h1 h2 => given_out hno ?_ (by omega)
  unfold blkSize
  omega

theorem given_same (hno : no < blocks) (ha : 12288 ≤ a) : Mem.rd 2 (given m a no) a = no := by
  have hsame : Mem.rd 2 (given m a no) a = Mem.rd 2 (Mem.wr 2 m a no) a :=
    Mem.rd_congr fun x h1 h2 => clear_out hno (by unfold blkSize; omega)
  rw [hsame, Mem.rd_wr_same]
  exact Nat.mod_eq_of_lt (by unfold blocks at hno; omega)

theorem given_blkFree (ha : 12288 ≤ a) (k : Nat) :
    blkFree (given m a no) k = (blkFree m k && decide (k ≠ no)) := by
  unfold blkFree given
  rw [Bitmap.bit_clear, ← Bool.and_assoc]
  congr 1
  by_cases hk : k < blocks
  · congr 1
    refine Bitmap.bit_congr (n := 4096) (by unfold blocks at hk; omega) fun x h1 h2 => ?_
    exact Mem.wr_out (by unfold blkBitmap blkSize at h2; omega)
  · rw [decide_eq_false hk, Bool.false_and, Bool.false_and]

end Given

namespace Sane

variable {m m' : Mem} {no : Nat} {q q' : Place}

/-- The places, once a free number has gone to an empty one. -/
theorem given_val (h : Sane m) (hq : q.There m) (hzero : q.val m = 0) (hno : blkFree m no = true)
    (q' : Place) :
    q'.val (given m (q.addr m) no) = if q' = q then no else q'.val m := by
  obtain ⟨hlo, hlt⟩ := h.sound.bounds no hno
  obtain ⟨ha, -⟩ := h.addr_lt hq
  have ha' : 12288 ≤ q.addr m := by omega
  -- a slot is where it was, and holds what it did
  have hslot : ∀ (j : Fin inodes) (i : Fin 11), q ≠ .slot j i →
      Mem.rd 2 (given m (q.addr m) no) (blockSlot (inode j) i) =
        Mem.rd 2 m (blockSlot (inode j) i) := fun j i hne => by
    refine given_rd hlt (by have := (slot_lt j.isLt i.isLt).1; omega) ?_
    exact (@Sane.apart _ _ (.slot j i) h hq trivial hne).symm
  by_cases hqq : q' = q
  · rw [if_pos hqq, hqq]
    cases q with
    | slot j i => exact given_same hlt ha'
    | entry j k =>
      have hind : indirect (given m (Place.addr m (.entry j k)) no) j = indirect m j :=
        hslot j 10 (by simp)
      rw [Place.val_entry, hind, if_neg hq]
      exact given_same hlt ha'
  · rw [if_neg hqq]
    cases q' with
    | slot j i => exact hslot j i fun he => hqq he.symm
    | entry j k =>
      by_cases hten : q = .slot j 10
      · -- a block of numbers that is new is all nought
        subst hten
        have hind : indirect (given m (Place.addr m (.slot j 10)) no) j = no := given_same hlt ha'
        have hold : indirect m j = 0 := hzero
        have hk := k.isLt
        obtain ⟨-, hs⟩ := slot_lt j.isLt (by decide : 10 < 11)
        unfold firstBlock at hlo
        rw [Place.val_entry, Place.val_entry, hind, hold, if_pos rfl, if_neg (by omega)]
        refine Mem.rd_zero fun x h1 h2 => ?_
        have hx : x / blkSize = no := by unfold blkSize at *; omega
        refine (given_out hlt (by omega) (.inr ?_)).trans (h.clean no hno x hx)
        exact hs.trans (by unfold blkSize at h1; omega)
      · have hind : indirect (given m (q.addr m) no) j = indirect m j := hslot j 10 hten
        rw [Place.val_entry, Place.val_entry, hind]
        split
        · rfl
        · next hne =>
          obtain ⟨hj, -⟩ := h.indirect_lt j hne
          refine given_rd hlt (by unfold firstBlock at hj; unfold blkSize; omega) ?_
          exact (@Sane.apart _ _ (.entry j k) h hq hne fun he => hqq he.symm).symm

/-- It is an assignment of the ledger. -/
theorem given_ledger (h : Sane m) (hq : q.There m) (hzero : q.val m = 0)
    (hno : blkFree m no = true) :
    ledger (given m (q.addr m) no) = (ledger m).assign q no := by
  unfold ledger Ledger.assign
  congr 1
  · funext q'
    rw [h.given_val hq hzero hno, Function.update_apply]
  · funext k
    exact given_blkFree (by have := (h.addr_lt hq).1; omega) k

/-- Which keeps the image sane. -/
theorem given (h : Sane m) (hq : q.There m) (hzero : q.val m = 0) (hno : blkFree m no = true) :
    Sane (given m (q.addr m) no) where
  sound := by
    rw [h.given_ledger hq hzero hno]
    exact h.sound.assign hno
  clean k hk x hx := by
    obtain ⟨ha, -⟩ := h.addr_lt hq
    rw [given_blkFree (by omega), Bool.and_eq_true] at hk
    obtain ⟨hfree, -⟩ := hk
    obtain ⟨hlo, -⟩ := h.sound.bounds k hfree
    obtain ⟨-, hlt⟩ := h.sound.bounds no hno
    unfold firstBlock at hlo
    refine (given_out hlt (by omega) ?_).trans (h.clean k hfree x hx)
    cases q with
    | slot j i =>
      obtain ⟨-, hs⟩ := slot_lt j.isLt i.isLt
      exact .inr (hs.trans (by unfold blkSize at hx; omega))
    | entry j i =>
      -- the block of numbers is in use
      have hused : blkFree m (indirect m j) = false := h.sound.used (.slot j 10) hq
      have hne : x / blkSize ≠ indirect m j := fun he => by
        rw [← he, hx, hfree] at hused
        cases hused
      have hi := i.isLt
      rw [Place.addr_entry]
      unfold blkSize at *
      omega

end Sane

/-! ## A write beside the places -/

/-- What the ledger is about is left alone, and so are the free blocks. -/
structure Beside (m m' : Mem) : Prop where
  bitmap : ∀ x, x / blkSize = 2 → m' x = m x
  slots : ∀ ino i, ino < inodes → i < 11 →
    Mem.rd 2 m' (blockSlot (inode ino) i) = Mem.rd 2 m (blockSlot (inode ino) i)
  numbers : ∀ ino, ino < inodes → indirect m ino ≠ 0 → ∀ x, x / blkSize = indirect m ino →
    m' x = m x
  free : ∀ no, blkFree m no = true → ∀ x, x / blkSize = no → m' x = m x

section Beside

variable {m m' m'' : Mem} {no a n x : Nat} {f : Mem}

/-- The bitmap is in a block of its own. -/
theorem blkFree_congr (h : ∀ x, x / blkSize = 2 → m' x = m x) (no : Nat) :
    Image.blkFree m' no = Image.blkFree m no := by
  unfold Image.blkFree
  by_cases hk : no < blocks
  · congr 1
    refine Bitmap.bit_congr (n := 4096) (by unfold blocks at hk; omega) fun x h1 h2 => ?_
    exact h x (by unfold blkBitmap blkSize at h1 h2; unfold blkSize; omega)
  · rw [decide_eq_false hk, Bool.false_and, Bool.false_and]

namespace Beside

theorem blkFree (h : Beside m m') (no : Nat) : blkFree m' no = blkFree m no :=
  blkFree_congr h.bitmap no

theorem indirect (h : Beside m m') {ino : Nat} (hino : ino < inodes) :
    indirect m' ino = indirect m ino := h.slots ino 10 hino (by decide)

theorem val (h : Beside m m') (q : Place) : q.val m' = q.val m := by
  cases q with
  | slot ino i => exact h.slots ino i ino.isLt i.isLt
  | entry ino k =>
    rw [Place.val_entry, Place.val_entry, h.indirect ino.isLt]
    split
    · rfl
    · next hne =>
      have hk := k.isLt
      exact Mem.rd_congr fun x h1 h2 =>
        h.numbers ino ino.isLt hne x (by unfold blkSize at *; omega)

theorem addr (h : Beside m m') (q : Place) : q.addr m' = q.addr m := by
  cases q with
  | slot ino i => rfl
  | entry ino k =>
    rw [Place.addr_entry, Place.addr_entry, h.indirect ino.isLt]

theorem there (h : Beside m m') (q : Place) : q.There m' ↔ q.There m := by
  cases q with
  | slot ino i => exact Iff.rfl
  | entry ino k =>
    rw [Place.there_entry, Place.there_entry, h.indirect ino.isLt]

theorem ledger (h : Beside m m') : ledger m' = ledger m := by
  unfold Image.ledger
  congr 1
  · exact funext h.val
  · exact funext h.blkFree

theorem refl (m : Mem) : Beside m m where
  bitmap _ _ := rfl
  slots _ _ _ _ := rfl
  numbers _ _ _ _ _ := rfl
  free _ _ _ _ := rfl

theorem trans (h : Beside m m') (h' : Beside m' m'') : Beside m m'' where
  bitmap x hx := (h'.bitmap x hx).trans (h.bitmap x hx)
  slots ino i h1 h2 := (h'.slots ino i h1 h2).trans (h.slots ino i h1 h2)
  numbers ino hino hne x hx := by
    rw [← h.indirect hino] at hne hx
    exact (h'.numbers ino hino hne x hx).trans (h.numbers ino hino (h.indirect hino ▸ hne) x
      (h.indirect hino ▸ hx))
  free no hno x hx := (h'.free no (by rw [h.blkFree, hno]) x hx).trans (h.free no hno x hx)

end Beside

theorem Sane.beside (h : Sane m) (hb : Beside m m') : Sane m' where
  sound := by rw [hb.ledger]; exact h.sound
  clean no hno x hx := by
    rw [hb.blkFree] at hno
    exact (hb.free no hno x hx).trans (h.clean no hno x hx)

/-- Bytes before the first block that is handed out, but for the bitmap and the slots. -/
theorem Sane.beside_head (h : Sane m)
    (hout : ∀ x, x / blkSize = 2 ∨ 57344 ≤ x ∨ 16384 ≤ x ∧ 10 ≤ x % 32 → m' x = m x) :
    Beside m m' where
  bitmap x hx := hout x (.inl hx)
  slots ino i hino hi := by
    have hb := slot_lt hino hi
    rw [blockSlot_eq] at hb ⊢
    exact Mem.rd_congr fun x h1 h2 => hout x (.inr (.inr (by omega)))
  numbers ino hino hne x hx := by
    have h1 : 14 ≤ indirect m ino := (h.indirect_lt ⟨ino, hino⟩ hne).1
    exact hout x (.inr (.inl (by unfold blkSize at *; omega)))
  free no hno x hx := by
    obtain ⟨h1, -⟩ := h.sound.bounds no hno
    unfold firstBlock at h1
    exact hout x (.inr (.inl (by unfold blkSize at *; omega)))

/-- A place whose number is that of a block of data. -/
def Place.Data : Place → Prop
  | .slot _ i => i.val ≠ 10
  | .entry _ _ => True

/-- Bytes of a block of data. -/
theorem Sane.beside_data (h : Sane m) {q : Place} (hq : q.Data) (hne : q.val m ≠ 0)
    (hout : ∀ x, x / blkSize ≠ q.val m → m' x = m x) : Beside m m' := by
  obtain ⟨hlo, hlt⟩ := h.sound.range q hne
  have hlo' : 14 ≤ q.val m := hlo
  refine ⟨fun x hx => hout x (by omega), fun ino i hino hi => ?_, fun ino hino hind x hx => ?_,
    fun no hno x hx => ?_⟩
  · obtain ⟨h1, h2⟩ := slot_lt hino hi
    exact Mem.rd_congr fun x h3 h4 => hout x (by unfold blkSize; omega)
  · refine hout x fun he => ?_
    have heq : Place.val m (.slot ⟨ino, hino⟩ 10) = q.val m := hx.symm.trans he
    rw [← h.sound.inj (.slot ⟨ino, hino⟩ 10) q hind heq] at hq
    exact hq rfl
  · refine hout x fun he => ?_
    have hused : Image.blkFree m (q.val m) = false := h.sound.used q hne
    rw [← he, hx, hno] at hused
    cases hused

end Beside

end Myos.Image
