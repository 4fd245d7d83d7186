import Myos.Image.WriteFile
import Myos.Image.Format
import Myos.Kernel.SlotMap
import Myos.Kernel.BlockMap

/-!
# The slots of an inode in the image

`walk_block` of the image builder is the kernel's but for the block of numbers, which it
finds in the mapped image and does not copy. `write_file` looks at what it returns. So it
does what it is for at the blocks that have a slot, and only there (`mapRight_iff`).
-/

namespace Myos.Image

open Myos.Lib
open Myos.Kernel (FileSt Fs Mounted Slot slotOf slotOf_direct slotOf_entry Slotted blkSize blockSlot
  inodesInTable sampleVolume sampleVolume_mounted sampleOpen)

/-- Where a slot of the inode is. -/
def SlotAt (ino : Fin inodes) : Slot → Mem → Nat → Prop
  | .direct i, _, ptr => ptr = blockSlot (inode ino) i
  | .entry k, m, ptr => ptr = blkSize * indirect m ino + 2 * k

/-- What `walk_block` is for, at one block of an inode, with the pointer `d` to begin with. -/
structure MapRight (m : Mem) (ino : Fin inodes) (fileno : Nat) (d : Option Nat) : Prop where
  walked : ∀ alloc, Slotted (SlotAt ino) fileno (walkBlock (inode ino) fileno d alloc m)
  distinct : ∀ fileno' < 2058, fileno' ≠ fileno → ∀ alloc alloc' d' ptr ptr' m₁ m₂,
    walkBlock (inode ino) fileno d alloc m = .ok (0, some ptr) m₁ →
    walkBlock (inode ino) fileno' d' alloc' m = .ok (0, some ptr') m₂ →
      ptr + 2 ≤ ptr' ∨ ptr' + 2 ≤ ptr
  /-- A turn of `write_file`. -/
  writes : ∀ (buf : List UInt8) (offset t i pos : Nat) r d' m₁, i < buf.length + offset →
    fileSize m ino / blkSize = fileno →
    walkBlock (inode ino) fileno d 1 m = .ok (r, d') m₁ → r < 0 →
    (writeLoop (inode ino) buf offset (t + 1) i pos d m).state = m₁

/-- The block of numbers that `walk_block` comes to. -/
def numbersOf (m : Mem) (ino : Fin inodes) : Option Nat :=
  if indirect m ino = 0 then freeNo m else some (indirect m ino)

section Walk

variable {m m' m₁ m₂ : Mem} {ino : Fin inodes} {b : Nat} {d : Option Nat}

/-- What happens at a block of the indirect part. -/
inductive EntryWalk (m : Mem) (ino : Fin inodes) (b : Nat) : Res Mem (Int × Option Nat) → Prop
  | there {no : Nat} {m' : Mem} : numbersOf m ino = some no → indirect m' ino = no →
      EntryWalk m ino b (.ok (0, some (blkSize * no + 2 * (b - 10))) m')
  | refused {d : Option Nat} : EntryWalk m ino b (.ok (-1, d) m)

theorem entryWalk (hm : Sane m) (hb : ¬ b < 10) (hlt : b < fileBlocks) (d : Option Nat)
    (alloc : Nat) : EntryWalk m ino b (walkBlock (inode ino) b d alloc m) := by
  have hmod : (b - 10) % 2048 = b - 10 := by
    unfold fileBlocks at hlt
    omega
  by_cases hz : indirect m ino = 0
  · by_cases halloc : alloc = 1
    · subst halloc
      cases hno : freeNo m with
      | none =>
        rw [walkBlock_full hb hlt hz hno]
        exact .refused
      | some no =>
        have hblk := (hm.sound.bounds no (freeNo_free hno)).2
        have hgiven : indirect (given m (blockSlot (inode ino) 10) no) ino = no :=
          given_same hblk (by rw [blockSlot_eq]; omega)
        rw [walkBlock_given hb hlt hz hno, filePlace_addr hb, hmod, hgiven]
        exact .there (by rw [numbersOf, if_pos hz, hno]) hgiven
    · rw [walkBlock_missing hb hlt hz halloc]
      exact .refused
  · rw [walkBlock_numbers hb hlt hz, filePlace_addr hb, hmod]
    exact .there (by rw [numbersOf, if_neg hz]) rfl

/-- Blocks of numbers lie behind the table. -/
theorem numbersOf_ge {no : Nat} (hm : Sane m) (h : numbersOf m ino = some no) : 14 ≤ no := by
  unfold numbersOf at h
  split at h
  · exact (hm.sound.bounds no (freeNo_free h)).1
  · next hne =>
    cases h
    exact (hm.sound.range (.slot ino 10) hne).1

/-- The place that is handed out for a block: in the inode, or in the block of numbers. -/
theorem place (hm : Sane m) (hb : b < fileBlocks) {alloc ptr : Nat}
    (hwalk : walkBlock (inode ino) b d alloc m = .ok (0, some ptr) m') :
    b < 10 ∧ ptr = blockSlot (inode ino) b ∨
      10 ≤ b ∧ ∃ no, numbersOf m ino = some no ∧ ptr = blkSize * no + 2 * (b - 10) := by
  by_cases hlow : b < 10
  · rw [walkBlock, if_pos hlow] at hwalk
    cases hwalk
    exact .inl ⟨hlow, rfl⟩
  · have hentry : EntryWalk m ino b (walkBlock (inode ino) b d alloc m) :=
      entryWalk hm hlow hb d alloc
    rw [hwalk] at hentry
    cases hentry with
    | there hno _ => exact .inr ⟨Nat.not_lt.mp hlow, _, hno, rfl⟩

/-- Two blocks of an inode have places that do not meet. -/
theorem places_apart (hm : Sane m) {b' alloc alloc' ptr ptr' : Nat} {d' : Option Nat}
    (hb : b < fileBlocks) (hb' : b' < fileBlocks) (hbb : b' ≠ b)
    (hwalk : walkBlock (inode ino) b d alloc m = .ok (0, some ptr) m₁)
    (hwalk' : walkBlock (inode ino) b' d' alloc' m = .ok (0, some ptr') m₂) :
    ptr + 2 ≤ ptr' ∨ ptr' + 2 ≤ ptr := by
  have htable : ∀ k < 10, blockSlot (inode ino) k + 2 ≤ blkSize * 14 := fun k _ => by
    have hino := ino.isLt
    unfold inodes at hino
    rw [blockSlot_eq]
    unfold blkSize
    omega
  rcases place hm hb hwalk with ⟨hlow, rfl⟩ | ⟨hge, no, hno, rfl⟩
  · rcases place hm hb' hwalk' with ⟨hlow', rfl⟩ | ⟨hge', no', hno', rfl⟩
    · unfold blockSlot
      omega
    · have hbehind := Nat.mul_le_mul_left blkSize (numbersOf_ge hm hno')
      have hinside := htable b hlow
      omega
  · rcases place hm hb' hwalk' with ⟨hlow', rfl⟩ | ⟨hge', no', hno', rfl⟩
    · have hbehind := Nat.mul_le_mul_left blkSize (numbersOf_ge hm hno)
      have hinside := htable b' hlow'
      omega
    · rw [hno] at hno'
      cases hno'
      omega

/-- IMAGE: `walk_block` and its caller do what they are for at a block just if it has a slot. -/
theorem mapRight_iff (hm : Sane m) : MapRight m ino b d ↔ b < 2058 := by
  constructor
  · intro hright
    by_contra hge
    have hwalked := hright.walked 0
    rw [walkBlock_past _ 0 (Nat.not_lt.mp hge)] at hwalked
    exact hge hwalked.lt
  · intro hb
    refine ⟨fun alloc => ?_, fun b' hb' hbb alloc alloc' d' ptr ptr' m₁ m₂ hwalk hwalk' =>
        places_apart hm hb hb' hbb hwalk hwalk',
      fun buf offset t i pos r d' m₁ hlt hfileno hwalk hr => ?_⟩
    · by_cases hlow : b < 10
      · rw [walkBlock, if_pos hlow]
        exact .slot (slotOf_direct hlow) rfl
      · have hentry : EntryWalk m ino b (walkBlock (inode ino) b d alloc m) :=
          entryWalk hm hlow hb d alloc
        cases hwalk : walkBlock (inode ino) b d alloc m with
        | fault m' =>
          rw [hwalk] at hentry
          cases hentry
        | ok o m' =>
          rw [hwalk] at hentry
          cases hentry with
          | there hno hind => exact .slot (slotOf_entry hlow hb) (by rw [SlotAt, hind])
          | refused => exact .refused (by decide)
    · rw [writeLoop, if_pos hlt]
      simp only []
      rw [Act.bind_ok load_size, hfileno, Act.bind_ok hwalk]
      simp only []
      rw [if_pos hr]
      rfl

/-- MAP: at a block, `walk_block` of the kernel and its callers do what they are for just if the block
has a slot and no pointer they follow leads anywhere, and those of the image builder just if it
has a slot. -/
theorem walk_block_maps {s : FileSt} {ft fb i : Nat} {l : List Nat} (h : Mounted s.fs ft fb l)
    (hp : s.file.inode = s.fs.inode i) (hi : i < inodesInTable) (hne : l ≠ []) (hm : Sane m)
    (fileno : Nat) (d d' : Option Nat) :
    (s.MapRight fileno d ↔ fileno < 2058 ∧ s.PointersSafe fileno d) ∧
      (MapRight m ino fileno d' ↔ fileno < 2058) :=
  ⟨FileSt.mapRight_iff h hp hi hne, mapRight_iff hm⟩

end Walk

/-- The first block of a file of a mounted volume, and of a file of a formatted image. -/
theorem walk_block_maps_first : FileSt.MapRight ⟨sampleVolume, sampleOpen 0⟩ 0 none ∧
    MapRight (formatted blank) root 0 none := by
  obtain ⟨s, hs⟩ : ∃ s : FileSt, s = ⟨sampleVolume, sampleOpen 0⟩ := ⟨_, rfl⟩
  have hmounted : Mounted s.fs 1 2 [8, 9, 10, 11, 12, 13, 14, 15] := by
    rw [hs]
    exact sampleVolume_mounted
  have hinode : s.file.inode = s.fs.inode 0 := by rw [hs, sampleOpen]
  have hsafe : s.PointersSafe 0 none := fun hten => absurd hten (by decide)
  rw [← hs]
  have hboth : (s.MapRight 0 none ↔ 0 < 2058 ∧ s.PointersSafe 0 none) ∧
      (MapRight (formatted blank) root 0 none ↔ 0 < 2058) :=
    walk_block_maps hmounted hinode (by decide) (List.cons_ne_nil _ _) blank_sane 0 none none
  obtain ⟨hkernel, himage⟩ := hboth
  exact ⟨hkernel.mpr ⟨by decide, hsafe⟩, himage.mpr (by decide)⟩

/-- For the 2059th block `walk_block` returns nought. -/
theorem walk_block_behind : ¬ ∀ (m : Mem) (ino : Fin inodes) (fileno : Nat) (d : Option Nat), Sane m →
    MapRight m ino fileno d := by
  intro h
  have hlt := (mapRight_iff blank_sane).mp (h (formatted blank) root fileBlocks none blank_sane)
  exact Nat.lt_irrefl fileBlocks hlt

end Myos.Image
