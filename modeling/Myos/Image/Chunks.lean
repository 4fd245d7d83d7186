import Myos.Image.WriteFile

/-!
# What a file is stored as

Room for the next block of a file is a number for it and, at the eleventh block, a block
of numbers (`roomFor`). A turn of `write_file` makes room and puts the bytes there, so
that after any number of reads of whole blocks the inode holds what was read
(`Written`). A file is stored by `write_file` just if all its reads but the last are of
whole blocks and there are as many free blocks as it needs (`write_file_chunks`).
-/

namespace Myos.Image

open Myos.Lib
open Myos.Kernel (blkSize inodeSize blockOff blockSlot diSizeOff)

/-- How many blocks are free. -/
def freeBlocks (m : Mem) : Nat := (ledger m).available blocks

section Filled

variable {m m' : Mem} {q q' : Place} {x : Nat}

/-- A number that goes to a place changes the place and the bitmap. -/
theorem filled_out (hm : Sane m) (hf : filled m q = some m') (h2 : x / blkSize ≠ 2)
    (hx : x < q.addr m ∨ q.addr m + 2 ≤ x) : m' x = m x := by
  obtain ⟨-, rfl⟩ | ⟨no, -, hfree, rfl⟩ := filled_cases hf
  · rfl
  · exact given_out (hm.sound.bounds no hfree).2 h2 hx

/-- The sizes are left alone. -/
theorem filled_size (hm : Sane m) (hq : q.There m) (hf : filled m q = some m') (j : Fin inodes) :
    fileSize m' j = fileSize m j := by
  have hj := j.isLt
  unfold inodes at hj
  refine fileSize_congr fun x h1 h2 => filled_out hm hf ?_ ?_
  · rw [inode_eq] at h1
    unfold blkSize
    omega
  · rw [inode_eq] at h1 h2
    cases q with
    | slot i k =>
      rw [Place.addr_slot, blockSlot_eq]
      omega
    | entry i k =>
      have hlo : 14 ≤ indirect m i := (hm.indirect_lt i hq).1
      rw [Place.addr_entry]
      unfold blkSize
      omega

/-- And so are the blocks of data. -/
theorem filled_data (hm : Sane m) (hq : q.There m) (hf : filled m q = some m') (hdata : q'.Data)
    (hne : q'.val m ≠ 0) (hx : x / blkSize = q'.val m) : m' x = m x := by
  have hlo : 14 ≤ q'.val m := (hm.sound.range q' hne).1
  refine filled_out hm hf (by omega) ?_
  cases q with
  | slot i k =>
    obtain ⟨-, hs⟩ := slot_lt i.isLt k.isLt
    rw [Place.addr_slot]
    unfold blkSize at hx
    omega
  | entry i k =>
    have hk := k.isLt
    have hblk : x / blkSize ≠ indirect m i := fun he => by
      have heq : Place.val m (.slot i 10) = q'.val m := he.symm.trans hx
      rw [← hm.sound.inj (.slot i 10) q' hq heq] at hdata
      exact hdata rfl
    rw [Place.addr_entry]
    unfold blkSize at *
    omega

/-- A block that was just given is all nought. -/
theorem filled_clean (hm : Sane m) (hq : q.There m) (hf : filled m q = some m')
    (hzero : q.val m = 0) (hx : x / blkSize = q.val m') : m' x = 0 := by
  obtain ⟨hne, rfl⟩ | ⟨no, -, hfree, rfl⟩ := filled_cases hf
  · exact absurd hzero hne
  · rw [hm.given_val hq hzero hfree, if_pos rfl] at hx
    obtain ⟨hlo, hlt⟩ := hm.sound.bounds no hfree
    have hlo' : 14 ≤ no := hlo
    refine (given_out hlt (by omega) ?_).trans (hm.clean no hfree x hx)
    cases q with
    | slot i k =>
      obtain ⟨-, hs⟩ := slot_lt i.isLt k.isLt
      rw [Place.addr_slot]
      unfold blkSize at hx
      omega
    | entry i k =>
      have hk := k.isLt
      have hused : blkFree m (indirect m i) = false := hm.sound.used (.slot i 10) hq
      have hblk : x / blkSize ≠ indirect m i := fun he => by
        rw [← he, hx, hfree] at hused
        cases hused
      rw [Place.addr_entry]
      unfold blkSize at *
      omega

end Filled

/-! ## Room for a block -/

/-- The image in which block `b` of a file has a number, if that can be had. -/
def roomFor (m : Mem) (ino : Fin inodes) (b : Nat) : Option Mem :=
  (numbered m ino b).bind fun m' => filled m' (filePlace ino b)

/-- How many blocks that takes. -/
def need (m : Mem) (ino : Fin inodes) (b : Nat) : Nat :=
  (if 10 ≤ b ∧ indirect m ino = 0 then 1 else 0) + (if blockNo m ino b = 0 then 1 else 0)

section Room

variable {m m₁ m₂ : Mem} {ino : Fin inodes} {b : Nat} {q : Place}

/-- What is kept while the place of a block comes to be there. -/
structure Numbered (ino : Fin inodes) (b : Nat) (m m₁ : Mem) : Prop where
  sane : Sane m₁
  ext : Extends ino m m₁
  there : (filePlace ino b).There m₁
  vals : ∀ q : Place, q ≠ .slot ino 10 → q.val m₁ = q.val m
  low : b < 10 → indirect m₁ ino = indirect m ino
  size : ∀ j, fileSize m₁ j = fileSize m j
  data : ∀ q : Place, q.Data → q.val m ≠ 0 → ∀ x, x / blkSize = q.val m → m₁ x = m x
  free : freeBlocks m₁ + (if 10 ≤ b ∧ indirect m ino = 0 then 1 else 0) = freeBlocks m

theorem numbered_spec (hm : Sane m) (h : numbered m ino b = some m₁) : Numbered ino b m m₁ := by
  have hthere := numbered_there hm h
  unfold numbered at h
  split at h
  · next hb =>
    cases h
    exact ⟨hm, .refl ino m, hthere, fun _ _ => rfl, fun _ => rfl, fun _ => rfl,
      fun _ _ _ _ _ => rfl, by rw [if_neg (by omega), Nat.add_zero]⟩
  · next hb =>
    have hq : Place.There m (.slot ino 10) := trivial
    refine ⟨hm.filled hq h, .filled hm hq h, hthere, fun q hne => hm.filled_val_of_ne hq h hne,
      fun hlt => absurd hlt hb, filled_size hm hq h,
      fun q hdata hne x hx => filled_data hm hq h hdata hne hx, ?_⟩
    have hcount := hm.filled_available hq h
    rw [← indirect_eq] at hcount
    unfold freeBlocks
    rw [← hcount]
    congr 1
    simp only [show 10 ≤ b by omega, true_and]

theorem numbered_eq_none : numbered m ino b = none ↔
    10 ≤ b ∧ indirect m ino = 0 ∧ freeBlocks m = 0 := by
  unfold numbered
  split
  · next hb => exact iff_of_false (by simp) fun h => absurd hb (by omega)
  · next hb =>
    rw [filled_eq_none, freeNo_eq_none, ← indirect_eq]
    exact (and_iff_right (by omega)).symm

/-- What is kept while a block comes to have a number. -/
structure Roomy (ino : Fin inodes) (b : Nat) (m m₂ : Mem) : Prop where
  sane : Sane m₂
  ext : Extends ino m m₂
  there : (filePlace ino b).There m₂
  number : blockNo m₂ ino b ≠ 0
  vals : ∀ q : Place, q ≠ .slot ino 10 → q ≠ filePlace ino b → q.val m₂ = q.val m
  low : b < 10 → indirect m₂ ino = indirect m ino
  size : ∀ j, fileSize m₂ j = fileSize m j
  data : ∀ q : Place, q.Data → q.val m ≠ 0 → ∀ x, x / blkSize = q.val m → m₂ x = m x
  clean : blockNo m ino b = 0 → ∀ x, x / blkSize = blockNo m₂ ino b → m₂ x = 0
  free : freeBlocks m₂ + need m ino b = freeBlocks m

theorem roomFor_eq_some : roomFor m ino b = some m₂ ↔
    ∃ m₁, numbered m ino b = some m₁ ∧ filled m₁ (filePlace ino b) = some m₂ :=
  Option.bind_eq_some_iff

/-- The number of a block is the same while its place comes to be there. -/
theorem Numbered.blockNo (h : Numbered ino b m m₁) : blockNo m₁ ino b = blockNo m ino b := by
  refine h.vals _ fun he => ?_
  have hdata := filePlace_data ino b
  rw [he] at hdata
  exact hdata rfl

theorem roomFor_spec (hm : Sane m) (h : roomFor m ino b = some m₂) : Roomy ino b m m₂ := by
  obtain ⟨m₁, h1, h2⟩ := roomFor_eq_some.mp h
  have hn := numbered_spec hm h1
  have howner : (filePlace ino b).owner = ino := by
    unfold filePlace
    split <;> rfl
  have hext := Extends.filled hn.sane hn.there h2
  rw [howner] at hext
  have haddr := filled_addr hn.sane hn.there (filePlace_data ino b) h2
  have hten : ∀ q : Place, ¬ q.Data → q ≠ filePlace ino b := fun q hq he =>
    hq (he ▸ filePlace_data ino b)
  refine ⟨hn.sane.filled hn.there h2, hn.ext.trans hext, haddr.2,
    hn.sane.filled_val hn.there h2, fun q h3 h4 => ?_, fun hb => ?_, fun j => ?_,
    fun q hdata hne x hx => ?_, fun hzero x hx => ?_, ?_⟩
  · exact (hn.sane.filled_val_of_ne hn.there h2 h4).trans (hn.vals q h3)
  · rw [indirect_eq, hn.sane.filled_val_of_ne hn.there h2 (hten (.slot ino 10) fun hd => hd rfl),
      ← indirect_eq, hn.low hb]
  · exact (filled_size hn.sane hn.there h2 j).trans (hn.size j)
  · have hval := hn.ext.vals q hne
    rw [← hval] at hx
    exact (filled_data hn.sane hn.there h2 hdata (by rwa [hval]) hx).trans
      (hn.data q hdata hne x (hval ▸ hx))
  · exact filled_clean hn.sane hn.there h2 (hn.blockNo.trans hzero) hx
  · have hcount := hn.sane.filled_available hn.there h2
    have hno : (filePlace ino b).val m₁ = blockNo m ino b := hn.blockNo
    rw [hno] at hcount
    rw [← hn.free]
    unfold freeBlocks need at *
    rw [← hcount]
    omega

/-- There is room just if there are enough free blocks. -/
theorem roomFor_eq_none (hm : Sane m) : roomFor m ino b = none ↔ freeBlocks m < need m ino b := by
  unfold roomFor need
  cases h1 : numbered m ino b with
  | none =>
    obtain ⟨hb, hz, hfree⟩ := numbered_eq_none.mp h1
    rw [if_pos ⟨hb, hz⟩, hfree]
    exact iff_of_true rfl (by omega)
  | some m₁ =>
    have hn := numbered_spec hm h1
    have hno : (filePlace ino b).val m₁ = blockNo m ino b := hn.blockNo
    show filled m₁ (filePlace ino b) = none ↔ _
    rw [filled_eq_none, freeNo_eq_none, hno, ← hn.free]
    show _ ∧ freeBlocks m₁ = 0 ↔ _
    generalize (if 10 ≤ b ∧ indirect m ino = 0 then 1 else 0) = n
    by_cases hz : blockNo m ino b = 0
    · rw [if_pos hz, and_iff_right hz]
      omega
    · rw [if_neg hz]
      exact iff_of_false (fun h => hz h.1) (by omega)

end Room

/-! ## A turn -/

section Turn

variable {m m₁ m₂ : Mem} {ino : Fin inodes} {buf : List UInt8} {d : Option Nat} {t : Nat}

theorem filePlace_owner (ino : Fin inodes) (b : Nat) : (filePlace ino b).owner = ino := by
  unfold filePlace
  split <;> rfl

/-- Where there is room, the bytes are put in the next block. -/
theorem writeLoop_room (hm : Sane m) (hlt : fileSize m ino / blkSize < fileBlocks)
    (hroom : roomFor m ino (fileSize m ino / blkSize) = some m₂) (hbuf : buf ≠ [])
    (hlen : buf.length ≤ blkSize) :
    ∃ d', writeLoop (inode ino) buf 0 (t + 2) 0 0 d m =
      .ok (0, d') (put m₂ ino (blockNo m₂ ino (fileSize m ino / blkSize)) buf) := by
  obtain ⟨m₁, h1, h2⟩ := roomFor_eq_some.mp hroom
  have hn := numbered_spec hm h1
  have hwalk := @walkBlock_alloc m ino _ d hlt
  rw [h1] at hwalk
  refine ⟨some ((filePlace ino (fileSize m ino / blkSize)).addr m₁), ?_⟩
  rw [writeLoop_put (hn.sane.usable hn.there) hwalk hbuf hlen, h2]
  exact writeLoop_end buf.length

/-- Where there is none, the call ends with an error. -/
theorem writeLoop_full (hm : Sane m) (hlt : fileSize m ino / blkSize < fileBlocks)
    (hroom : roomFor m ino (fileSize m ino / blkSize) = none) (hbuf : buf ≠ [])
    (hlen : buf.length ≤ blkSize) :
    ∃ d' m', writeLoop (inode ino) buf 0 (t + 1) 0 0 d m = .ok (-1, d') m' ∧ Sane m' ∧
      Extends ino m m' ∧ fileSize m' ino = fileSize m ino := by
  have hpos : 0 < buf.length := List.length_pos_iff.mpr hbuf
  have hwalk := @walkBlock_alloc m ino _ d hlt
  unfold roomFor at hroom
  cases h1 : numbered m ino (fileSize m ino / blkSize) with
  | none =>
    rw [h1] at hwalk
    refine ⟨d, m, ?_, hm, .refl ino m, rfl⟩
    rw [writeLoop, if_pos (by omega), Act.bind_ok load_size, Act.bind_ok hwalk]
    simp only [show (-1 : Int) < 0 by decide, if_true, Act.pure_apply]
  | some m₁ =>
    have hn := numbered_spec hm h1
    rw [h1] at hwalk hroom
    have hfull : filled m₁ (filePlace ino (fileSize m ino / blkSize)) = none := hroom
    refine ⟨some ((filePlace ino (fileSize m ino / blkSize)).addr m₁), m₁, ?_, hn.sane, hn.ext,
      hn.size ino⟩
    rw [writeLoop_put (hn.sane.usable hn.there) hwalk hbuf hlen, hfull]

end Turn

/-! ## What is stored -/

/-- A file of the image: its size, a number for every block of it, and the bytes; what is
left of the last block is nought. -/
structure Stores (m : Mem) (ino : Fin inodes) (data : List UInt8) : Prop where
  size : fileSize m ino = data.length
  number : ∀ b, blkSize * b < data.length → blockNo m ino b ≠ 0
  bytes : ∀ b, blkSize * b < data.length → ∀ k, k < blkSize →
    m (blkSize * blockNo m ino b + k) = data.getD (blkSize * b + k) 0

/-- The file has no more numbers than it needs. -/
structure Written (m : Mem) (ino : Fin inodes) (data : List UInt8) : Prop
    extends Stores m ino data where
  bare : ∀ b, b < fileBlocks → data.length ≤ blkSize * b → blockNo m ino b = 0
  numbers : indirect m ino ≠ 0 ↔ blkSize * 10 < data.length

/-- How many blocks a file of `n` bytes takes. -/
def cost (n : Nat) : Nat := (n + (blkSize - 1)) / blkSize + if blkSize * 10 < n then 1 else 0

section Stored

variable {m m' m₂ : Mem} {ino j : Fin inodes} {data buf : List UInt8} {K : Nat}

/-- A file is where it was after another one was written. -/
theorem Stores.extends (h : Stores m j data) (hm : Sane m') (he : Extends ino m m')
    (hne : j ≠ ino) : Stores m' j data where
  size := (he.size hm hne).trans h.size
  number b hb := by
    have hno : (filePlace j b).val m ≠ 0 := h.number b hb
    show (filePlace j b).val m' ≠ 0
    rwa [he.vals _ hno]
  bytes b hb k hk := by
    have hno : (filePlace j b).val m ≠ 0 := h.number b hb
    have hval : blockNo m' j b = blockNo m j b := he.vals _ hno
    rw [hval, ← h.bytes b hb k hk]
    refine he.block hm (by rwa [filePlace_owner]) hno ?_
    show _ = blockNo m j b
    unfold blkSize at *
    omega

/-- The blocks that are needed next, told from the size. -/
theorem Written.need (h : Written m ino data) (hlen : data.length = blkSize * K)
    (hK : K < fileBlocks) {n : Nat} (hn : 0 < n) (hle : n ≤ blkSize) :
    cost (data.length + n) = cost data.length + need m ino K := by
  have hbare := h.bare K hK (Nat.le_of_eq hlen)
  have hnum := h.numbers
  rw [hlen] at hnum
  unfold cost Image.need
  rw [hlen, hbare, if_pos rfl]
  unfold blkSize at *
  have hdiv : (4096 * K + n + (4096 - 1)) / 4096 = K + 1 := by omega
  have hdiv' : (4096 * K + (4096 - 1)) / 4096 = K := by omega
  rw [hdiv, hdiv']
  by_cases hten : K = 10
  · rw [if_pos (by omega), if_neg (by omega), if_pos ⟨by omega, by
      by_contra hne
      have := hnum.mp hne
      omega⟩]
  · rw [if_neg (c := 10 ≤ K ∧ indirect m ino = 0) fun hc => by
      have := fun h' => hnum.mpr h' hc.2
      omega]
    by_cases hlt : K < 10
    · rw [if_neg (by omega), if_neg (by omega)]
    · rw [if_pos (by omega), if_pos (by omega)]

/-- A turn adds what was read. -/
theorem Written.put (hm : Sane m) (h : Written m ino data) (hlen : data.length = blkSize * K)
    (hK : K < fileBlocks) (hroom : roomFor m ino K = some m₂) (hbuf : buf ≠ [])
    (hle : buf.length ≤ blkSize) :
    Written (put m₂ ino (blockNo m₂ ino K) buf) ino (data ++ buf) := by
  have hr := roomFor_spec hm hroom
  have hpos : 0 < buf.length := List.length_pos_iff.mpr hbuf
  have hdata := filePlace_data ino K
  have hb : Beside m₂ (Image.put m₂ ino (blockNo m₂ ino K) buf) :=
    put_beside hr.sane hdata hr.number hle
  have hlo : firstBlock ≤ blockNo m₂ ino K := (hr.sane.sound.range _ hr.number).1
  have hno : ∀ b, blockNo (Image.put m₂ ino (blockNo m₂ ino K) buf) ino b = blockNo m₂ ino b :=
    fun b => hb.val _
  have hten : ∀ b, filePlace ino b ≠ .slot ino 10 := fun b he => by
    have hd := filePlace_data ino b
    rw [he] at hd
    exact hd rfl
  -- another block of the file has the number it had
  have hold : ∀ b, b < fileBlocks → b ≠ K → blockNo m₂ ino b = blockNo m ino b := fun b hlt hne =>
    hr.vals _ (hten b) fun he => hne (filePlace_inj hlt hK he).2
  have htotal : (data ++ buf).length = blkSize * K + buf.length := by
    rw [List.length_append, hlen]
  have hblocks : ∀ b, blkSize * b < (data ++ buf).length → b < K ∨ b = K := fun b hlt => by
    rw [htotal] at hlt
    unfold blkSize at *
    omega
  refine ⟨⟨?_, fun b hlt => ?_, fun b hlt k hk => ?_⟩, fun b hlt hge => ?_, ?_⟩
  · rw [put_size, hr.size, h.size, htotal, hlen]
    unfold fileBlocks at hK
    unfold blkSize at *
    omega
  · rw [hno]
    obtain hlt' | rfl := hblocks b hlt
    · rw [hold b (by omega) (by omega)]
      exact h.number b (by rw [hlen]; unfold blkSize; omega)
    · exact hr.number
  · rw [hno]
    obtain hlt' | rfl := hblocks b hlt
    · have hlt'' : blkSize * b < data.length := by rw [hlen]; unfold blkSize; omega
      have hnum := h.number b hlt''
      have hval := hold b (by omega) (by omega)
      have hdiv : (blkSize * blockNo m ino b + k) / blkSize = blockNo m ino b := by
        unfold blkSize at *
        omega
      have hlo' : firstBlock ≤ blockNo m ino b := (hm.sound.range _ hnum).1
      have hne : blockNo m ino b ≠ blockNo m₂ ino K := fun he => by
        have hinj := hr.sane.sound.inj (filePlace ino b) (filePlace ino K)
          (by show blockNo m₂ ino b ≠ 0; rwa [hval]) (hval.trans he)
        have := (filePlace_inj (by omega) hK hinj).2
        omega
      rw [hval, put_out hle (.inr ?_) (by rw [hdiv]; exact hne),
        hr.data (filePlace ino b) (filePlace_data ino b) hnum _ hdiv, h.bytes b hlt'' k hk,
        List.getD_append _ _ _ _ (by rw [hlen]; unfold blkSize at *; omega)]
      have hino := ino.isLt
      unfold inodes at hino
      unfold firstBlock at hlo'
      rw [inode_eq]
      unfold blkSize
      omega
    · rw [put_block hlo hk, List.getD_append_right _ _ _ _ (by omega), hlen,
        Nat.add_sub_cancel_left]
      split
      · rfl
      · next hge =>
        rw [hr.clean (h.bare b hK (Nat.le_of_eq hlen)) _ (by unfold blkSize at *; omega),
          List.getD_eq_default _ _ (by omega)]
  · rw [htotal] at hge
    have hne : b ≠ K := fun he => by rw [he] at hge; omega
    rw [hno, hold b hlt hne]
    exact h.bare b hlt (by omega)
  · rw [hb.indirect ino.isLt, htotal]
    have hnum := h.numbers
    rw [hlen] at hnum
    by_cases hlow : K < 10
    · rw [hr.low hlow, hnum]
      unfold blkSize at *
      omega
    · have hthere := hr.there
      rw [filePlace_entry hlow] at hthere
      exact iff_of_true hthere (by unfold blkSize; omega)

end Stored

/-! ## Reads of whole blocks -/

/-- All reads but the last hand out a whole block. -/
def Reads.Whole (file : Reads) : Prop := ∀ c ∈ file.chunks.dropLast, c.length = blkSize

/-- An inode that nothing was written to. -/
structure Fresh (m : Mem) (ino : Fin inodes) : Prop where
  size : fileSize m ino = 0
  slots : ∀ i : Fin 11, Place.val m (.slot ino i) = 0

section Run

variable {m m' : Mem} {ino : Fin inodes} {data : List UInt8} {d : Option Nat} {t : Nat}

theorem Fresh.written (h : Fresh m ino) : Written m ino [] where
  size := h.size
  number b hb := absurd hb (Nat.not_lt_zero _)
  bytes b hb := absurd hb (Nat.not_lt_zero _)
  bare b hlt _ := by
    have hind : indirect m ino = 0 := h.slots 10
    by_cases hb : b < 10
    · rw [blockNo, filePlace_slot hb]
      exact h.slots _
    · rw [blockNo, filePlace_entry hb]
      exact if_pos hind
  numbers := iff_of_false (not_not.mpr (h.slots 10)) (Nat.not_lt_zero _)

theorem cost_le {n k : Nat} (h : n ≤ k) : cost n ≤ cost k := by
  unfold cost
  refine Nat.add_le_add (Nat.div_le_div_right (by omega)) ?_
  split
  · rw [if_pos (by omega)]
  · exact Nat.zero_le _

/-- How many blocks are free once a block has got its number. -/
theorem freeBlocks_put {m₂ : Mem} {K : Nat} {buf : List UInt8} (hr : Roomy ino K m m₂)
    (hle : buf.length ≤ blkSize) :
    freeBlocks (put m₂ ino (blockNo m₂ ino K) buf) + need m ino K = freeBlocks m := by
  have hb : Beside m₂ (put m₂ ino (blockNo m₂ ino K) buf) :=
    put_beside hr.sane (filePlace_data ino K) hr.number hle
  rw [← hr.free]
  unfold freeBlocks
  rw [hb.ledger]

/-- A turn with one of the reads: it adds the bytes, or there are not enough blocks. -/
theorem writeTurn {buf : List UInt8} (hm : Sane m) (h : Written m ino data)
    (hdiv : blkSize ∣ data.length) (hlt : data.length < fileBlocks * blkSize) (hbuf : buf ≠ [])
    (hle : buf.length ≤ blkSize) :
    ∃ r d' m', (do
        let size ← load 4 (inode ino + diSizeOff)
        writeLoop (inode ino) buf (size % blkSize) (t + 2) (size % blkSize) 0 d :
          Act Mem (Int × Option Nat)) m = .ok (r, d') m' ∧ Sane m' ∧ Extends ino m m' ∧
      if cost (data.length + buf.length) ≤ freeBlocks m + cost data.length then
        r = 0 ∧ Written m' ino (data ++ buf) ∧
          freeBlocks m' + cost (data.length + buf.length) = freeBlocks m + cost data.length
      else r = -1 ∧ fileSize m' ino = data.length := by
  obtain ⟨K, hK⟩ := hdiv
  have hKlt : K < fileBlocks := by
    rw [hK] at hlt
    unfold blkSize at hlt
    omega
  have hsize : fileSize m ino / blkSize = K := by
    rw [h.size, hK]
    exact Nat.mul_div_cancel_left K (by decide)
  have hmod : fileSize m ino % blkSize = 0 := by
    rw [h.size, hK]
    exact Nat.mul_mod_right _ _
  have hneed := h.need hK hKlt (List.length_pos_iff.mpr hbuf) hle
  rw [Act.bind_ok load_size, hmod]
  cases hroom : roomFor m ino K with
  | none =>
    obtain ⟨d', m', hrun, hm', he, hsame⟩ :=
      writeLoop_full (d := d) (t := t + 1) hm (by rw [hsize]; exact hKlt) (by rw [hsize, hroom])
        hbuf hle
    have hfull := (roomFor_eq_none hm).mp hroom
    refine ⟨-1, d', m', hrun, hm', he, ?_⟩
    rw [if_neg (by omega)]
    exact ⟨rfl, hsame.trans h.size⟩
  | some m₂ =>
    obtain ⟨d', hrun⟩ := writeLoop_room (d := d) (t := t) hm (by rw [hsize]; exact hKlt)
      (by rw [hsize, hroom]) hbuf hle
    rw [hsize] at hrun
    have hr := roomFor_spec hm hroom
    have hdata := filePlace_data ino K
    have hput : Extends (filePlace ino K).owner m₂
        (put m₂ (filePlace ino K).owner (blockNo m₂ ino K) buf) :=
      put_extends hr.sane hdata hr.number hle
    rw [filePlace_owner] at hput
    have hfree := freeBlocks_put hr hle
    refine ⟨0, d', _, hrun, hr.sane.beside (put_beside hr.sane hdata hr.number hle),
      hr.ext.trans hput, ?_⟩
    rw [if_pos (by omega)]
    exact ⟨rfl, h.put hm hK hKlt hroom hbuf hle, by omega⟩

/-- Reads of whole blocks are stored one after another, as long as there are blocks, and take what
they cost. -/
theorem writeChunks_spends (t : Nat) {chunks : List (List UInt8)} (hne : ∀ c ∈ chunks, c ≠ [])
    (hfit : ∀ c ∈ chunks, c.length ≤ blkSize) (hwhole : ∀ c ∈ chunks.dropLast, c.length = blkSize)
    (hm : Sane m) (h : Written m ino data) (hdiv : chunks ≠ [] → blkSize ∣ data.length)
    (hlen : (data ++ chunks.flatten).length ≤ fileBlocks * blkSize) :
    ∃ r m', writeChunks (t + 2) (inode ino) chunks d m = .ok r m' ∧ Sane m' ∧ Extends ino m m' ∧
      if cost (data ++ chunks.flatten).length ≤ freeBlocks m + cost data.length then
        r = 0 ∧ Written m' ino (data ++ chunks.flatten) ∧
          freeBlocks m' + cost (data ++ chunks.flatten).length = freeBlocks m + cost data.length
      else r = -1 ∧ fileSize m' ino < (data ++ chunks.flatten).length := by
  induction chunks generalizing d m data with
  | nil =>
    rw [List.flatten_nil, List.append_nil]
    exact ⟨0, m, rfl, hm, .refl ino m, by rw [if_pos (Nat.le_add_left _ _)]; exact ⟨rfl, h, rfl⟩⟩
  | cons buf rest ih =>
    rw [List.flatten_cons, List.length_append, List.length_append] at hlen ⊢
    have hpos : 0 < buf.length := List.length_pos_iff.mpr (hne buf List.mem_cons_self)
    obtain ⟨r, d', m', hrun, hm', he, hcase⟩ := writeTurn (d := d) (t := t) hm h
      (hdiv (List.cons_ne_nil _ _)) (by omega) (hne buf List.mem_cons_self)
      (hfit buf List.mem_cons_self)
    obtain ⟨_, _, hsize, hloop⟩ := Act.bind_eq_ok.mp hrun
    have hmono := cost_le (show data.length + buf.length ≤
      data.length + (buf.length + rest.flatten.length) by omega)
    rw [writeChunks, Act.bind_ok hsize]
    simp only []
    rw [Act.bind_ok hloop]
    split at hcase
    · obtain ⟨rfl, hw, hfree⟩ := hcase
      have hdiv' : rest ≠ [] → blkSize ∣ (data ++ buf).length := fun hrest => by
        rw [List.length_append]
        exact wholes_dvd hwhole (hdiv (List.cons_ne_nil _ _)) hrest
      obtain ⟨r, m'', hrun', hm'', he', hcase'⟩ := ih (d := d')
        (fun c hc => hne c (List.mem_cons_of_mem _ hc))
        (fun c hc => hfit c (List.mem_cons_of_mem _ hc)) (wholes_rest hwhole) hm' hw hdiv' (by
          rw [List.length_append, List.length_append]
          omega)
      refine ⟨r, m'', ?_, hm'', he.trans he', ?_⟩
      · simp only [Int.lt_irrefl, if_false]
        exact hrun'
      · rw [List.append_assoc, List.length_append, List.length_append, List.length_append,
          hfree] at hcase'
        exact hcase'
    · obtain ⟨rfl, hsame⟩ := hcase
      refine ⟨-1, m', ?_, hm', he, ?_⟩
      · simp only [show (-1 : Int) < 0 by decide, if_true, Act.pure_apply]
      · rw [if_neg (by omega), hsame]
        exact ⟨rfl, by omega⟩

theorem writeChunks_run (t : Nat) {chunks : List (List UInt8)} (hne : ∀ c ∈ chunks, c ≠ [])
    (hfit : ∀ c ∈ chunks, c.length ≤ blkSize) (hwhole : ∀ c ∈ chunks.dropLast, c.length = blkSize)
    (hm : Sane m) (h : Written m ino data) (hdiv : chunks ≠ [] → blkSize ∣ data.length)
    (hlen : (data ++ chunks.flatten).length ≤ fileBlocks * blkSize) :
    ∃ r m', writeChunks (t + 2) (inode ino) chunks d m = .ok r m' ∧ Sane m' ∧ Extends ino m m' ∧
      if cost (data ++ chunks.flatten).length ≤ freeBlocks m + cost data.length then
        r = 0 ∧ Written m' ino (data ++ chunks.flatten)
      else r = -1 ∧ fileSize m' ino < (data ++ chunks.flatten).length := by
  obtain ⟨r, m', hrun, hm', he, hcase⟩ := writeChunks_spends (d := d) t hne hfit hwhole hm h hdiv hlen
  refine ⟨r, m', hrun, hm', he, ?_⟩
  split at hcase
  · next hcost =>
    rw [if_pos hcost]
    exact ⟨hcase.1, hcase.2.1⟩
  · next hcost =>
    rw [if_neg hcost]
    exact hcase

end Run

end Myos.Image
