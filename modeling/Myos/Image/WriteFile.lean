import Myos.Image.Allocation

/-!
# Storing a file

`write_file` on a sane image. A turn of its loop gives the file's next block a place and
a number, copies the bytes there and adds to the size; `Extends` is what a turn, or any
number of them, may change. The inode then holds the bytes read so far (`Holds`).

The loop computes with a position in the block on one side and a count of the bytes read
on the other. That is right while the file is read in whole blocks. Once a read that is
not the last one has handed out less than a block, the loop does not get on.
-/

namespace Myos.Image

open Myos.Lib
open Myos.Kernel (blkSize inodeSize blockOff blockSlot diSizeOff)

/-- The size of a file. -/
def fileSize (m : Mem) (ino : Fin inodes) : Nat := Mem.rd 4 m (inode ino + diSizeOff)

/-- The inode that a place belongs to. -/
def Place.owner : Place → Fin inodes
  | slot ino _ => ino
  | entry ino _ => ino

/-- What writing a file may change: its inode, its blocks and the bitmap. A place that has
a number keeps it. -/
structure Extends (ino : Fin inodes) (m m' : Mem) : Prop where
  vals : ∀ q : Place, q.val m ≠ 0 → q.val m' = q.val m
  others : ∀ q : Place, q.owner ≠ ino → q.val m' = q.val m
  free : ∀ no, blkFree m' no = true → blkFree m no = true
  bytes : ∀ x, x / blkSize ≠ 2 → x < inode ino ∨ inode ino + inodeSize ≤ x →
    (∀ q : Place, q.owner = ino → q.val m' ≠ 0 → q.val m' ≠ x / blkSize) → m' x = m x

section Inodes

variable {m m' m'' : Mem} {ino j : Fin inodes} {a v : Nat} {q : Place}

theorem inode_eq (j : Nat) : inode j = 16384 + 32 * j := by
  unfold inode inoTable inodeSize blkSize
  omega

theorem inode_imgSize (ino : Fin inodes) : inode ino + diSizeOff + 4 ≤ imgSize := by
  have hino := ino.isLt
  rw [inode_eq]
  unfold inodes at hino
  unfold diSizeOff imgSize
  omega

theorem load_size : load 4 (inode ino + diSizeOff) m = .ok (fileSize m ino) m :=
  load_ok (inode_imgSize ino)

/-- A size does not depend on what is behind the inode table. -/
theorem fileSize_congr (h : ∀ x, inode ino ≤ x → x < inode ino + 4 → m' x = m x) :
    fileSize m' ino = fileSize m ino :=
  Mem.rd_congr fun x h1 h2 => h x (by unfold diSizeOff at h1; omega) (by unfold diSizeOff at h2; omega)

theorem slot_inode {i : Nat} (hi : i < 11) :
    inode ino + 10 ≤ blockSlot (inode ino) i ∧ blockSlot (inode ino) i + 2 ≤ inode ino + inodeSize := by
  rw [blockSlot_eq, inode_eq]
  unfold inodeSize
  omega

namespace Extends

theorem refl (ino : Fin inodes) (m : Mem) : Extends ino m m where
  vals _ _ := rfl
  others _ _ := rfl
  free _ h := h
  bytes _ _ _ _ := rfl

theorem trans (h : Extends ino m m') (h' : Extends ino m' m'') : Extends ino m m'' where
  vals q hq := (h'.vals q (by rwa [h.vals q hq])).trans (h.vals q hq)
  others q hq := (h'.others q hq).trans (h.others q hq)
  free no hno := h.free no (h'.free no hno)
  bytes x h1 h2 h3 := by
    refine (h'.bytes x h1 h2 h3).trans (h.bytes x h1 h2 fun q ho hne => ?_)
    rw [← h'.vals q hne]
    exact h3 q ho (by rwa [h'.vals q hne])

/-- A number that goes to a place of the file. -/
theorem given {no : Nat} (hm : Sane m) (hq : q.There m) (hzero : q.val m = 0)
    (hno : blkFree m no = true) : Extends q.owner m (Image.given m (q.addr m) no) where
  vals q' hq' := by
    rw [hm.given_val hq hzero hno, if_neg fun he : q' = q => hq' (by rw [he, hzero])]
  others q' hq' := by
    rw [hm.given_val hq hzero hno, if_neg fun he : q' = q => hq' (by rw [he])]
  free k hk := by
    obtain ⟨ha, -⟩ := hm.addr_lt hq
    rw [given_blkFree (by omega), Bool.and_eq_true] at hk
    exact hk.1
  bytes x h1 h2 h3 := by
    refine given_out (hm.sound.bounds no hno).2 h1 ?_
    cases q with
    | slot j i =>
      obtain ⟨hlo, hhi⟩ := @slot_inode j _ i.isLt
      have h2' : x < inode j ∨ inode j + inodeSize ≤ x := h2
      rw [Place.addr_slot]
      omega
    | entry j k =>
      have hk := k.isLt
      have hval := hm.given_val hq hzero hno (.slot j 10)
      rw [if_neg (by simp)] at hval
      have hne : Place.val m (.slot j 10) ≠ 0 := hq
      have hblk := h3 (.slot j 10) rfl (by rwa [hval])
      rw [hval, ← indirect_eq] at hblk
      rw [Place.addr_entry]
      unfold blkSize at *
      omega

theorem filled (hm : Sane m) (hq : q.There m) (h : filled m q = some m') :
    Extends q.owner m m' := by
  obtain ⟨-, rfl⟩ | ⟨no, hzero, hfree, rfl⟩ := filled_cases h
  · exact refl _ _
  · exact given hm hq hzero hfree

/-- Bytes of a block of the file, or of its inode but for the slots. -/
theorem beside (hb : Beside m m') (hout : ∀ x, x < inode ino ∨ inode ino + inodeSize ≤ x →
    (∀ q : Place, q.owner = ino → q.val m' ≠ 0 → q.val m' ≠ x / blkSize) → m' x = m x) :
    Extends ino m m' where
  vals q _ := hb.val q
  others q _ := hb.val q
  free no h := by rwa [hb.blkFree] at h
  bytes x _ := hout x

/-- What another file's inode has in front of its slots. -/
theorem inode_bytes (h : Extends ino m m') (hm : Sane m') (hne : j ≠ ino) {x : Nat}
    (h1 : inode j ≤ x) (h2 : x < inode j + inodeSize) : m' x = m x := by
  have hj := j.isLt
  have hne' : j.val ≠ ino.val := fun he => hne (Fin.ext he)
  rw [inode_eq] at h1 h2
  unfold inodes at hj
  unfold inodeSize at h2
  refine h.bytes x (by unfold blkSize; omega) ?_ fun q _ hv he => ?_
  · rw [inode_eq]
    unfold inodeSize
    omega
  · have hlo : 14 ≤ q.val m' := (hm.sound.range q hv).1
    rw [he] at hlo
    unfold blkSize at hlo
    omega

theorem size (h : Extends ino m m') (hm : Sane m') (hne : j ≠ ino) :
    fileSize m' j = fileSize m j :=
  fileSize_congr fun x h1 h2 => h.inode_bytes hm hne h1 (by unfold inodeSize; omega)

/-- The blocks of another file. -/
theorem block (h : Extends ino m m') (hm : Sane m') (hq : q.owner ≠ ino) (hne : q.val m ≠ 0)
    {x : Nat} (hx : x / blkSize = q.val m) : m' x = m x := by
  have hval := h.others q hq
  have hlo : 14 ≤ q.val m' := (hm.sound.range q (by show q.val m' ≠ 0; rwa [hval])).1
  rw [hval, ← hx] at hlo
  have hino := ino.isLt
  unfold inodes at hino
  refine h.bytes x (by omega) (.inr ?_) fun q' ho hv he => ?_
  · rw [inode_eq]
    unfold inodeSize
    unfold blkSize at hlo
    omega
  · rw [hx, ← hval] at he
    exact hq (by rw [hm.sound.inj q q' (by show q.val m' ≠ 0; rwa [hval]) he.symm, ho])

end Extends

end Inodes

/-! ## A turn of the loop -/

/-- Bytes are copied to the block, from `off` on, and the size grows by their number. -/
def putAt (m : Mem) (ino : Fin inodes) (no off n : Nat) (f : Mem) : Mem :=
  Mem.wr 4 (m.overlay (no * blkSize + off) n f) (inode ino + diSizeOff) (fileSize m ino + n)

/-- A read is copied to the block. -/
def put (m : Mem) (ino : Fin inodes) (no : Nat) (buf : List UInt8) : Mem :=
  putAt m ino no 0 buf.length fun k => buf.getD k 0

/-- How many bytes a turn from `i` on copies. -/
def clip (i count : Nat) : Int :=
  if (blkSize : Int) - i < count - i then blkSize - i else count - i

section Put

variable {m m' m₁ m₂ : Mem} {ino : Fin inodes} {q : Place} {no x t off n i pos offset : Nat}
  {buf : List UInt8} {d : Option Nat} {f : Mem}

/-- They end in the block. -/
theorem clip_le {count : Nat} (h : ¬ clip i count < 0) :
    i % blkSize + (clip i count).toNat ≤ blkSize := by
  unfold clip blkSize at *
  split at h <;> split <;> omega

theorem putAt_out (hfit : off + n ≤ blkSize) (h1 : x < inode ino ∨ inode ino + 4 ≤ x)
    (h2 : x / blkSize ≠ no) : putAt m ino no off n f x = m x := by
  rw [putAt, Mem.wr_out (by unfold diSizeOff; omega), Mem.overlay_out]
  unfold blkSize at *
  omega

/-- A block of the file's own is written beside the places. -/
theorem putAt_beside (hm : Sane m) (hq : q.Data) (hne : q.val m ≠ 0) (hfit : off + n ≤ blkSize) :
    Beside m (putAt m ino (q.val m) off n f) := by
  have hlo : 14 ≤ q.val m := (hm.sound.range q hne).1
  have hmid : Beside m (m.overlay (q.val m * blkSize + off) n f) :=
    hm.beside_data hq hne fun x hx => Mem.overlay_out (by unfold blkSize at *; omega)
  refine hmid.trans ((hm.beside hmid).beside_head fun x hx => Mem.wr_out ?_)
  have hino := ino.isLt
  unfold inodes at hino
  rw [inode_eq]
  unfold diSizeOff
  unfold blkSize at hx
  omega

theorem putAt_extends (hm : Sane m) (hq : q.Data) (hne : q.val m ≠ 0) (hfit : off + n ≤ blkSize) :
    Extends q.owner m (putAt m q.owner (q.val m) off n f) := by
  have hb : Beside m (putAt m q.owner (q.val m) off n f) := putAt_beside hm hq hne hfit
  refine .beside hb fun x h1 h2 => putAt_out hfit (by unfold inodeSize at h1; omega) ?_
  have hval := h2 q rfl (by rwa [hb.val])
  rw [hb.val] at hval
  exact hval.symm

theorem put_out (hlen : buf.length ≤ blkSize)
    (h1 : x < inode ino ∨ inode ino + 4 ≤ x) (h2 : x / blkSize ≠ no) : put m ino no buf x = m x :=
  putAt_out (by rwa [Nat.zero_add]) h1 h2

/-- The bytes of a read are in the block. -/
theorem put_block (hno : firstBlock ≤ no) {k : Nat} (hk : k < blkSize) :
    put m ino no buf (blkSize * no + k) =
      if k < buf.length then buf.getD k 0 else m (blkSize * no + k) := by
  have hino := ino.isLt
  unfold inodes at hino
  unfold firstBlock at hno
  unfold blkSize at *
  have hx : inode ino + diSizeOff + 4 ≤ 4096 * no + k := by
    rw [inode_eq]
    unfold diSizeOff
    omega
  rw [put, putAt, Mem.wr_out (.inr hx), Nat.add_zero]
  split
  · next hlt =>
    rw [Mem.overlay_in (by unfold blkSize; omega)]
    congr 1
    unfold blkSize
    omega
  · next hge => exact Mem.overlay_out (.inr (by unfold blkSize; omega))

theorem put_size : fileSize (put m ino no buf) ino = (fileSize m ino + buf.length) % 2 ^ 32 :=
  Mem.rd_wr_same 4 _ _ _

theorem put_beside (hm : Sane m) (hq : q.Data) (hne : q.val m ≠ 0) (hlen : buf.length ≤ blkSize) :
    Beside m (put m ino (q.val m) buf) := putAt_beside hm hq hne (by rwa [Nat.zero_add])

theorem put_extends (hm : Sane m) (hq : q.Data) (hne : q.val m ≠ 0) (hlen : buf.length ≤ blkSize) :
    Extends q.owner m (put m q.owner (q.val m) buf) :=
  putAt_extends hm hq hne (by rwa [Nat.zero_add])

/-- The numbers of the blocks stay where they are while one of them is filled. -/
theorem filled_addr (hm : Sane m) (hq : q.There m) (hdata : q.Data) (hf : filled m q = some m') :
    q.addr m' = q.addr m ∧ q.There m' := by
  cases q with
  | slot j i => exact ⟨rfl, trivial⟩
  | entry j k =>
    have hne : Place.slot j 10 ≠ .entry j k := by simp
    have hval := hm.filled_val_of_ne hq hf hne
    rw [← indirect_eq, ← indirect_eq] at hval
    rw [Place.addr_entry, Place.addr_entry, Place.there_entry, hval]
    exact ⟨rfl, hq⟩

/-- A turn, from the place that `walk_block` points at on. -/
theorem writeLoop_turn (hq : Usable m₁ q)
    (hwalk : walkBlock (inode ino) (fileSize m ino / blkSize) d 1 m = .ok (0, some (q.addr m₁)) m₁)
    (hi : i < buf.length + offset) :
    writeLoop (inode ino) buf offset (t + 1) i pos d m =
      match filled m₁ q with
      | none => .ok (-1, some (q.addr m₁)) m₁
      | some m₂ =>
        if clip i buf.length < 0 then .fault m₂
        else writeLoop (inode ino) buf offset t (i + (clip i buf.length).toNat)
          (pos + (clip i buf.length).toNat) (some (q.addr m₁))
          (putAt m₂ ino (q.val m₂) (i % blkSize) (clip i buf.length).toNat
            fun k => buf.getD (pos + k) 0) := by
  have hload : load 2 (q.addr m₁) m₁ = .ok (q.val m₁) m₁ := by
    rw [Place.val_of_there hq.there]
    exact load_ok (le_imgSize hq.addr)
  -- what is left once the block has a number
  have hcopy : ∀ m₂ : Mem, ∀ no, firstBlock ≤ no → no < blocks →
      (if clip i buf.length < 0 then Act.stop
        else do
          copyIn (no * blkSize + i % blkSize) (clip i buf.length).toNat fun k => buf.getD (pos + k) 0
          let size ← load 4 (inode ino + diSizeOff)
          store 4 (inode ino + diSizeOff) (size + (clip i buf.length).toNat)
          writeLoop (inode ino) buf offset t (i + (clip i buf.length).toNat)
            (pos + (clip i buf.length).toNat) (some (q.addr m₁)) :
          Act Mem (Int × Option Nat)) m₂ =
        if clip i buf.length < 0 then .fault m₂
        else writeLoop (inode ino) buf offset t (i + (clip i buf.length).toNat)
          (pos + (clip i buf.length).toNat) (some (q.addr m₁))
          (putAt m₂ ino no (i % blkSize) (clip i buf.length).toNat
            fun k => buf.getD (pos + k) 0) := by
    intro m₂ no hlo hlt
    split
    · rfl
    · next hneg =>
      have hclip := clip_le hneg
      have hfit : no * blkSize + i % blkSize + (clip i buf.length).toNat ≤ imgSize :=
        le_imgSize (by unfold blocks at *; unfold blkSize at *; omega)
      have hsame : fileSize (m₂.overlay (no * blkSize + i % blkSize) (clip i buf.length).toNat
          fun k => buf.getD (pos + k) 0) ino = fileSize m₂ ino := fileSize_congr fun x h1 h2 => by
        have hino := ino.isLt
        unfold inodes at hino
        rw [inode_eq] at h2
        unfold firstBlock at hlo
        exact Mem.overlay_out (.inl (by unfold blkSize; omega))
      rw [Act.bind_ok (copyIn_ok hfit), Act.bind_ok load_size, hsame,
        Act.bind_ok (store_ok (inode_imgSize ino))]
      rfl
  rw [writeLoop, if_pos hi]
  show (load 4 (inode ino + diSizeOff) >>= _) m = _
  rw [Act.bind_ok load_size, Act.bind_ok hwalk]
  simp only [Int.lt_irrefl, if_false]
  rw [Act.deref_bind_apply, Act.bind_ok hload]
  by_cases hzero : q.val m₁ = 0
  · rw [if_pos hzero]
    cases hno : freeNo m₁ with
    | none =>
      rw [filled_eq_none.mpr ⟨hzero, hno⟩, Act.bind_ok (getFreeNo_none hno),
        if_pos (show (-1 : Int) < 0 by decide)]
      rfl
    | some no =>
      have hlo := hq.bounds no (freeNo_free hno)
      have hlt := freeNo_lt hno
      rw [filled_of_free hzero hno, Act.bind_ok (getFreeNo_some hno),
        if_neg (show ¬ (no : Int) < 0 by omega), Int.toNat_natCast,
        Act.bind_ok (store_ok (le_imgSize hq.addr)),
        Act.bind_ok (setBitmap_run (by decide) hlt)]
      refine (hcopy _ no hlo hlt).trans ?_
      show _ = if clip i buf.length < 0 then Res.fault (given m₁ (q.addr m₁) no) else
        writeLoop (inode ino) buf offset t (i + (clip i buf.length).toNat)
          (pos + (clip i buf.length).toNat) (some (q.addr m₁))
          (putAt (given m₁ (q.addr m₁) no) ino (q.val (given m₁ (q.addr m₁) no)) (i % blkSize)
            (clip i buf.length).toNat fun k => buf.getD (pos + k) 0)
      rw [hq.given_val hlt]
      rfl
  · obtain ⟨hlo, hlt⟩ := hq.range hzero
    rw [if_neg hzero, filled_of_val hzero]
    exact hcopy m₁ _ hlo hlt

/-- A turn at the start of a block, with a read that fits in it. -/
theorem writeLoop_put (hq : Usable m₁ q)
    (hwalk : walkBlock (inode ino) (fileSize m ino / blkSize) d 1 m = .ok (0, some (q.addr m₁)) m₁)
    (hbuf : buf ≠ []) (hlen : buf.length ≤ blkSize) :
    writeLoop (inode ino) buf 0 (t + 1) 0 0 d m =
      match filled m₁ q with
      | none => .ok (-1, some (q.addr m₁)) m₁
      | some m₂ => writeLoop (inode ino) buf 0 t buf.length buf.length (some (q.addr m₁))
          (put m₂ ino (q.val m₂) buf) := by
  have hpos : 0 < buf.length := List.length_pos_iff.mpr hbuf
  have hclip : clip 0 buf.length = buf.length := by
    unfold clip
    rw [if_neg (by omega)]
    omega
  rw [writeLoop_turn hq hwalk (by omega), hclip]
  cases filled m₁ q with
  | none => rfl
  | some m₂ =>
    simp only [show ¬ (buf.length : Int) < 0 by omega, if_false, Int.toNat_natCast, Nat.zero_add,
      Nat.zero_mod]
    rfl

/-- Once the bytes of a read are stored, the loop ends. -/
theorem writeLoop_end (pos : Nat) : writeLoop (inode ino) buf 0 (t + 1) buf.length pos d m =
    .ok (0, d) m := by
  rw [writeLoop, if_neg (by omega)]
  rfl

end Put

/-! ## More turns -/

/-- What the inner loop hands on, it does with more turns to go. -/
theorem writeLoop_more (pino : Nat) (buf : List UInt8) (offset t i pos : Nat) (d : Option Nat) :
    Act.Refines (writeLoop pino buf offset t i pos d) (writeLoop pino buf offset (t + 1) i pos d) := by
  induction t generalizing i pos d with
  | zero => exact .stop _
  | succ t ih =>
    have hcopy : ∀ (bn : Int) (bno : Nat) (d : Option Nat), Act.Refines
        (if bn < 0 then Act.stop
          else do
            copyIn (bno * blkSize + i % blkSize) bn.toNat fun k => buf.getD (pos + k) 0
            let size ← load 4 (pino + diSizeOff)
            store 4 (pino + diSizeOff) (size + bn.toNat)
            writeLoop pino buf offset t (i + bn.toNat) (pos + bn.toNat) d)
        (if bn < 0 then Act.stop
          else do
            copyIn (bno * blkSize + i % blkSize) bn.toNat fun k => buf.getD (pos + k) 0
            let size ← load 4 (pino + diSizeOff)
            store 4 (pino + diSizeOff) (size + bn.toNat)
            writeLoop pino buf offset (t + 1) (i + bn.toNat) (pos + bn.toNat) d) :=
      fun bn bno d => .ite (.refl _) <| .bind (.refl _) fun _ => .bind (.refl _) fun _ =>
        .bind (.refl _) fun _ => ih _ _ _
    rw [writeLoop, writeLoop]
    refine .ite (.bind (.refl _) fun size => .bind (.refl _) fun o => ?_) (.refl _)
    refine .ite (.refl _) (.bind (.refl _) fun ptr => .bind (.refl _) fun no => ?_)
    refine .ite (.bind (.refl _) fun bno => .ite (.refl _) ?_) (hcopy _ _ _)
    exact .bind (.refl _) fun _ => .bind (.refl _) fun _ => hcopy _ _ _

/-- Where all reads but the last are whole, so are those that are left. -/
theorem wholes_rest {buf : List UInt8} {rest : List (List UInt8)}
    (h : ∀ c ∈ (buf :: rest).dropLast, c.length = blkSize) :
    ∀ c ∈ rest.dropLast, c.length = blkSize := by
  intro c hc
  cases rest with
  | nil => cases hc
  | cons c' cs => exact h c (List.mem_cons_of_mem _ hc)

/-- And a read that is not the last ends where a block does. -/
theorem wholes_dvd {buf : List UInt8} {rest : List (List UInt8)} {n : Nat}
    (h : ∀ c ∈ (buf :: rest).dropLast, c.length = blkSize) (hn : blkSize ∣ n) (hrest : rest ≠ []) :
    blkSize ∣ n + buf.length := by
  have hmem : buf ∈ (buf :: rest).dropLast := by
    rw [List.dropLast_cons_of_ne_nil hrest]
    exact List.mem_cons_self
  rw [h buf hmem]
  exact Nat.dvd_add hn (Nat.dvd_refl _)

theorem writeChunks_more (t pino : Nat) (chunks : List (List UInt8)) (d : Option Nat) :
    Act.Refines (writeChunks t pino chunks d) (writeChunks (t + 1) pino chunks d) := by
  induction chunks generalizing d with
  | nil => exact .refl _
  | cons buf rest ih =>
    rw [writeChunks, writeChunks]
    exact .bind (.refl _) fun size => .bind (writeLoop_more _ _ _ _ _ _ _) fun o =>
      .ite (.refl _) (ih _)

/-- So it is with a file. -/
theorem writeFile_more (file : Option Reads) (pino : Nat) {t k : Nat} (h : t ≤ k) :
    Act.Refines (writeFile t file pino) (writeFile k file pino) := by
  cases file with
  | none => exact .refl _
  | some file => exact Act.Refines.le (fun t => writeChunks_more t pino file.chunks none) h

end Myos.Image
