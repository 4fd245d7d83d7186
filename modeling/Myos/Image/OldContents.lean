import Myos.Image.Agreement
import Myos.Lib.Follows

/-!
# Old contents

`main` formats an image that has contents from before. It resets the bitmaps and the root
inode, and takes the rest as it finds it: the slots of the inode that the file gets, the block
of the directory and the block of numbers.

A run over an old image is followed beside the run over a blank one. What the code loads is the
same in both images (`Kin`), so that both make the same stores; where these three places of the
old image are nought, it holds the same file system after it (`format_independent`).
-/

namespace Myos.Image

open Myos.Lib
open Myos.Kernel (blkSize rootInode inodeSize blockOff blockSlot diSizeOff directSize inoOff nameOff)

/-! ## Two images and one file -/

/-- What the code for a file loads is the same in both images: the bitmap, the size and the slots of
the inode, and its block of numbers. -/
structure Kin (ino : Fin inodes) (m m' : Mem) : Prop where
  bitmap : ∀ y, y / blkSize = 2 → m' y = m y
  size : ∀ y, inode ino ≤ y → y < inode ino + 4 → m' y = m y
  slots : ∀ y, inode ino + 10 ≤ y → y < inode ino + inodeSize → m' y = m y
  numbers : indirect m ino ≠ 0 → ∀ y, y / blkSize = indirect m ino → m' y = m y

section Kin

variable {m m' m₁ m₂ : Mem} {W : Nat → Prop} {ino : Fin inodes} {q : Place} {b no t : Nat}
  {d : Option Nat} {buf : List UInt8}

theorem given_follows (a : Nat) (h : ∀ y, y / blkSize = 2 → m' y = m y) (hno : no < blocks) :
    Follows (fun y => a ≤ y ∧ y < a + 2) m m' (given m a no) (given m' a no) := by
  have hst := Follows.wr m m' 2 a no
  refine hst.after (.clear fun y h1 h2 => hst.same (h y ?_))
  unfold blocks at hno
  unfold blkBitmap at h1 h2
  unfold blkSize at *
  omega

namespace Kin

theorem fileSize (h : Kin ino m m') : Image.fileSize m' ino = Image.fileSize m ino :=
  fileSize_congr h.size

theorem blkFree (h : Kin ino m m') (no : Nat) : Image.blkFree m' no = Image.blkFree m no :=
  blkFree_congr h.bitmap no

theorem freeNo (h : Kin ino m m') : Image.freeNo m' = Image.freeNo m := by
  rw [Image.freeNo, Image.freeNo, funext h.blkFree]

theorem slot (h : Kin ino m m') (i : Fin 11) :
    Place.val m' (.slot ino i) = Place.val m (.slot ino i) := by
  obtain ⟨hlo, hhi⟩ := @slot_inode ino _ i.isLt
  exact Mem.rd_congr fun y h1 h2 => h.slots y (hlo.trans h1) (Nat.lt_of_lt_of_le h2 hhi)

theorem indirect (h : Kin ino m m') : Image.indirect m' ino = Image.indirect m ino := h.slot 10

theorem val (h : Kin ino m m') (hq : q.owner = ino) : q.val m' = q.val m := by
  subst hq
  cases q with
  | slot j i => exact h.slot i
  | entry j k =>
    have hind : Image.indirect m' j = Image.indirect m j := h.indirect
    rw [Place.val_entry, Place.val_entry, hind]
    split
    · rfl
    · next hne =>
      have hk := k.isLt
      exact Mem.rd_congr fun y h1 h2 => h.numbers hne y (by
        show y / blkSize = Image.indirect m j
        unfold blkSize at *
        omega)

theorem addr (h : Kin ino m m') (hq : q.owner = ino) : q.addr m' = q.addr m := by
  subst hq
  cases q with
  | slot j i => rfl
  | entry j k =>
    have hind : Image.indirect m' j = Image.indirect m j := h.indirect
    rw [Place.addr_entry, Place.addr_entry, hind]

/-- A place that can be filled in one image can be in the other. -/
theorem usable (h : Kin ino m m') (hq : q.owner = ino) (hu : Usable m q) : Usable m' q where
  there := by
    subst hq
    cases q with
    | slot j i => trivial
    | entry j k =>
      have hind : Image.indirect m' j = Image.indirect m j := h.indirect
      rw [Place.there_entry, hind]
      exact hu.there
  addr := by
    rw [h.addr hq]
    exact hu.addr
  numbers j k he := by
    subst hq
    subst he
    have hind : Image.indirect m' j = Image.indirect m j := h.indirect
    rw [hind]
    exact hu.numbers j k rfl
  bounds no hno := hu.bounds no (by rwa [h.blkFree] at hno)
  range hne := by
    rw [h.val hq] at hne ⊢
    exact hu.range hne

/-- They are so after the same stores, if the block of numbers was the same. -/
theorem follows {m₁' : Mem} (h : Kin ino m m') (hf : Follows W m m' m₁ m₁')
    (hnum : Image.indirect m₁ ino ≠ 0 → ∀ y, y / blkSize = Image.indirect m₁ ino → m' y = m y) :
    Kin ino m₁ m₁' where
  bitmap y hy := hf.same (h.bitmap y hy)
  size y h1 h2 := hf.same (h.size y h1 h2)
  slots y h1 h2 := hf.same (h.slots y h1 h2)
  numbers hne y hy := hf.same (hnum hne y hy)

/-- A place is filled in both. -/
theorem filled (h : Kin ino m m') (hq : q.owner = ino) :
    (Image.filled m q = none ∧ Image.filled m' q = none) ∨
      ∃ m₁ m₁', Image.filled m q = some m₁ ∧ Image.filled m' q = some m₁' ∧
        Follows (fun _ => False) m m' m₁ m₁' := by
  by_cases hzero : q.val m = 0
  · have hzero' : q.val m' = 0 := by rwa [h.val hq]
    cases hno : Image.freeNo m with
    | none => exact .inl ⟨filled_eq_none.mpr ⟨hzero, hno⟩,
        filled_eq_none.mpr ⟨hzero', h.freeNo.trans hno⟩⟩
    | some no =>
      refine .inr ⟨_, _, filled_of_free hzero hno, filled_of_free hzero' (h.freeNo.trans hno), ?_⟩
      rw [h.addr hq]
      exact (given_follows _ h.bitmap (freeNo_lt hno)).weaken fun _ => False.elim
  · have hne' : q.val m' ≠ 0 := by rwa [h.val hq]
    exact .inr ⟨m, m', filled_of_val hzero, filled_of_val hne', .refl m m'⟩

/-- The place of a block comes to be there in both. -/
theorem numbered (h : Kin ino m m') (b : Nat) :
    (Image.numbered m ino b = none ∧ Image.numbered m' ino b = none) ∨
      ∃ m₁ m₁', Image.numbered m ino b = some m₁ ∧ Image.numbered m' ino b = some m₁' ∧
        Follows (fun _ => False) m m' m₁ m₁' := by
  by_cases hb : b < 10
  · exact .inr ⟨m, m', if_pos hb, if_pos hb, .refl m m'⟩
  · rw [Image.numbered, if_neg hb, Image.numbered, if_neg hb]
    exact h.filled rfl

end Kin

/-- The bytes of a read are put in both. -/
theorem put_follows (h : fileSize m' ino = fileSize m ino) (no : Nat) (buf : List UInt8) :
    Follows (fun y => ∃ k < buf.length, y = blkSize * no + k) m m' (put m ino no buf)
      (put m' ino no buf) := by
  have hcopy := Follows.overlay m m' (no * blkSize + 0) buf.length fun k => buf.getD k 0
  have hsize : ∀ x, x = fileSize m ino → Follows (fun _ => False) (m.overlay (no * blkSize + 0)
      buf.length fun k => buf.getD k 0) (m'.overlay (no * blkSize + 0) buf.length
        fun k => buf.getD k 0) (put m ino no buf) (Mem.wr 4 (m'.overlay (no * blkSize + 0) buf.length
          fun k => buf.getD k 0) (inode ino + diSizeOff) (x + buf.length)) := by
    rintro _ rfl
    exact (Follows.wr _ _ 4 _ _).weaken fun _ => False.elim
  refine (hcopy.after (hsize _ h)).weaken ?_
  rintro y ⟨k, hk, rfl⟩
  unfold blkSize
  omega

/-- What `walk_block` comes to where it points at a place. -/
structure Pointed (ino : Fin inodes) (b : Nat) (m m₁ : Mem) (q : Place) : Prop where
  sane : Sane m₁
  there : q.There m₁
  owner : q.owner = ino
  data : q.Data
  size : fileSize m₁ ino = fileSize m ino
  place : b < fileBlocks → q = filePlace ino b ∧ numbered m ino b = some m₁
  past : ¬ b < fileBlocks → m₁ = m ∧ q.val m ≠ 0

/-- `walk_block` goes the same way in both, if a block of numbers that it gets is the same. -/
theorem walkBlock_kin (h : Kin ino m m') (hm : Sane m) (hd : Ready m ino d)
    (hnew : 10 ≤ fileSize m ino / blkSize → indirect m ino = 0 → ∀ no, freeNo m = some no →
      ∀ y, y / blkSize = no → m' y = m y) :
    (walkBlock (inode ino) (fileSize m ino / blkSize) d 1 m = .ok (-1, d) m ∧
      walkBlock (inode ino) (fileSize m ino / blkSize) d 1 m' = .ok (-1, d) m') ∨
    ∃ m₁ m₁' q, Pointed ino (fileSize m ino / blkSize) m m₁ q ∧
      walkBlock (inode ino) (fileSize m ino / blkSize) d 1 m = .ok (0, some (q.addr m₁)) m₁ ∧
      walkBlock (inode ino) (fileSize m ino / blkSize) d 1 m' = .ok (0, some (q.addr m₁')) m₁' ∧
      Follows (fun _ => False) m m' m₁ m₁' ∧ Kin ino m₁ m₁' := by
  obtain ⟨b, hb⟩ : ∃ b, b = fileSize m ino / blkSize := ⟨_, rfl⟩
  rw [← hb] at hnew ⊢
  by_cases hlt : b < fileBlocks
  · have hwalk := @walkBlock_alloc m ino b d hlt
    have hwalk' := @walkBlock_alloc m' ino b d hlt
    rcases h.numbered b with ⟨hn, hn'⟩ | ⟨m₁, m₁', hn, hn', hf⟩
    · rw [hn] at hwalk
      rw [hn'] at hwalk'
      exact .inl ⟨hwalk, hwalk'⟩
    · rw [hn] at hwalk
      rw [hn'] at hwalk'
      have hnum := numbered_spec hm hn
      refine .inr ⟨m₁, m₁', filePlace ino b, ⟨hnum.sane, hnum.there, filePlace_owner _ _,
        filePlace_data _ _, hnum.size ino, fun _ => ⟨rfl, hn⟩, fun hge => absurd hlt hge⟩, hwalk, hwalk', hf,
        h.follows hf fun hne y hy => ?_⟩
      obtain rfl | ⟨hten, hz, no, hno, rfl⟩ := numbered_cases hn
      · exact h.numbers hne y hy
      · have hind : indirect (given m (blockSlot (inode ino) 10) no) ino = no :=
          given_same (freeNo_lt hno) (by have := (slot_lt ino.isLt (by decide : 10 < 11)).1; omega)
        exact hnew hten hz no hno y (hy.trans hind)
  · obtain ⟨q, howner, hdata, hthere, hval, rfl⟩ := hd.resolve_left (by rwa [← hb])
    have hge := Nat.le_of_not_lt hlt
    refine .inr ⟨m, m', q, ⟨hm, hthere, howner, hdata, rfl, fun hlt' => absurd hlt' hlt,
      fun _ => ⟨rfl, hval⟩⟩, walkBlock_past _ _ hge, ?_, .refl m m', h⟩
    rw [h.addr howner]
    exact walkBlock_past _ _ hge

/-- A read is stored in the same way in both. -/
theorem writeLoop_kin (h : Kin ino m m') (hm : Sane m) (hd : Ready m ino d) (hbuf : buf ≠ [])
    (hlen : buf.length ≤ blkSize)
    (hnew : 10 ≤ fileSize m ino / blkSize → indirect m ino = 0 → ∀ no, freeNo m = some no →
      ∀ y, y / blkSize = no → m' y = m y) :
    ∃ r d₁ m₂ m₂', writeLoop (inode ino) buf 0 (t + 2) 0 0 d m = .ok (r, d₁) m₂ ∧
      writeLoop (inode ino) buf 0 (t + 2) 0 0 d m' = .ok (r, d₁) m₂' ∧ Kin ino m₂ m₂' ∧
      Follows (fun _ => False) m m' m₂ m₂' ∧ (r < 0 → fileSize m₂ ino = fileSize m ino) ∧
      (¬ r < 0 → ∃ m₁ q mf, Pointed ino (fileSize m ino / blkSize) m m₁ q ∧
        filled m₁ q = some mf ∧ m₂ = put mf ino (q.val mf) buf ∧
        Follows (fun y => ∃ k < buf.length, y = blkSize * q.val mf + k) m m' m₂ m₂') := by
  have hpos : 0 < buf.length := List.length_pos_iff.mpr hbuf
  have hneg : (-1 : Int) < 0 := by decide
  rcases walkBlock_kin h hm hd hnew with ⟨hwalk, hwalk'⟩ | ⟨m₁, m₁', q, hp, hwalk, hwalk', hf, hk⟩
  · have hfail : ∀ x : Mem, fileSize x ino = fileSize m ino →
        walkBlock (inode ino) (fileSize m ino / blkSize) d 1 x = .ok (-1, d) x →
        writeLoop (inode ino) buf 0 (t + 2) 0 0 d x = .ok (-1, d) x := by
      intro x hx hw
      rw [writeLoop, if_pos (by omega), Act.bind_ok load_size, hx, Act.bind_ok hw]
      simp only [hneg, if_true, Act.pure_apply]
    exact ⟨-1, d, m, m', hfail m rfl hwalk, hfail m' h.fileSize hwalk', h, .refl m m', fun _ => rfl,
      fun hr => absurd hneg hr⟩
  · have hu := hp.sane.usable hp.there
    have hu' := hk.usable hp.owner hu
    rw [← h.fileSize] at hwalk'
    rw [writeLoop_put hu hwalk hbuf hlen, writeLoop_put hu' hwalk' hbuf hlen, hk.addr hp.owner]
    rcases hk.filled hp.owner with ⟨hn, hn'⟩ | ⟨mf, mf', hs, hs', hf'⟩
    · rw [hn, hn']
      exact ⟨-1, _, m₁, m₁', rfl, rfl, hk, hf, fun _ => hp.size, fun hr => absurd hneg hr⟩
    · have hne : Place.slot ino 10 ≠ q := by
        rintro rfl
        exact hp.data rfl
      have hind : indirect mf ino = indirect m₁ ino := hp.sane.filled_val_of_ne hp.there hs hne
      have hkf : Kin ino mf mf' := hk.follows hf' fun hne y hy => by
        rw [hind] at hne hy
        exact hk.numbers hne y hy
      have hb : Beside mf (put mf ino (q.val mf) buf) := put_beside (hp.sane.filled hp.there hs)
        hp.data (hp.sane.filled_val hp.there hs) hlen
      have hput := put_follows hkf.fileSize (q.val mf) buf
      rw [hs, hs']
      simp only []
      rw [hkf.val hp.owner]
      refine ⟨0, _, _, _, writeLoop_end buf.length, writeLoop_end buf.length, ?_,
        ((hf.trans hf').trans (hput.weaken fun _ => False.elim)).weaken fun _ => False.elim,
        fun hr => absurd hr (by decide), fun _ => ⟨m₁, q, mf, hp, hs, rfl,
          (hf.trans hf').before hput⟩⟩
      refine hkf.follows hput fun hne y hy => ?_
      rw [hb.indirect ino.isLt] at hne hy
      exact hkf.numbers hne y hy

end Kin

/-! ## Writing the file to both -/

/-- The block that the first block of the file gets; the ten after it are its others and the block of
numbers. -/
def firstData : Nat := 15

/-- The first `S` bytes of the file are stored in both. -/
structure Alike (ino : Fin inodes) (S : Nat) (m m' : Mem) : Prop where
  sane : Sane m
  size : fileSize m ino = S % 2 ^ 32
  kin : Kin ino m m'
  bytes : ∀ b k, b < fileBlocks → k < blkSize → blkSize * b + k < S → blockNo m ino b ≠ 0 ∧
    m' (blkSize * blockNo m ino b + k) = m (blkSize * blockNo m ino b + k)

/-- And the next ones will be: until it has a block of numbers the file gets block after block, and
the block that becomes that one, if it comes to that, is the same. -/
structure Going (long : Prop) (ino : Fin inodes) (S : Nat) (m m' : Mem) (d : Option Nat) : Prop
    extends Alike ino S m m' where
  ready : Ready m ino d
  early : indirect m ino = 0 → S ≤ blkSize * 10 ∧
    (∀ no, blkFree m no = decide (firstData + (S + (blkSize - 1)) / blkSize ≤ no ∧ no < blocks)) ∧
    ∀ b, b < 10 → S ≤ blkSize * b → blockNo m ino b = 0
  due : long → ∀ y, y / blkSize = firstData + 10 → m' y = m y

section Going

variable {m m' m₁ m₂ m₂' : Mem} {long : Prop} {ino : Fin inodes} {S b t n no : Nat} {d : Option Nat}
  {q : Place} {buf : List UInt8}

/-- Where all blocks from `n` on are free, `n` is next. -/
theorem freeNo_of_from (h : ∀ no, blkFree m no = decide (n ≤ no ∧ no < blocks))
    (hno : freeNo m = some no) : no = n := by
  obtain ⟨-, -, hfree, hfirst⟩ := Bitmap.firstFrom_eq_some hno
  rw [h, decide_eq_true_iff] at hfree
  by_contra hne
  have hn := hfirst n (Nat.zero_le n) (by omega)
  rw [h, decide_eq_false_iff_not] at hn
  exact hn ⟨Nat.le_refl n, by omega⟩

/-- The block of numbers is the eleventh after the first, so it is the same in both. -/
theorem Going.new (h : Going long ino S m m' d) (hdiv : blkSize ∣ S)
    (hlong : long ∨ S < blkSize * 10) (hten : 10 ≤ fileSize m ino / blkSize)
    (hz : indirect m ino = 0) (hno : freeNo m = some no) : ∀ y, y / blkSize = no → m' y = m y := by
  obtain ⟨hle, hfrom, -⟩ := h.early hz
  obtain ⟨K, rfl⟩ := hdiv
  have hsize := h.size
  rw [Nat.mod_eq_of_lt (by unfold blkSize at *; omega)] at hsize
  rw [hsize] at hten
  have hK : K = 10 := by
    unfold blkSize at *
    omega
  subst hK
  have hlast := freeNo_of_from hfrom hno
  rw [show (blkSize * 10 + (blkSize - 1)) / blkSize = 10 by decide] at hlast
  rw [hlast]
  exact h.due (hlong.resolve_right (Nat.lt_irrefl _))

/-- Without a block of numbers the next block is one of the first ten. -/
theorem Going.low (h : Going long ino S m m' d) (hdiv : blkSize ∣ S)
    (hp : Pointed ino (fileSize m ino / blkSize) m m₁ q) (hz : indirect m₁ ino = 0) :
    m₁ = m ∧ ∃ K < 10, S = blkSize * K ∧ q = filePlace ino K := by
  obtain ⟨K, rfl⟩ := hdiv
  have hsize : indirect m ino = 0 → fileSize m ino / blkSize = K := by
    intro hz
    obtain ⟨hle, -⟩ := h.early hz
    rw [h.size, Nat.mod_eq_of_lt (by unfold blkSize at *; omega)]
    exact Nat.mul_div_cancel_left K (by decide)
  have hsame : m₁ = m := by
    by_cases hlt : fileSize m ino / blkSize < fileBlocks
    · obtain hsame | ⟨-, -, no, hno, rfl⟩ := numbered_cases (hp.place hlt).2
      · exact hsame
      · have hind : indirect (given m (blockSlot (inode ino) 10) no) ino = no :=
          given_same (freeNo_lt hno) (by have := (slot_lt ino.isLt (by decide : 10 < 11)).1; omega)
        have hlo : 14 ≤ no := (h.sane.sound.bounds no (freeNo_free hno)).1
        omega
    · exact (hp.past hlt).1
  subst hsame
  have hK := hsize hz
  obtain ⟨hle, -⟩ := h.early hz
  have hK10 : K ≤ 10 := by
    unfold blkSize at hle
    omega
  have hq : q = filePlace ino K := by
    rw [← hK]
    exact (hp.place (by rw [hK]; unfold fileBlocks; omega)).1
  refine ⟨rfl, K, ?_, rfl, hq⟩
  by_contra hge
  have hthere := hp.there
  rw [hq, filePlace_entry hge] at hthere
  exact hthere hz

/-- It gets the next block then. -/
theorem Going.early_step (h : Going long ino S m m' d) (hdiv : blkSize ∣ S) (hbuf : buf ≠ [])
    (hlen : buf.length ≤ blkSize) (hp : Pointed ino (fileSize m ino / blkSize) m m₁ q)
    (hfill : filled m₁ q = some m₂) (hz : indirect (put m₂ ino (q.val m₂) buf) ino = 0) :
    S + buf.length ≤ blkSize * 10 ∧
    (∀ no, blkFree (put m₂ ino (q.val m₂) buf) no =
      decide (firstData + (S + buf.length + (blkSize - 1)) / blkSize ≤ no ∧ no < blocks)) ∧
    ∀ b, b < 10 → S + buf.length ≤ blkSize * b → blockNo (put m₂ ino (q.val m₂) buf) ino b = 0 := by
  have hpos : 0 < buf.length := List.length_pos_iff.mpr hbuf
  have hne : Place.slot ino 10 ≠ q := by
    rintro rfl
    exact hp.data rfl
  have hbeside : Beside m₂ (put m₂ ino (q.val m₂) buf) := put_beside (hp.sane.filled hp.there hfill)
    hp.data (hp.sane.filled_val hp.there hfill) hlen
  have hind : indirect m₂ ino = indirect m₁ ino := hp.sane.filled_val_of_ne hp.there hfill hne
  rw [hbeside.indirect ino.isLt, hind] at hz
  obtain ⟨rfl, K, hK, rfl, rfl⟩ := h.low hdiv hp hz
  obtain ⟨-, hfrom, hbare⟩ := h.early hz
  have hzero : (filePlace ino K).val m₁ = 0 := hbare K hK (Nat.le_refl _)
  have hceil : (blkSize * K + (blkSize - 1)) / blkSize = K := by
    unfold blkSize
    omega
  have hceil' : (blkSize * K + buf.length + (blkSize - 1)) / blkSize = K + 1 := by
    unfold blkSize at *
    omega
  refine ⟨by unfold blkSize at *; omega, fun no' => ?_, fun b hb hle => ?_⟩
  · cases hno : freeNo m₁ with
    | none =>
      rw [filled_eq_none.mpr ⟨hzero, hno⟩] at hfill
      cases hfill
    | some no =>
      have hlast := freeNo_of_from hfrom hno
      rw [filled_of_free hzero hno] at hfill
      cases hfill
      obtain ⟨haddr, -⟩ := h.sane.addr_lt hp.there
      rw [hbeside.blkFree, given_blkFree (by omega), hfrom, hceil', ← Bool.decide_and, hlast, hceil]
      exact decide_eq_decide.mpr (by omega)
  · have hbK : filePlace ino b ≠ filePlace ino K := fun he => by
      have hsame := (filePlace_inj (by unfold fileBlocks; omega) (by unfold fileBlocks; omega) he).2
      subst hsame
      omega
    have hval : blockNo (put m₂ ino ((filePlace ino K).val m₂) buf) ino b = blockNo m₂ ino b :=
      hbeside.val _
    have hval' : blockNo m₂ ino b = blockNo m₁ ino b :=
      hp.sane.filled_val_of_ne hp.there hfill hbK
    rw [hval, hval']
    exact hbare b hb (by omega)

/-- STEP: the bytes of a read. -/
theorem Going.step (h : Going long ino S m m' d) (hdiv : blkSize ∣ S) (hbuf : buf ≠ [])
    (hlen : buf.length ≤ blkSize) (hlong : long ∨ S + buf.length ≤ blkSize * 10) :
    ∃ r d₁ m₂ m₂', writeLoop (inode ino) buf 0 (t + 2) 0 0 d m = .ok (r, d₁) m₂ ∧
      writeLoop (inode ino) buf 0 (t + 2) 0 0 d m' = .ok (r, d₁) m₂' ∧
      Follows (fun _ => False) m m' m₂ m₂' ∧ (r < 0 → Alike ino S m₂ m₂') ∧
      (¬ r < 0 → Going long ino (S + buf.length) m₂ m₂' d₁) := by
  have hpos : 0 < buf.length := List.length_pos_iff.mpr hbuf
  have hlong' : long ∨ S < blkSize * 10 := hlong.imp_right fun hle => by omega
  obtain ⟨r, d₁, m₂, m₂', hrun, hrun', hkin, hf, hfail, hput⟩ :=
    writeLoop_kin (t := t) h.kin h.sane h.ready hbuf hlen fun hten hz no => h.new hdiv hlong' hten hz
  have hkeep := writeLoop_keeps buf 0 (t + 2) 0 0 h.sane h.ready
  rw [hrun] at hkeep
  -- what was stored is where it was, and the same
  have hold : ∀ b k, b < fileBlocks → k < blkSize → blkSize * b + k < S → blockNo m₂ ino b ≠ 0 ∧
      m₂' (blkSize * blockNo m₂ ino b + k) = m₂ (blkSize * blockNo m₂ ino b + k) := by
    intro b k hb hk hlt
    obtain ⟨hne, hsame⟩ := h.bytes b k hb hk hlt
    have hval : blockNo m₂ ino b = blockNo m ino b := hkeep.ext.vals _ hne
    rw [hval]
    exact ⟨hne, hf.same hsame⟩
  refine ⟨r, d₁, m₂, m₂', hrun, hrun', hf, fun hr => ⟨hkeep.sane, (hfail hr).trans h.size, hkin, hold⟩,
    fun hr => ?_⟩
  obtain ⟨m₁, q, mf, hp, hfill, rfl, hw⟩ := hput hr
  have hbeside : Beside mf (put mf ino (q.val mf) buf) := put_beside (hp.sane.filled hp.there hfill)
    hp.data (hp.sane.filled_val hp.there hfill) hlen
  refine ⟨⟨hkeep.sane, ?_, hkin, fun b k hb hk hlt => ?_⟩, hkeep.ready r d₁ _ rfl hr,
    h.early_step hdiv hbuf hlen hp hfill, fun hl y hy => hf.same (h.due hl y hy)⟩
  · rw [put_size, filled_size hp.sane hp.there hfill, hp.size, h.size, Nat.mod_add_mod]
  · by_cases hlt' : blkSize * b + k < S
    · exact hold b k hb hk hlt'
    · -- the byte is one of the read
      obtain ⟨K, rfl⟩ := hdiv
      obtain rfl : b = K := by
        unfold blkSize at *
        omega
      have hsize : fileSize m ino / blkSize = b := by
        rw [h.size, Nat.mod_eq_of_lt (by unfold fileBlocks blkSize at *; omega)]
        exact Nat.mul_div_cancel_left b (by decide)
      rw [hsize] at hp
      obtain rfl := (hp.place hb).1
      have hval : blockNo (put mf ino ((filePlace ino b).val mf) buf) ino b = (filePlace ino b).val mf :=
        hbeside.val _
      rw [hval]
      exact ⟨hp.sane.filled_val hp.there hfill, hw.stored ⟨k, by omega, rfl⟩⟩

/-- RUN: all of the file. -/
theorem Going.chunks (t : Nat) {chunks : List (List UInt8)} (hne : ∀ c ∈ chunks, c ≠ [])
    (hfit : ∀ c ∈ chunks, c.length ≤ blkSize) (hwhole : ∀ c ∈ chunks.dropLast, c.length = blkSize)
    (h : Going long ino S m m' d) (hdiv : chunks ≠ [] → blkSize ∣ S)
    (hlong : long ∨ S + chunks.flatten.length ≤ blkSize * 10) :
    ∃ r m₂ m₂' S', writeChunks (t + 2) (inode ino) chunks d m = .ok r m₂ ∧
      writeChunks (t + 2) (inode ino) chunks d m' = .ok r m₂' ∧
      Follows (fun _ => False) m m' m₂ m₂' ∧ Alike ino S' m₂ m₂' := by
  induction chunks generalizing d m m' S with
  | nil => exact ⟨0, m, m', S, rfl, rfl, .refl m m', h.toAlike⟩
  | cons buf rest ih =>
    rw [List.flatten_cons, List.length_append] at hlong
    have hdvd := hdiv (List.cons_ne_nil _ _)
    obtain ⟨r, d₁, m₁, m₁', hrun, hrun', hf, hfail, hgo⟩ := h.step (t := t) hdvd
      (hne buf List.mem_cons_self) (hfit buf List.mem_cons_self)
      (hlong.imp_right fun hle => by omega)
    have hmod : fileSize m ino % blkSize = 0 := by
      rw [h.size]
      exact Nat.mod_eq_zero_of_dvd ((Nat.dvd_mod_iff (by decide)).mpr hdvd)
    have hmod' : fileSize m' ino % blkSize = 0 := by rwa [h.kin.fileSize]
    rw [writeChunks, Act.bind_ok load_size, Act.bind_ok load_size, hmod, hmod']
    simp only []
    rw [Act.bind_ok hrun, Act.bind_ok hrun']
    by_cases hr : r < 0
    · simp only [hr, if_true]
      exact ⟨-1, m₁, m₁', S, rfl, rfl, hf, hfail hr⟩
    · simp only [hr, if_false]
      obtain ⟨r₂, m₂, m₂', S', h₂, h₂', hf₂, ha⟩ := ih (fun c hc => hne c (List.mem_cons_of_mem _ hc))
        (fun c hc => hfit c (List.mem_cons_of_mem _ hc)) (wholes_rest hwhole) (hgo hr)
        (wholes_dvd hwhole hdvd) (hlong.imp_right fun hle => by omega)
      exact ⟨r₂, m₂, m₂', S', h₂, h₂', hf.after hf₂, ha⟩

end Going

/-! ## Formatting -/

/-- The formatted image once the directory has got its block. -/
def grown (m : Mem) : Mem :=
  given (resized (formatted m) root blkSize) (blockSlot (inode root) 0) firstBlock

/-- And once the file has got its entry and its inode. -/
def begun (m : Mem) (name : List UInt8) : Mem :=
  entered (grown m) firstIno (blkSize * firstBlock) name

section Formatting

variable {m m' : Mem} {name : List UInt8} {n i y : Nat}

theorem first_freeNo (m : Mem) : freeNo (formatted m) = some firstBlock := by
  have hfree : blkFree (formatted m) firstBlock = true := by
    rw [formatted_blkFree]
    decide
  cases hno : freeNo (formatted m) with
  | none => exact absurd hno (Bitmap.firstFrom_ne_none (Nat.zero_le firstBlock) (by decide) hfree)
  | some no => rw [freeNo_of_from (fun _ => formatted_blkFree) hno]

/-- `alloc_file` on a formatted image, whatever it held. -/
theorem first_alloc (m : Mem) : allocFile (formatted m) = .ok (0, some (blkSize * firstBlock)) (grown m) := by
  have hload : ∀ x : Mem, load 4 (inode rootInode + diSizeOff) x = .ok (fileSize x root) x :=
    fun x => @load_size x root
  have hloop : allocLoop (inode rootInode) (0 / blkSize) 0 0 none (formatted m) =
      .ok (.on none) (formatted m) := rfl
  have hnum : numbered (formatted m) root 0 = some (formatted m) := rfl
  have haddr : (filePlace root 0).addr (formatted m) = blockSlot (inode root) 0 := rfl
  have happend := appendBlock_given (by decide) hnum (first_freeNo m) (by rw [haddr]; decide) none
  rw [formatted_size, haddr, Nat.zero_add] at happend
  unfold allocFile
  rw [Act.bind_ok (hload _), formatted_size, if_neg (by decide)]
  exact (Act.bind_ok hloop).trans happend

/-- What is left of `create_file_image` then. -/
theorem first_create (t : Nat) (m : Mem) (name : List UInt8) (file : Option Reads) :
    createFileImage t name file (formatted m) = (do
      let _ ← writeFile t file (inode firstIno)
      return 0) (begun m name) := by
  have hwalk : walkPath name (formatted m) = .ok (-1) (formatted m) := by
    have hload : load 4 (inode rootInode + diSizeOff) (formatted m) =
        .ok (fileSize (formatted m) root) (formatted m) := @load_size _ root
    unfold walkPath
    rw [Act.bind_ok hload, formatted_size]
    rfl
  have hino : freeIno (grown m) = some firstIno.val := by
    have hsame : ∀ x, x / blkSize = 3 → grown m x = formatted m x := by
      intro x hx
      have hsmall : x < inode root := by
        rw [inode_eq]
        unfold blkSize at hx
        omega
      have hslot : x < blockSlot (inode root) 0 := hsmall.trans (by decide)
      rw [grown, given_out (by decide) (by omega) (.inl hslot), resized_out (.inl hsmall)]
    rw [freeIno, funext (inoFree_congr hsame)]
    exact first_freeIno m
  exact createFileImage_run hwalk (first_alloc m) (by decide) hino (by decide)

theorem cleared_follows (h : ∀ y, y / blkSize = 2 → m' y = m y) (hn : i + n ≤ blocks) :
    Follows (fun _ => False) m m' (cleared m blkBitmap n i) (cleared m' blkBitmap n i) := by
  induction n generalizing i m m' with
  | zero => exact .refl m m'
  | succ n ih =>
    have hclear : Follows (fun _ => False) m m' (Bitmap.clear m blkBitmap i)
        (Bitmap.clear m' blkBitmap i) := .clear fun y h1 h2 => h y (by
      unfold blocks at hn
      unfold blkBitmap at h1 h2
      unfold blkSize at *
      omega)
    exact hclear.after (ih (fun y hy => hclear.same (h y hy)) (by omega))

/-- Everything up to the root inode's end is made anew. -/
theorem formatted_follows (m m' : Mem) :
    Follows (fun y => blkSize ≤ y ∧ y < inode root + inodeSize) m m' (formatted m)
      (formatted m') := by
  have hsuper := Follows.overlay m m' (blkSize * 1) blkSize superBlock
  have hblk := Follows.overlay (m.overlay (blkSize * 1) blkSize superBlock)
    (m'.overlay (blkSize * 1) blkSize superBlock) blkBitmap blkSize fun _ => 0xFF
  have hino := hblk.trans (.overlay _ _ inoBitmap blkSize fun _ => 0xFF)
  have hbits := hino.after (cleared_follows (n := 14) (i := 0) (fun y hy => hino.stored (.inl (by
    unfold blkBitmap
    unfold blkSize at *
    omega))) (by decide))
  have hroot := hbits.trans (.overlay _ _ (inode rootInode) inodeSize fun _ => 0)
  have hsize := hroot.after (.wr _ _ 4 (inode rootInode + diSizeOff) 0)
  have htype := hsize.after (.wr _ _ 2 (inode rootInode + diTypeOff) 1)
  have hlast := htype.after (@Follows.clear _ _ inoBitmap 0 fun y h1 h2 =>
    htype.stored (.inl (.inr (by
      unfold inoBitmap at *
      unfold blkSize at *
      omega))))
  refine (hsuper.trans hlast).weaken fun y hy => ?_
  have hstart : inode root = 16384 := rfl
  have hstart' : inode rootInode = 16384 := rfl
  rw [hstart] at hy
  rw [hstart']
  unfold blkBitmap inoBitmap
  unfold blkSize at *
  omega

theorem entered_follows {ino : Nat} (d : Nat) (name : List UInt8) (h : ∀ y, y / blkSize = 3 → m' y = m y) (hino : ino < blocks) :
    Follows (fun y => inode ino ≤ y ∧ y < inode ino + 4 ∨ d ≤ y ∧ y < d + directSize) m m'
      (entered m ino d name) (entered m' ino d name) := by
  have hbit : Follows (fun _ => False) m m' (Bitmap.clear m inoBitmap ino)
      (Bitmap.clear m' inoBitmap ino) := .clear fun y h1 h2 => h y (by
    unfold blocks at hino
    unfold inoBitmap at h1 h2
    unfold blkSize at *
    omega)
  have hsize := hbit.trans (.wr _ _ 4 (inode ino + diSizeOff) 0)
  have htype := hsize.after (.wr _ _ 2 (inode ino + diTypeOff) 0)
  have hno := htype.trans (.wr _ _ 2 (d + inoOff) ino)
  refine (hno.trans (.overlay _ _ (d + nameOff) 14 fun i => name.getD i 0)).weaken fun y hy => ?_
  unfold directSize at hy
  unfold diSizeOff inoOff nameOff
  omega

/-- What `main` has made anew when the file is to be written: the super block, the bitmaps and the root
inode, the size of the file's inode, and its entry. -/
theorem begun_follows (m m' : Mem) (name : List UInt8) :
    Follows (fun y => (blkSize ≤ y ∧ y < inode root + inodeSize) ∨
      (inode firstIno ≤ y ∧ y < inode firstIno + 4) ∨
      blkSize * firstBlock ≤ y ∧ y < blkSize * firstBlock + directSize) m m' (begun m name)
      (begun m' name) := by
  have hformat := formatted_follows m m'
  have hsize := hformat.after (.wr (formatted m) (formatted m') 4 (inode root + diSizeOff) blkSize)
  have hbits : ∀ y, y / blkSize = 2 ∨ y / blkSize = 3 →
      resized (formatted m') root blkSize y = resized (formatted m) root blkSize y := by
    intro y hy
    have hstart : inode root = 16384 := rfl
    refine hsize.stored ?_
    rw [hstart]
    unfold blkSize at *
    omega
  have hgiven := given_follows (blockSlot (inode root) 0) (fun y hy => hbits y (.inl hy))
    (show firstBlock < blocks by decide)
  have hentered := entered_follows (blkSize * firstBlock) name
    (fun y hy => hgiven.same (hbits y (.inr hy))) (show firstIno.val < blocks by decide)
  exact (hsize.after hgiven).trans hentered

/-- The slots of the file's inode, and what is behind it, are left. -/
theorem begun_out {y : Nat} (h1 : inode firstIno + 8 ≤ y) (h2 : y < blkSize * firstBlock) :
    begun m name y = m y := by
  have hfirst : inode firstIno = 16416 := rfl
  have hroot : inode root = 16384 := rfl
  have hroot' : inode rootInode = 16384 := rfl
  have hslot : blockSlot (inode root) 0 = 16394 := blockSlot_eq 0 0
  rw [hfirst] at h1
  have hblk : y / blkSize ≠ 2 ∧ y / blkSize ≠ 3 := by
    unfold blkSize
    omega
  calc begun m name y = inodeTaken (grown m) firstIno y := entered_out (.inl h2)
    _ = grown m y := inodeTaken_out hblk.2 (.inr (by rwa [hfirst]))
    _ = resized (formatted m) root blkSize y :=
      given_out (by decide) hblk.1 (.inr (by rw [hslot]; omega))
    _ = formatted m y := resized_out (.inr (by rw [hroot]; omega))
    _ = m y := formatted_out (.inr (by
      rw [hroot']
      unfold inodeSize
      omega))

end Formatting

/-! ## Beside a blank image -/

/-- Where the old image is nought: the slots of the file's inode, the names of the directory's block
after the first, and the block of numbers if the file needs one. -/
structure Clean (m : Mem) (file : Option Reads) : Prop where
  slots : ∀ i : Fin 11, Place.val m (.slot firstIno i) = 0
  unnamed : ∀ e, 1 ≤ e → e < entries → m (entryAt firstBlock e + nameOff) = 0
  numbers : ∀ f, file = some f → blkSize * 10 < f.bytes.length →
    ∀ x, x / blkSize = firstData + 10 → m x = 0

section Beside

variable {m m' m₁ : Mem} {name : List UInt8} {file : Option Reads} {r : Int} {t : Nat}

theorem grown_obtained : Obtained (formatted blank) (grown blank) 0 ∧
    slotAt (grown blank) 0 = blkSize * firstBlock := by
  have hslot : slotFor (formatted blank) = 0 := holding_start.slotFor (by decide) (by decide)
  have hend := allocFile_end blank_formed.toRooted blank_formed.small
  rw [first_alloc] at hend
  obtain ⟨-, hd, hgot⟩ := hend.obtained blank_formed.toRooted blank_formed.small
  rw [hslot] at hd hgot
  exact ⟨hgot, hd.symm⟩

theorem begun_beside (name : List UInt8) : Beside (grown blank) (begun blank name) := by
  obtain ⟨hgot, hd⟩ := grown_obtained
  have hb := @entered_beside _ firstIno _ name hgot.rooted (slot_rootEntry hgot.slot)
  rw [hd] at hb
  exact hb

theorem begun_fresh (name : List UInt8) : Sane (begun blank name) ∧ Fresh (begun blank name) firstIno := by
  obtain ⟨hgot, hd⟩ := grown_obtained
  have hfree : inoFree (formatted blank) firstIno = true := by
    rw [formatted_inoFree]
    decide
  have hentered : Sane (entered (grown blank) firstIno (slotAt (grown blank) 0) name) ∧
      Fresh (entered (grown blank) firstIno (slotAt (grown blank) 0) name) firstIno ∧ _ :=
    hgot.entered hfree
  rw [hd] at hentered
  exact ⟨hentered.1, hentered.2.1⟩

/-- The bitmaps do not depend on what the image held. -/
theorem begun_bitmaps (m : Mem) (name : List UInt8) {y : Nat} (hy : y / blkSize = 2 ∨ y / blkSize = 3) :
    begun m name y = begun blank name y := by
  have hroot : inode root + inodeSize = 16416 := rfl
  refine (begun_follows blank m name).stored (.inl ?_)
  rw [hroot]
  unfold blkSize at *
  omega

/-- The first file's blocks are the next ones. -/
theorem begun_blkFree (m : Mem) (name : List UInt8) (no : Nat) :
    blkFree (begun m name) no = decide (firstData ≤ no ∧ no < blocks) := by
  have hb : Beside (formatted blank) (resized (formatted blank) root blkSize) :=
    resized_beside blank_formed.sane
  have hslot : 12288 ≤ blockSlot (inode root) 0 := by
    rw [blockSlot_eq]
    omega
  rw [blkFree_congr (fun y hy => begun_bitmaps m name (.inl hy)), (begun_beside name).blkFree, grown,
    given_blkFree hslot, hb.blkFree, formatted_blkFree, ← Bool.decide_and]
  unfold firstBlock firstData
  exact decide_eq_decide.mpr (by omega)

/-- Its inode is live. -/
theorem begun_inoFree (m : Mem) (name : List UInt8) : inoFree (begun m name) firstIno = false := by
  obtain ⟨hgot, hd⟩ := grown_obtained
  have hlive := @entered_inoFree _ firstIno _ name (slot_rootEntry hgot.slot) hgot.rooted firstIno
  rw [hd, decide_eq_false (not_not.mpr rfl), Bool.and_false] at hlive
  rw [inoFree_congr fun y hy => begun_bitmaps m name (.inr hy)]
  exact hlive

/-- START: nothing is written yet. -/
theorem going_start (long : Prop) (name : List UInt8)
    (hslots : ∀ i : Fin 11, Place.val m (.slot firstIno i) = 0)
    (hdue : long → ∀ x, x / blkSize = firstData + 10 → m x = 0) :
    Going long firstIno 0 (begun blank name) (begun m name) none := by
  obtain ⟨hsane, hfresh⟩ := begun_fresh name
  have hb := begun_follows blank m name
  have hfirst : inode firstIno = 16416 := rfl
  have hkin : Kin firstIno (begun blank name) (begun m name) := by
    refine ⟨fun y hy => begun_bitmaps m name (.inl hy),
      fun y h1 h2 => hb.stored (.inr (.inl ⟨h1, h2⟩)), fun y h1 h2 => hb.same ?_,
      fun hne => absurd (hfresh.slots 10) hne⟩
    -- the byte is in a slot, and the slot is nought
    unfold inodeSize at h2
    rw [hfirst] at h1 h2
    obtain ⟨i, hi, hlo, hhi⟩ : ∃ i < 11, 16426 + 2 * i ≤ y ∧ y < 16426 + 2 * i + 2 :=
      ⟨(y - 16426) / 2, by omega, by omega, by omega⟩
    have haddr : blockSlot (inode firstIno) i = 16426 + 2 * i := by
      rw [blockSlot_eq]
      rfl
    have hslot : Mem.rd 2 m (blockSlot (inode firstIno) i) = 0 := hslots ⟨i, hi⟩
    rw [haddr] at hslot
    exact Mem.zero_of_rd hslot hlo hhi
  refine ⟨⟨hsane, hfresh.size, hkin, fun b k _ _ hlt => absurd hlt (Nat.not_lt_zero _)⟩,
    .inl (by rw [hfresh.size]; decide), fun _ => ⟨Nat.zero_le _, fun no => ?_, fun b hb _ => ?_⟩,
    fun hl y hy => hb.same (hdue hl y hy)⟩
  · rw [begun_blkFree]
    rfl
  · exact hfresh.written.bare b (by unfold fileBlocks; omega) (Nat.zero_le _)

/-- `main`, where the file is written. -/
theorem main_first (h : writeFile t file (inode firstIno) (begun m name) = .ok r m') :
    main t name file m = .ok 0 m' := by
  unfold main
  rw [Act.bind_ok (format_run m), Act.bind_ok ((first_create t m name file).trans (Act.bind_ok h))]
  rfl

/-- RUN: both are written, in the same way. -/
theorem writeFile_alike (hread : ReadWhole file) (h : Clean m file) (name : List UInt8) (t : Nat) :
    ∃ r m₁ m' S, writeFile (t + 2) file (inode firstIno) (begun blank name) = .ok r m₁ ∧
      writeFile (t + 2) file (inode firstIno) (begun m name) = .ok r m' ∧
      Follows (fun _ => False) (begun blank name) (begun m name) m₁ m' ∧ Alike firstIno S m₁ m' := by
  cases file with
  | none =>
    have hgo := going_start False name h.slots False.elim
    exact ⟨-1, _, _, 0, rfl, rfl, .refl _ _, hgo.toAlike⟩
  | some f =>
    have hgo := going_start (blkSize * 10 < f.bytes.length) name h.slots (h.numbers f rfl)
    have hlong : blkSize * 10 < f.bytes.length ∨ 0 + f.chunks.flatten.length ≤ blkSize * 10 := by
      rw [Nat.zero_add]
      exact Nat.lt_or_ge _ _
    obtain ⟨r, m₁, m', S, hrun, hrun', hf, ha⟩ := hgo.chunks t f.nonempty f.fits (hread f rfl)
      (fun _ => Nat.dvd_zero _) hlong
    exact ⟨r, m₁, m', S, hrun, hrun', hf, ha⟩

/-- The directory has the one block, and no block of numbers. -/
theorem begun_root (name : List UInt8) : blockNo (begun blank name) root 0 = firstBlock ∧
    indirect (begun blank name) root = 0 := by
  obtain ⟨hgot, hd⟩ := grown_obtained
  have hb := begun_beside name
  have hval : blockNo (begun blank name) root 0 = blockNo (grown blank) root 0 := hb.val _
  refine ⟨?_, ?_⟩
  · rw [hval]
    rw [slotAt, entryAt, Nat.zero_div, Nat.zero_mod, Nat.mul_zero, Nat.add_zero] at hd
    exact Nat.eq_of_mul_eq_mul_left (by decide) hd
  · rw [hb.indirect root.isLt]
    have hslot : blockSlot (inode root) 0 = 16394 := blockSlot_eq 0 0
    have hlast : blockSlot (inode root) 10 = 16414 := blockSlot_eq 0 10
    have hsize : inode root + 4 = 16388 := rfl
    calc Mem.rd 2 (grown blank) (blockSlot (inode root) 10)
        = Mem.rd 2 (resized (formatted blank) root blkSize) (blockSlot (inode root) 10) :=
          given_rd (by decide) (by rw [hlast]; decide) (.inr (by rw [hslot, hlast]; decide))
      _ = Mem.rd 2 (formatted blank) (blockSlot (inode root) 10) :=
          Mem.rd_congr fun y h1 _ => resized_out (.inr (by
            rw [hlast] at h1
            omega))
      _ = 0 := formatted_slot 10

end Beside

/-! ## The same file system -/

/-- Byte `x` of a file. -/
def byteOf (m : Mem) (ino : Fin inodes) (x : Nat) : UInt8 :=
  m (blkSize * blockNo m ino (x / blkSize) + x % blkSize)

/-- Two images hold the same file system: the same inodes are live, and have the same sizes and the
same bytes; the same entries of the directory have a name, and are the same. -/
structure SameSystem (m m' : Mem) : Prop where
  live : ∀ ino : Fin inodes, inoFree m' ino = inoFree m ino
  blocks : rootBlocks m' = rootBlocks m
  sizes : ∀ ino : Fin inodes, inoFree m ino = false → fileSize m' ino = fileSize m ino
  empty : ∀ n, n / entries < rootBlocks m → vacant m' n = vacant m n
  named : ∀ n k, n / entries < rootBlocks m → vacant m n = false → k < directSize →
    dirents m' (directSize * n + k) = dirents m (directSize * n + k)
  bytes : ∀ (ino : Fin inodes) (x : Nat), ino ≠ root → inoFree m ino = false → x < fileSize m ino →
    x / blkSize < fileBlocks → byteOf m' ino x = byteOf m ino x

/-- Every block that a live inode refers to is marked used. -/
def Marked (m : Mem) : Prop := ∀ q : Place, inoFree m q.owner = false → q.val m ≠ 0 →
  q.val m < blocks ∧ blkFree m (q.val m) = false

section Same

variable {m m' m'' m₁ : Mem} {name : List UInt8} {file : Option Reads} {S : Nat}

theorem SameSystem.symm (h : SameSystem m m') : SameSystem m' m where
  live ino := (h.live ino).symm
  blocks := h.blocks.symm
  sizes ino hino := (h.sizes ino (by rwa [← h.live])).symm
  empty n hn := (h.empty n (by rwa [← h.blocks])).symm
  named n k hn hne hk := by
    rw [h.blocks] at hn
    rw [h.empty n hn] at hne
    exact (h.named n k hn hne hk).symm
  bytes ino x hroot hino hx hb := by
    rw [h.live] at hino
    rw [h.sizes ino hino] at hx
    exact (h.bytes ino x hroot hino hx hb).symm

theorem SameSystem.trans (h : SameSystem m m') (h' : SameSystem m' m'') : SameSystem m m'' where
  live ino := (h'.live ino).trans (h.live ino)
  blocks := h'.blocks.trans h.blocks
  sizes ino hino := (h'.sizes ino (by rwa [h.live])).trans (h.sizes ino hino)
  empty n hn := (h'.empty n (by rwa [h.blocks])).trans (h.empty n hn)
  named n k hn hne hk := by
    have hn' : n / entries < rootBlocks m' := by rwa [h.blocks]
    have hne' : vacant m' n = false := by rwa [h.empty n hn]
    exact (h'.named n k hn' hne' hk).trans (h.named n k hn hne hk)
  bytes ino x hroot hino hx hb := by
    have hino' : inoFree m' ino = false := by rwa [h.live]
    have hx' : x < fileSize m' ino := by rwa [h.sizes ino hino]
    exact (h'.bytes ino x hroot hino' hx' hb).trans (h.bytes ino x hroot hino hx hb)

/-- A sane image has its blocks marked. -/
theorem Sane.marked (h : Sane m) : Marked m := fun q _ hne =>
  ⟨(h.sound.range q hne).2, h.sound.used q hne⟩

/-- What comes of a blank image has two live inodes. -/
theorem made_live (h : Made (formatted blank) m firstIno name) {ino : Fin inodes}
    (hino : inoFree m ino = false) : ino = root ∨ ino = firstIno := by
  have hlt := ino.isLt
  have hzero : root.val = 0 := rfl
  have hone : firstIno.val = 1 := rfl
  rw [h.inoFree, formatted_inoFree, ← Bool.decide_and, decide_eq_false_iff_not, hone] at hino
  have hcase : ino.val = root.val ∨ ino.val = firstIno.val := by
    unfold inodes at hlt
    unfold blocks at hino
    omega
  exact hcase.imp Fin.ext Fin.ext

/-- And one directory block, with one name in it. -/
theorem made_first (h : Made (formatted blank) m firstIno name) : rootBlocks m = 1 ∧
    ∀ n, vacant m n = false → n = 0 := by
  have hslot : slotFor (formatted blank) = 0 := holding_start.slotFor (by decide) (by decide)
  have hzero : rootBlocks (formatted blank) = 0 := holding_start.blocks
  refine ⟨by rw [h.blocks, hzero, hslot]; rfl, fun n hn => ?_⟩
  by_contra hne
  have hout : dirents m (directSize * n + nameOff) = dirents (formatted blank) (directSize * n + nameOff) := by
    rw [h.dirents, hslot, Mem.overlay_out (by unfold directSize; omega)]
  rw [vacant, hout, ← vacant, holding_start.vacant, decide_eq_false_iff_not] at hn
  exact hn (Nat.zero_le n)

/-- Where the entries of the one block are. -/
theorem dirents_first (hblocks : rootBlocks m = 1) (hno : blockNo m root 0 = firstBlock) {n k : Nat}
    (hn : n / entries < 1) (hk : k < directSize) :
    dirents m (directSize * n + k) = m (entryAt firstBlock n + k) := by
  have hdiv : n / entries = 0 := Nat.lt_one_iff.mp hn
  have hmod : n % entries = n := Nat.mod_eq_of_lt ((Nat.div_eq_zero_iff_lt (by decide)).mp hdiv)
  rw [dirents_slot (by rwa [hblocks]) hk, slotAt, hdiv, hmod, hno]

/-- The directories have the same inode, and so the one block each. -/
theorem kin_root (hext : Extends firstIno (begun blank name) m₁)
    (hf : Follows (fun _ => False) (begun blank name) (begun m name) m₁ m') : Kin root m₁ m' ∧
      (∀ no, inoFree m' no = inoFree m₁ no) ∧ blockNo m₁ root 0 = firstBlock := by
  have hb := begun_follows blank m name
  have hstart : inode root = 16384 := rfl
  have hne : root ≠ firstIno := by decide
  have hhead : ∀ y, blkSize ≤ y → y < inode root + inodeSize → m' y = m₁ y := fun y h1 h2 =>
    hf.same (hb.stored (.inl ⟨h1, h2⟩))
  obtain ⟨hno, hind⟩ := begun_root name
  have hind₁ : indirect m₁ root = 0 := (hext.others (.slot root 10) hne).trans hind
  rw [hstart] at hhead
  unfold inodeSize at hhead
  have hbitmap : ∀ y, y / blkSize = 2 ∨ y / blkSize = 3 → m' y = m₁ y := by
    intro y hy
    apply hhead
    all_goals
      unfold blkSize at *
      omega
  refine ⟨⟨fun y hy => hbitmap y (.inl hy), fun y h1 h2 => ?_, fun y h1 h2 => ?_,
    fun hne => absurd hind₁ hne⟩, inoFree_congr fun y hy => hbitmap y (.inr hy),
    (hext.others (.slot root 0) hne).trans hno⟩
  all_goals
    rw [hstart] at h1 h2
    unfold inodeSize at *
    apply hhead
    all_goals
      unfold blkSize at *
      omega

/-- SAME: what comes of an old image that is nought in these places is what comes of a blank one. -/
theorem Alike.same (ha : Alike firstIno S m₁ m') (hmade : Made (formatted blank) m₁ firstIno name)
    (hext : Extends firstIno (begun blank name) m₁)
    (hf : Follows (fun _ => False) (begun blank name) (begun m name) m₁ m') (h : Clean m file) :
    SameSystem m₁ m' ∧ Marked m' := by
  have hb := begun_follows blank m name
  obtain ⟨hkin, hlive, hno⟩ := kin_root hext hf
  obtain ⟨hblocks, hnamed⟩ := made_first hmade
  have hblocks' : rootBlocks m' = 1 := by
    rw [← hblocks, rootBlocks, rootBlocks, hkin.fileSize]
  have hno' : blockNo m' root 0 = firstBlock := (hkin.val rfl).trans hno
  have hval : ∀ q : Place, inoFree m₁ q.owner = false → q.val m' = q.val m₁ := fun q hq =>
    (made_live hmade hq).elim hkin.val ha.kin.val
  refine ⟨⟨fun ino => hlive ino, hblocks'.trans hblocks.symm, fun ino hino => ?_, fun n hn => ?_,
    fun n k hn hne hk => ?_, fun ino x hroot hino hx hblk => ?_⟩, fun q hq hne => ?_⟩
  · obtain rfl | rfl := made_live hmade hino
    · exact hkin.fileSize
    · exact ha.kin.fileSize
  · -- the name of an entry after the first was nought
    rw [hblocks] at hn
    unfold vacant
    rw [dirents_first hblocks' hno' hn (by decide), dirents_first hblocks hno hn (by decide)]
    have hbyte : m' (entryAt firstBlock n + nameOff) = m₁ (entryAt firstBlock n + nameOff) := by
      rcases Nat.eq_zero_or_pos n with rfl | hpos
      · exact hf.same (hb.stored (.inr (.inr (by
          unfold entryAt directSize nameOff
          omega))))
      · exact hf.same (hb.same (h.unnamed n hpos ((Nat.div_eq_zero_iff_lt (by decide)).mp
          (Nat.lt_one_iff.mp hn))))
    rw [hbyte]
  · obtain rfl := hnamed n hne
    rw [hblocks] at hn
    rw [dirents_first hblocks' hno' hn hk, dirents_first hblocks hno hn hk]
    exact hf.same (hb.stored (.inr (.inr (by
      unfold entryAt
      omega))))
  · obtain rfl := (made_live hmade hino).resolve_left hroot
    have hlt : blkSize * (x / blkSize) + x % blkSize < S := by
      rw [ha.size] at hx
      rw [Nat.div_add_mod]
      exact Nat.lt_of_lt_of_le hx (Nat.mod_le _ _)
    have hsame : blockNo m' firstIno (x / blkSize) = blockNo m₁ firstIno (x / blkSize) :=
      ha.kin.val (filePlace_owner _ _)
    rw [byteOf, byteOf, hsame]
    exact (ha.bytes _ _ hblk (Nat.mod_lt x (by decide)) hlt).2
  · rw [hlive] at hq
    rw [hval q hq] at hne ⊢
    rw [hkin.blkFree]
    exact ha.sane.marked q hq hne

/-- RUN: `main` on an old image, and on a blank one. -/
theorem main_same (hread : ReadWhole file) (h : Clean m file) (name : List UInt8) (t : Nat) :
    ∃ m₁ m', main (t + 2) name file blank = .ok 0 m₁ ∧ main (t + 2) name file m = .ok 0 m' ∧
      SameSystem m₁ m' ∧ Marked m' := by
  obtain ⟨r, m₁, m', S, hrun, hrun', hf, ha⟩ := writeFile_alike hread h name t
  obtain ⟨hsane, hfresh⟩ := begun_fresh name
  obtain ⟨-, hext⟩ := writeFile_keeps (t + 2) file hsane hfresh.size
  rw [hrun] at hext
  have hc : Call.Enters ⟨t + 2, name, file⟩ (formatted blank) := first_enters _
  have hmade := hc.made blank_formed.toRooted blank_formed.small (first_freeIno blank)
  unfold Call.after at hmade
  rw [first_create, Act.bind_ok hrun] at hmade
  exact ⟨m₁, m', main_first hrun, main_first hrun', ha.same hmade hext hf h⟩

end Same

/-- What two images held makes no difference to what `main` makes of them. -/
def Independent (name : List UInt8) (file : Option Reads) (m₁ m₂ : Mem) : Prop :=
  ∃ turns m₁' m₂', main turns name file m₁ = .ok 0 m₁' ∧ main turns name file m₂ = .ok 0 m₂' ∧
    SameSystem m₁' m₂' ∧ Marked m₁' ∧ Marked m₂'

/-- INDEPENDENCE: the images hold the same file system, if both were nought where `main` takes what it
finds. -/
theorem format_independent (name : List UInt8) (file : Option Reads) (m₁ m₂ : Mem)
    (hread : ReadWhole file) (h₁ : Clean m₁ file) (h₂ : Clean m₂ file) :
    Independent name file m₁ m₂ := by
  obtain ⟨m₀, m₁', hrun, hrun₁, hsame₁, hmark₁⟩ := main_same hread h₁ name 0
  obtain ⟨m₀', m₂', hrun', hrun₂, hsame₂, hmark₂⟩ := main_same hread h₂ name 0
  rw [hrun] at hrun'
  cases hrun'
  exact ⟨2, m₁', m₂', hrun₁, hrun₂, hsame₁.symm.trans hsame₂, hmark₁, hmark₂⟩

/-- An image that held something where `main` does not look. -/
def elsewhere : Mem := Mem.wr 2 blank (blkSize * 100) 77

/-- An image whose inode 1 has a number in its sixth slot. -/
def stale : Mem := Mem.wr 2 blank (blockSlot (inode firstIno) 5) 77

/-- A file of two bytes. -/
theorem format_independent_elsewhere : Independent [97] (some sampleWhole) blank elsewhere := by
  have hout : ∀ y, y / blkSize ≠ 100 → elsewhere y = 0 := fun y hy =>
    Mem.wr_out (by unfold blkSize at *; omega)
  have hlong : ¬ blkSize * 10 < sampleWhole.bytes.length := by decide
  refine format_independent [97] (some sampleWhole) blank elsewhere (fun f hf => ?_)
    ⟨fun i => rfl, fun e _ _ => rfl, fun f _ _ x _ => rfl⟩ ⟨fun i => ?_, fun e _ he => ?_, fun f hf hlt => ?_⟩
  · cases hf
    unfold Reads.Whole
    decide
  · obtain ⟨hlo, hhi⟩ := @slot_inode firstIno _ i.isLt
    have hend : inode firstIno + inodeSize = 16448 := rfl
    exact Mem.rd_zero fun y h1 h2 => hout y (by
      unfold blkSize
      omega)
  · refine hout _ ?_
    unfold entries at he
    unfold entryAt firstBlock directSize nameOff blkSize
    omega
  · cases hf
    exact absurd hlt hlong

/-- Of an empty file: its inode has a block that is not marked used. -/
theorem format_independent_stale : ¬ ∀ (name : List UInt8) (file : Option Reads) (m₁ m₂ : Mem),
    ReadWhole file → Independent name file m₁ m₂ := by
  intro h
  have hread : ReadWhole (some ⟨[], by decide, by decide⟩) := by
    intro f hf
    cases hf
    intro c hc
    cases hc
  obtain ⟨turns, m₁, m₂, -, hrun, -, -, hmarked⟩ := h [97] _ blank stale hread
  rw [main_first (r := 0) rfl] at hrun
  cases hrun
  have hval : Place.val (begun stale [97]) (.slot firstIno 5) = 77 := by
    have hlo : inode firstIno + 8 ≤ blockSlot (inode firstIno) 5 := by decide
    have hhi : blockSlot (inode firstIno) 5 + 2 ≤ blkSize * firstBlock := by decide
    calc Mem.rd 2 (begun stale [97]) (blockSlot (inode firstIno) 5)
        = Mem.rd 2 stale (blockSlot (inode firstIno) 5) := Mem.rd_congr fun y h1 h2 =>
          begun_out (hlo.trans h1) (Nat.lt_of_lt_of_le h2 hhi)
      _ = 77 := Mem.rd_wr_same 2 blank _ 77
  have hused := (hmarked (.slot firstIno 5) (begun_inoFree stale [97]) (by rw [hval]; decide)).2
  rw [hval, begun_blkFree] at hused
  exact absurd hused (by decide)

end Myos.Image
