import Myos.Image.Splits

/-!
# Entering a file

What `alloc_file` and `create_file_image` do to a well-formed image: one that is sane,
whose root directory has a block for each of its blocks and none beside, and whose free
inodes have no blocks (`Formed`). An entry is looked for in the first block of the
directory; else the directory gets a block more. Whatever a call comes to, the image is
well-formed after it, as long as there was an inode of the table to be had.
-/

namespace Myos.Image

open Myos.Lib
open Myos.Kernel (blkSize rootInode inodeSize blockOff blockSlot diSizeOff directSize inoOff nameOff)

/-! ## Whatever `write_file` comes to -/

/-- The pointer is to the number of a block of the file. -/
def Points (m : Mem) (ino : Fin inodes) (d : Option Nat) : Prop :=
  ∃ q : Place, q.owner = ino ∧ q.Data ∧ q.There m ∧ q.val m ≠ 0 ∧ d = some (q.addr m)

/-- The next block of the file has a place, or there is a pointer to another one. -/
def Ready (m : Mem) (ino : Fin inodes) (d : Option Nat) : Prop :=
  fileSize m ino / blkSize < fileBlocks ∨ Points m ino d

section Keeps

variable {m m' : Mem} {ino : Fin inodes} {d : Option Nat}

/-- Wherever it ends, the image is sane and no other file has changed; where the call goes on,
there is a pointer. -/
structure Keeps (ino : Fin inodes) (m : Mem) (o : Res Mem (Int × Option Nat)) : Prop where
  sane : Sane o.state
  ext : Extends ino m o.state
  ready : ∀ r d' m', o = .ok (r, d') m' → ¬ r < 0 → Ready m' ino d'

theorem Keeps.failed {d' : Option Nat} (hm : Sane m') (he : Extends ino m m') :
    Keeps ino m (.ok (-1, d') m') :=
  ⟨hm, he, fun r _ _ h hr => by cases h; exact absurd (Int.negSucc_lt_zero 0) hr⟩

theorem Keeps.after {o : Res Mem (Int × Option Nat)} (he : Extends ino m m') (h : Keeps ino m' o) :
    Keeps ino m o := ⟨h.sane, he.trans h.ext, h.ready⟩

/-- What `walk_block` comes to in the loop: a pointer to a place of the file, or an error. -/
theorem walkBlock_ready (hm : Sane m) (hd : Ready m ino d) :
    walkBlock (inode ino) (fileSize m ino / blkSize) d 1 m = .ok (-1, d) m ∨
      ∃ m₁, ∃ q : Place, walkBlock (inode ino) (fileSize m ino / blkSize) d 1 m =
          .ok (0, some (q.addr m₁)) m₁ ∧
        Sane m₁ ∧ Extends ino m m₁ ∧ q.There m₁ ∧ q.owner = ino ∧ q.Data ∧
        fileSize m₁ ino = fileSize m ino := by
  by_cases hlt : fileSize m ino / blkSize < fileBlocks
  · have hwalk := @walkBlock_alloc m ino _ d hlt
    cases h1 : numbered m ino (fileSize m ino / blkSize) with
    | none =>
      rw [h1] at hwalk
      exact .inl hwalk
    | some m₁ =>
      rw [h1] at hwalk
      have hn := numbered_spec hm h1
      exact .inr ⟨m₁, _, hwalk, hn.sane, hn.ext, hn.there, filePlace_owner _ _,
        filePlace_data _ _, hn.size ino⟩
  · obtain ⟨q, ho, hdata, hthere, -, rfl⟩ := hd.resolve_left hlt
    exact .inr ⟨m, q, walkBlock_past _ _ (Nat.le_of_not_lt hlt), hm, .refl ino m, hthere, ho,
      hdata, rfl⟩

theorem writeLoop_keeps (buf : List UInt8) (offset t i pos : Nat) (hm : Sane m)
    (hd : Ready m ino d) : Keeps ino m (writeLoop (inode ino) buf offset t i pos d m) := by
  induction t generalizing i pos d m with
  | zero => exact ⟨hm, .refl ino m, fun _ _ _ h => by cases h⟩
  | succ t ih =>
    by_cases hi : i < buf.length + offset
    · obtain hfail | ⟨m₁, q, hwalk, hm₁, he₁, hq, ho, hdata, -⟩ := walkBlock_ready hm hd
      · rw [writeLoop, if_pos hi, Act.bind_ok load_size, Act.bind_ok hfail]
        simp only [show (-1 : Int) < 0 by decide, if_true]
        exact .failed hm (.refl ino m)
      · rw [writeLoop_turn (hm₁.usable hq) hwalk hi]
        cases hf : filled m₁ q with
        | none => exact .failed hm₁ he₁
        | some m₂ =>
          have hm₂ := hm₁.filled hq hf
          have he₂ := Extends.filled hm₁ hq hf
          rw [ho] at he₂
          have hne := hm₁.filled_val hq hf
          have haddr := filled_addr hm₁ hq hdata hf
          show Keeps ino m (if clip i buf.length < 0 then _ else _)
          split
          · exact ⟨hm₂, he₁.trans he₂, fun _ _ _ h => by cases h⟩
          · next hneg =>
            have hfit := clip_le hneg
            have hb : Beside m₂ (putAt m₂ ino (q.val m₂) (i % blkSize) (clip i buf.length).toNat
                fun k => buf.getD (pos + k) 0) := putAt_beside hm₂ hdata hne hfit
            have he₃ : Extends q.owner m₂ (putAt m₂ q.owner (q.val m₂) (i % blkSize)
                (clip i buf.length).toNat fun k => buf.getD (pos + k) 0) :=
              putAt_extends hm₂ hdata hne hfit
            rw [ho] at he₃
            refine (ih (i + (clip i buf.length).toNat) (pos + (clip i buf.length).toNat)
              (hm₂.beside hb) (.inr ⟨q, ho, hdata, (hb.there q).mpr haddr.2, ?_, ?_⟩)).after
                ((he₁.trans he₂).trans he₃)
            · rwa [hb.val]
            · rw [hb.addr, haddr.1]
    · rw [writeLoop, if_neg hi]
      exact ⟨hm, .refl ino m, fun r d' m' h _ => by cases h; exact hd⟩

theorem writeChunks_keeps (turns : Nat) (chunks : List (List UInt8)) (hm : Sane m)
    (hd : Ready m ino d) :
    Sane (writeChunks turns (inode ino) chunks d m).state ∧
      Extends ino m (writeChunks turns (inode ino) chunks d m).state := by
  induction chunks generalizing d m with
  | nil => exact ⟨hm, .refl ino m⟩
  | cons buf rest ih =>
    rw [writeChunks, Act.bind_ok load_size]
    have hk := writeLoop_keeps buf (fileSize m ino % blkSize) turns (fileSize m ino % blkSize) 0
      hm hd
    simp only []
    cases hloop : writeLoop (inode ino) buf (fileSize m ino % blkSize) turns
        (fileSize m ino % blkSize) 0 d m with
    | fault m' =>
      rw [Act.bind_fault hloop]
      rw [hloop] at hk
      exact ⟨hk.sane, hk.ext⟩
    | ok o m' =>
      obtain ⟨r, d'⟩ := o
      rw [Act.bind_ok hloop]
      rw [hloop] at hk
      by_cases hr : r < 0
      · simp only [hr, if_true]
        exact ⟨hk.sane, hk.ext⟩
      · simp only [hr, if_false]
        obtain ⟨h1, h2⟩ := ih (m := m') (d := d') hk.sane (hk.ready r d' m' rfl hr)
        exact ⟨h1, hk.ext.trans h2⟩

/-- A read from the start of a block on is one turn, wherever the next block is. -/
theorem writeLoop_whole {buf : List UInt8} (t : Nat) (hm : Sane m) (hd : Ready m ino d)
    (hbuf : buf ≠ []) (hlen : buf.length ≤ blkSize) :
    ∃ r d' m', writeLoop (inode ino) buf 0 (t + 2) 0 0 d m = .ok (r, d') m' ∧
      (¬ r < 0 → fileSize m' ino = (fileSize m ino + buf.length) % 2 ^ 32) := by
  have hpos : 0 < buf.length := List.length_pos_iff.mpr hbuf
  obtain hfail | ⟨m₁, q, hwalk, hm₁, -, hq, -, -, hsize⟩ := walkBlock_ready hm hd
  · refine ⟨-1, d, m, ?_, fun hr => absurd (show (-1 : Int) < 0 by decide) hr⟩
    rw [writeLoop, if_pos (by omega), Act.bind_ok load_size, Act.bind_ok hfail]
    simp only [show (-1 : Int) < 0 by decide, if_true, Act.pure_apply]
  · rw [writeLoop_put (hm₁.usable hq) hwalk hbuf hlen]
    cases hf : filled m₁ q with
    | none => exact ⟨-1, _, m₁, rfl, fun hr => absurd (show (-1 : Int) < 0 by decide) hr⟩
    | some m₂ =>
      refine ⟨0, _, _, writeLoop_end buf.length, fun _ => ?_⟩
      rw [put_size, filled_size hm₁ hq hf, hsize]

/-- A file that is read in whole blocks is written to its end, or to an error. -/
theorem writeChunks_returns (t : Nat) {chunks : List (List UInt8)} (hne : ∀ c ∈ chunks, c ≠ [])
    (hfit : ∀ c ∈ chunks, c.length ≤ blkSize) (hwhole : ∀ c ∈ chunks.dropLast, c.length = blkSize)
    (hm : Sane m) (hd : Ready m ino d) (hdiv : chunks ≠ [] → blkSize ∣ fileSize m ino) :
    ∃ r m', writeChunks (t + 2) (inode ino) chunks d m = .ok r m' := by
  induction chunks generalizing d m with
  | nil => exact ⟨0, m, rfl⟩
  | cons buf rest ih =>
    have hdvd := hdiv (List.cons_ne_nil _ _)
    obtain ⟨r, d', m', hrun, hsize⟩ := writeLoop_whole t hm hd (hne buf List.mem_cons_self)
      (hfit buf List.mem_cons_self)
    have hk := writeLoop_keeps buf 0 (t + 2) 0 0 hm hd
    rw [hrun] at hk
    rw [writeChunks, Act.bind_ok load_size, Nat.mod_eq_zero_of_dvd hdvd]
    simp only []
    rw [Act.bind_ok hrun]
    by_cases hr : r < 0
    · simp only [hr, if_true]
      exact ⟨-1, m', rfl⟩
    · simp only [hr, if_false]
      refine ih (fun c hc => hne c (List.mem_cons_of_mem _ hc))
        (fun c hc => hfit c (List.mem_cons_of_mem _ hc)) (wholes_rest hwhole) hk.sane
        (hk.ready r d' m' rfl hr) fun hrest => ?_
      rw [hsize hr]
      -- a block divides the sizes that there are
      exact (Nat.dvd_mod_iff (by decide)).mpr (wholes_dvd hwhole hdvd hrest)

/-- For any file, however it is read, and any number of turns. -/
theorem writeFile_keeps (turns : Nat) (file : Option Reads) (hm : Sane m)
    (hsize : fileSize m ino = 0) :
    Sane (writeFile turns file (inode ino) m).state ∧
      Extends ino m (writeFile turns file (inode ino) m).state := by
  cases file with
  | none => exact ⟨hm, .refl ino m⟩
  | some file => exact writeChunks_keeps turns file.chunks hm (.inl (by rw [hsize]; decide))

end Keeps

/-! ## Well-formed images -/

/-- How many blocks the root directory has. -/
def rootBlocks (m : Mem) : Nat := fileSize m root / blkSize

/-- How many inodes of the table are free. -/
def freeInodes (m : Mem) : Nat := ((Finset.range inodes).filter fun no => inoFree m no).card

/-- The root directory has a number for each of its blocks and no others, and a free inode has
none. -/
structure Rooted (m : Mem) : Prop where
  sane : Sane m
  whole : blkSize ∣ fileSize m root
  present : ∀ b, b < rootBlocks m → blockNo m root b ≠ 0
  bare : ∀ b, b < fileBlocks → rootBlocks m ≤ b → blockNo m root b = 0
  rootUsed : inoFree m rootInode = false
  fresh : ∀ ino : Fin inodes, inoFree m ino = true → ∀ i, Place.val m (.slot ino i) = 0

/-- The directory has no more blocks than there are inodes in use. -/
structure Formed (m : Mem) : Prop extends Rooted m where
  room : rootBlocks m + freeInodes m ≤ inodes

/-- So there is a place for the number of one block more. -/
theorem Formed.small {m : Mem} (h : Formed m) : rootBlocks m < fileBlocks := by
  have hroom := h.room
  unfold inodes at hroom
  unfold fileBlocks
  omega

/-- The root inode is never free. -/
theorem Rooted.ne_root {m : Mem} {ino : Fin inodes} (h : Rooted m) (hfree : inoFree m ino = true) :
    ino ≠ root := by
  rintro rfl
  rw [show inoFree m root = false from h.rootUsed] at hfree
  cases hfree

/-- The bitmap of the inodes is in a block of its own. -/
theorem inoFree_congr {m m' : Mem} (h : ∀ x, x / blkSize = 3 → m' x = m x) (no : Nat) :
    inoFree m' no = inoFree m no := by
  unfold inoFree
  by_cases hno : no < blocks
  · congr 1
    refine Bitmap.bit_congr (n := 4096) (by unfold blocks at hno; omega) fun x h1 h2 => h x ?_
    unfold inoBitmap blkSize at h1 h2
    unfold blkSize
    omega
  · rw [decide_eq_false hno, Bool.false_and, Bool.false_and]

theorem Extends.inoFree {m m' : Mem} {ino : Fin inodes} (h : Extends ino m m') (hm : Sane m')
    (no : Nat) : inoFree m' no = inoFree m no := by
  refine inoFree_congr (fun x hx => h.bytes x (by omega) (.inl ?_) fun q _ hne he => ?_) no
  · rw [inode_eq]
    unfold blkSize at hx
    omega
  · have hlo : 14 ≤ q.val m' := (hm.sound.range q hne).1
    omega

theorem freeInodes_congr {m m' : Mem} (h : ∀ no, inoFree m' no = inoFree m no) :
    freeInodes m' = freeInodes m := by
  unfold freeInodes
  simp only [h]

theorem blank_rooted : Rooted (formatted blank) where
  sane := blank_sane
  whole := by rw [formatted_size]; exact Nat.dvd_zero _
  present b hb := by
    rw [rootBlocks, formatted_size] at hb
    exact absurd hb (Nat.not_lt_zero _)
  bare b _ _ := blank_val _
  rootUsed := by rw [formatted_inoFree]; rfl
  fresh ino _ i := blank_val _

theorem blank_freeInodes : freeInodes (formatted blank) = 1279 := by
  have hset : ((Finset.range inodes).filter fun no => inoFree (formatted blank) no) =
      Finset.Ico 1 inodes := by
    ext n
    rw [Finset.mem_filter, Finset.mem_range, Finset.mem_Ico, formatted_inoFree, decide_eq_true_iff]
    refine ⟨fun h => ⟨h.2.1, h.1⟩, fun h => ⟨h.2, h.1, h.2.trans (by decide)⟩⟩
  rw [freeInodes, hset, Nat.card_Ico]
  rfl

/-- A blank image is well-formed once it is formatted. -/
theorem blank_formed : Formed (formatted blank) where
  toRooted := blank_rooted
  room := by
    rw [rootBlocks, formatted_size, blank_freeInodes]
    decide

/-! ## Looking for an entry -/

/-- How many entries there are in a block. -/
def entries : Nat := 256

/-- Whether entry `e` of a block has no name. -/
def emptyAt (m : Mem) (no e : Nat) : Bool :=
  decide (m (blkSize * no + directSize * e + nameOff) = 0)

/-- The entry that `alloc_file` finds: it looks in the first block only. -/
def handed (m : Mem) : Option Nat :=
  if rootBlocks m = 0 then none
  else Bitmap.firstFrom (emptyAt m (blockNo m root 0)) entries 0

/-- The address of entry `e` of a block. -/
def entryAt (no e : Nat) : Nat := blkSize * no + directSize * e

section Search

variable {m : Mem} {no e n i : Nat} {d : Option Nat}

theorem load_byte {a : Nat} (h : a + 1 ≤ imgSize) : load 1 a m = .ok (m a).toNat m := by
  rw [load_ok h]
  simp only [Mem.rd, Nat.mul_zero, Nat.add_zero]

theorem allocEntries_run (hno : no < blocks) (n i : Nat) (hi : i + n ≤ entries) :
    allocEntries n (entryAt no i) m =
      .ok ((Bitmap.firstFrom (emptyAt m no) n i).map (entryAt no)) m := by
  induction n generalizing i with
  | zero => rfl
  | succ n ih =>
    have hfit : entryAt no i + nameOff + 1 ≤ imgSize := le_imgSize (by
      unfold entries at hi
      unfold entryAt nameOff directSize blkSize
      unfold blocks at *
      omega)
    have hnext : entryAt no i + directSize = entryAt no (i + 1) := by
      unfold entryAt
      rw [Nat.mul_succ, Nat.add_assoc]
    rw [allocEntries, Act.bind_ok (load_byte hfit), Bitmap.firstFrom]
    by_cases he : m (entryAt no i + nameOff) = 0
    · rw [he, if_pos (show (0 : UInt8).toNat = 0 from rfl),
        if_pos (show emptyAt m no i = true from decide_eq_true he)]
      rfl
    · rw [if_neg (show ¬ (m (entryAt no i + nameOff)).toNat = 0 from fun h =>
          he (UInt8.toNat_inj.mp h)),
        if_neg (show ¬ emptyAt m no i = true from fun h => he (of_decide_eq_true h)), hnext,
        ih (i + 1) (by omega)]

/-- A block of the directory, in the table or in the block of numbers. -/
theorem Rooted.there (h : Rooted m) {b : Nat} (hb : b < rootBlocks m) :
    b < 10 ∨ indirect m root ≠ 0 := by
  by_cases hlow : b < 10
  · exact .inl hlow
  · have hne := h.present b hb
    have hthere := Place.there_of_val (q := filePlace root b) hne
    rw [filePlace_entry hlow] at hthere
    exact .inr hthere

/-- `walk_block` and the number it points at, for a block of the directory. -/
theorem Rooted.walk (h : Rooted m) (hK : rootBlocks m ≤ fileBlocks) {b : Nat}
    (hb : b < rootBlocks m) (alloc : Nat) :
    walkBlock (inode root) b d alloc m = .ok (0, some ((filePlace root b).addr m)) m ∧
      load 2 ((filePlace root b).addr m) m = .ok (blockNo m root b) m := by
  have hthere := filePlace_there (h.there hb)
  refine ⟨walkBlock_there (by omega) (h.there hb) alloc, ?_⟩
  rw [blockNo, Place.val_of_there hthere]
  exact load_ok (le_imgSize (h.sane.addr_lt hthere).2)

/-- The blocks after the first are passed over. -/
theorem allocLoop_rest (h : Rooted m) (hK : rootBlocks m ≤ fileBlocks) (n i : Nat)
    (hi : i + n ≤ rootBlocks m) (d : Option Nat) :
    ∃ d', allocLoop (inode root) n i (blkSize / directSize) d m = .ok (.on d') m := by
  induction n generalizing i d with
  | zero => exact ⟨d, rfl⟩
  | succ n ih =>
    obtain ⟨hwalk, hload⟩ := h.walk (d := d) hK (by omega : i < rootBlocks m) 1
    obtain ⟨d', hrest⟩ := ih (i + 1) (by omega) (some ((filePlace root i).addr m))
    refine ⟨d', ?_⟩
    rw [allocLoop, Act.bind_ok hwalk]
    simp only [Int.lt_irrefl, if_false]
    rw [Act.deref_bind_apply, Act.bind_ok hload, if_pos (h.present i (by omega)), Nat.sub_self]
    show allocLoop _ n (i + 1) (max (blkSize / directSize) (blkSize / directSize)) _ m = _
    rw [Nat.max_self]
    exact hrest

/-- What the loop of `alloc_file` comes to. -/
theorem allocLoop_run (h : Rooted m) (hK : rootBlocks m ≤ fileBlocks) :
    ∃ d, allocLoop (inode root) (rootBlocks m) 0 0 none m =
      .ok (match handed m with
        | some e => .done 0 (some (entryAt (blockNo m root 0) e))
        | none => .on d) m := by
  unfold handed
  cases hn : rootBlocks m with
  | zero => exact ⟨none, rfl⟩
  | succ n =>
    obtain ⟨hwalk, hload⟩ := h.walk (d := none) hK (by omega : 0 < rootBlocks m) 1
    have hno : blockNo m root 0 < blocks := (h.sane.sound.range (filePlace root 0) (h.present 0 (by omega))).2
    obtain ⟨d, hrest⟩ := allocLoop_rest h hK n 1 (by omega) (some ((filePlace root 0).addr m))
    have hsearch := allocEntries_run (m := m) hno (blkSize / directSize - 0) 0 (by decide)
    have hstart : entryAt (blockNo m root 0) 0 = blkSize * blockNo m root 0 := by
      rw [entryAt, Nat.mul_zero, Nat.add_zero]
    rw [hstart] at hsearch
    have hcount : blkSize / directSize - 0 = entries := by decide
    refine ⟨d, ?_⟩
    rw [if_neg (Nat.succ_ne_zero n), allocLoop, Act.bind_ok hwalk]
    simp only [Int.lt_irrefl, if_false]
    rw [Act.deref_bind_apply, Act.bind_ok hload, if_pos (h.present 0 (by omega)),
      Act.bind_ok hsearch, hcount]
    cases Bitmap.firstFrom (emptyAt m (blockNo m root 0)) entries 0 with
    | some e => rfl
    | none =>
      show allocLoop _ n 1 (max 0 (blkSize / directSize)) _ m = _
      rw [Nat.zero_max]
      exact hrest

/-- `alloc_file`, where an entry is found. -/
theorem allocFile_found (h : Rooted m) (hK : rootBlocks m ≤ fileBlocks) (he : handed m = some e) :
    allocFile m = .ok (0, some (entryAt (blockNo m root 0) e)) m := by
  obtain ⟨d, hloop⟩ := allocLoop_run h hK
  rw [he] at hloop
  have hwhole : fileSize m root % blkSize = 0 := Nat.mod_eq_zero_of_dvd h.whole
  have hload : load 4 (inode rootInode + diSizeOff) m = .ok (fileSize m root) m :=
    @load_size _ root
  unfold allocFile
  rw [Act.bind_ok hload, if_neg (not_not.mpr hwhole)]
  exact Act.bind_ok hloop

/-- Where none is, the directory gets a block more. -/
theorem allocFile_append (h : Rooted m) (hK : rootBlocks m ≤ fileBlocks) (he : handed m = none) :
    ∃ d, allocFile m = appendBlock (inode root) (rootBlocks m) d m := by
  obtain ⟨d, hloop⟩ := allocLoop_run h hK
  rw [he] at hloop
  have hwhole : fileSize m root % blkSize = 0 := Nat.mod_eq_zero_of_dvd h.whole
  refine ⟨d, ?_⟩
  have hload : load 4 (inode rootInode + diSizeOff) m = .ok (fileSize m root) m :=
    @load_size _ root
  unfold allocFile
  rw [Act.bind_ok hload, if_neg (not_not.mpr hwhole)]
  exact Act.bind_ok hloop

end Search

/-! ## A block more for the directory -/

/-- The size of a file is set. -/
def resized (m : Mem) (ino : Fin inodes) (n : Nat) : Mem :=
  Mem.wr 4 m (inode ino + diSizeOff) n

/-- The directory has got the block `no`. -/
structure Appended (m m' : Mem) (no : Nat) : Prop where
  sane : Sane m'
  ext : Extends root m m'
  size : fileSize m' root = fileSize m root + blkSize
  free : blkFree m no = true
  number : blockNo m' root (rootBlocks m) = no
  vals : ∀ q : Place, q ≠ .slot root 10 → q ≠ filePlace root (rootBlocks m) → q.val m' = q.val m
  clean : ∀ x, x / blkSize = no → m' x = 0
  data : ∀ q : Place, q.Data → q.val m ≠ 0 → ∀ x, x / blkSize = q.val m → m' x = m x
  blocks : freeBlocks m' + need m root (rootBlocks m) = freeBlocks m

section Append

variable {m m' m₁ : Mem} {ino : Fin inodes} {b no n x : Nat} {d : Option Nat}

theorem resized_out (h : x < inode ino ∨ inode ino + 4 ≤ x) : resized m ino n x = m x :=
  Mem.wr_out (by unfold diSizeOff; omega)

theorem resized_beside (hm : Sane m) : Beside m (resized m ino n) := by
  have hino := ino.isLt
  unfold inodes at hino
  refine hm.beside_head fun x hx => resized_out ?_
  rw [inode_eq]
  unfold blkSize at hx
  omega

theorem resized_extends (hm : Sane m) : Extends ino m (resized m ino n) :=
  .beside (resized_beside hm) fun x h1 _ => resized_out (by unfold inodeSize at h1; omega)

theorem Beside.freeNo (h : Beside m m') : freeNo m' = freeNo m := by
  unfold Image.freeNo
  rw [funext h.blkFree]

/-- What the directory's new block comes to. -/
theorem appended_given (h : Rooted m) (hK : rootBlocks m < fileBlocks)
    (hn : numbered m root (rootBlocks m) = some m₁) (hno : freeNo m₁ = some no) :
    Appended m (given (resized m₁ root (fileSize m₁ root + blkSize))
      ((filePlace root (rootBlocks m)).addr m₁) no) no := by
  have hnum := numbered_spec h.sane hn
  have hb : Beside m₁ (resized m₁ root (fileSize m₁ root + blkSize)) := resized_beside hnum.sane
  have hm₂ := hnum.sane.beside hb
  have hthere := (hb.there (filePlace root (rootBlocks m))).mpr hnum.there
  have hzero : (filePlace root (rootBlocks m)).val
      (resized m₁ root (fileSize m₁ root + blkSize)) = 0 := by
    rw [hb.val]
    exact hnum.blockNo.trans (h.bare _ hK (Nat.le_refl _))
  have hno' : freeNo (resized m₁ root (fileSize m₁ root + blkSize)) = some no :=
    hb.freeNo.trans hno
  have hfill : filled (resized m₁ root (fileSize m₁ root + blkSize)) (filePlace root (rootBlocks m)) =
      some (given (resized m₁ root (fileSize m₁ root + blkSize))
        ((filePlace root (rootBlocks m)).addr m₁) no) := by
    rw [filled_of_free hzero hno', hb.addr]
  have hfree := freeNo_free hno
  have hval : blockNo (given (resized m₁ root (fileSize m₁ root + blkSize))
      ((filePlace root (rootBlocks m)).addr m₁) no) root (rootBlocks m) = no := by
    have hgiven := hm₂.given_val hthere hzero (freeNo_free hno') (filePlace root (rootBlocks m))
    rw [if_pos rfl, hb.addr] at hgiven
    exact hgiven
  have hext := Extends.filled hm₂ hthere hfill
  rw [filePlace_owner] at hext
  refine ⟨hm₂.filled hthere hfill, (hnum.ext.trans (resized_extends hnum.sane)).trans hext, ?_,
    hnum.ext.free no hfree, hval, fun q h1 h2 => ?_, fun x hx => ?_,
    fun q hdata hne x hx => ?_, ?_⟩
  · rw [filled_size hm₂ hthere hfill, resized, fileSize, Mem.rd_wr_same, hnum.size]
    have hdiv := Nat.mul_div_cancel' h.whole
    refine Nat.mod_eq_of_lt ?_
    unfold rootBlocks at hK
    unfold fileBlocks at hK
    unfold blkSize at *
    omega
  · rw [hm₂.filled_val_of_ne hthere hfill h2, hb.val, hnum.vals q h1]
  · exact filled_clean hm₂ hthere hfill hzero (hx.trans hval.symm)
  · have hval₁ : q.val m₁ = q.val m := hnum.ext.vals q hne
    have hval₂ : q.val (resized m₁ root (fileSize m₁ root + blkSize)) = q.val m :=
      (hb.val q).trans hval₁
    have hlo : 14 ≤ q.val m := (h.sane.sound.range q hne).1
    have hroot := root.isLt
    unfold inodes at hroot
    calc _ = resized m₁ root (fileSize m₁ root + blkSize) x :=
          filled_data hm₂ hthere hfill hdata (by rwa [hval₂]) (by rw [hval₂, hx])
      _ = m₁ x := resized_out (by rw [inode_eq]; unfold blkSize at hx; omega)
      _ = m x := hnum.data q hdata hne x hx
  · have hcount := hm₂.filled_available hthere hfill
    rw [if_pos hzero, hb.ledger] at hcount
    unfold need
    rw [h.bare _ hK (Nat.le_refl _), if_pos rfl, ← hnum.free]
    unfold freeBlocks at *
    omega

/-- What the rest of `alloc_file` stores where a block is free. -/
theorem appendBlock_given (hb : b < fileBlocks) (hn : numbered m root b = some m₁)
    (hno : freeNo m₁ = some no) (hfit : (filePlace root b).addr m₁ + 2 ≤ imgSize)
    (d : Option Nat) : appendBlock (inode root) b d m = .ok (0, some (blkSize * no))
      (given (resized m₁ root (fileSize m₁ root + blkSize)) ((filePlace root b).addr m₁) no) := by
  have hwalk := @walkBlock_alloc m root b d hb
  rw [hn] at hwalk
  unfold appendBlock
  rw [Act.bind_ok hwalk]
  simp only [Int.lt_irrefl, if_false]
  rw [Act.bind_ok (getFreeNo_some hno), if_neg (show ¬ (no : Int) < 0 by omega),
    Act.bind_ok (@load_size _ root), Act.bind_ok (store_ok (inode_imgSize root)),
    Act.deref_bind_apply, Int.toNat_natCast, Act.bind_ok (store_ok hfit),
    Act.bind_ok (setBitmap_run (by decide) (freeNo_lt hno))]
  rfl

/-- The three ends of the rest of `alloc_file`. -/
theorem appendBlock_run (h : Rooted m) (hK : rootBlocks m < fileBlocks) (d : Option Nat) :
    (numbered m root (rootBlocks m) = none ∧
        appendBlock (inode root) (rootBlocks m) d m = .ok (-2, none) m) ∨
      (∃ m₁, numbered m root (rootBlocks m) = some m₁ ∧ freeNo m₁ = none ∧
        appendBlock (inode root) (rootBlocks m) d m = .ok (-1, none) m₁) ∨
      ∃ no m', appendBlock (inode root) (rootBlocks m) d m = .ok (0, some (blkSize * no)) m' ∧
        Appended m m' no := by
  have hwalk := @walkBlock_alloc m root _ d hK
  cases hn : numbered m root (rootBlocks m) with
  | none =>
    rw [hn] at hwalk
    refine .inl ⟨rfl, ?_⟩
    unfold appendBlock
    rw [Act.bind_ok hwalk]
    simp only [show (-1 : Int) < 0 by decide, if_true, Act.pure_apply]
  | some m₁ =>
    rw [hn] at hwalk
    have hnum := numbered_spec h.sane hn
    refine .inr ?_
    cases hno : freeNo m₁ with
    | none =>
      refine .inl ⟨m₁, rfl, hno, ?_⟩
      unfold appendBlock
      rw [Act.bind_ok hwalk]
      simp only [Int.lt_irrefl, if_false]
      rw [Act.bind_ok (getFreeNo_none hno), if_pos (show (-1 : Int) < 0 by decide)]
      rfl
    | some no =>
      have hfit : (filePlace root (rootBlocks m)).addr m₁ + 2 ≤ imgSize :=
        le_imgSize (hnum.sane.addr_lt hnum.there).2
      exact .inr ⟨no, _, appendBlock_given hK hn hno hfit d, appended_given h hK hn hno⟩

/-- The directory has one block more, and it is there. -/
theorem Appended.rootBlocks (h : Appended m m' no) :
    rootBlocks m' = rootBlocks m + 1 := by
  unfold Image.rootBlocks
  rw [h.size]
  exact Nat.add_div_right _ (by decide)

theorem Appended.rooted (h : Appended m m' no) (hm : Rooted m) (hK : Image.rootBlocks m < fileBlocks) :
    Rooted m' := by
  have hKs := h.rootBlocks
  have hlo : 14 ≤ no := (hm.sane.sound.bounds no h.free).1
  have hold : ∀ b, b < fileBlocks → b ≠ Image.rootBlocks m → blockNo m' root b = blockNo m root b := by
    intro b hb hne
    refine h.vals _ (fun he => ?_) fun he => hne (filePlace_inj hb hK he).2
    have hdata := filePlace_data root b
    rw [he] at hdata
    exact hdata rfl
  refine ⟨h.sane, ?_, fun b hb => ?_, fun b hb hge => ?_, ?_, fun ino hino i => ?_⟩
  · rw [h.size]
    exact Nat.dvd_add hm.whole (Nat.dvd_refl _)
  · by_cases hbK : b = Image.rootBlocks m
    · rw [hbK, h.number]
      omega
    · rw [hold b (by omega) hbK]
      exact hm.present b (by omega)
  · rw [hold b hb (by omega)]
    exact hm.bare b hb (by omega)
  · rw [h.ext.inoFree h.sane]
    exact hm.rootUsed
  · rw [h.ext.inoFree h.sane] at hino
    rw [h.ext.others (.slot ino i) (hm.ne_root hino)]
    exact hm.fresh ino hino i

end Append

end Myos.Image
