import Myos.Kernel.BlockMap

/-!
# Written data after a remount

What is on disk alone says where the blocks of a file are: the inode table is
block 4 and the bitmap is block 2. `read_superblock` copies both to memory, and
nothing ever copies them back; so what was written is found again as long as
no write needed a new block, and then the two copies agree all the time
(`Synced`).

A call that is not whole stores what lies past the buffer past the range, and
there it may meet bytes that an earlier call wrote.
-/

namespace Myos.Kernel

open Myos.Lib

/-! ## The map on disk -/

/-- `block[k]` of inode `i` in the table on disk. -/
def diskSlot (d : Mem) (i k : Nat) : Nat :=
  Mem.rd 2 d (blkSize * 4 + (inodeSize * i + blockOff + 2 * k))

/-- The disk block of block `b` of the inode, by what is on disk. -/
def diskBlockNo (d : Mem) (i b : Nat) : Nat :=
  if b < 10 then diskSlot d i b
  else if b < 2058 then
    (if diskSlot d i 10 = 0 then 0 else Mem.rd 2 d (blkSize * diskSlot d i 10 + 2 * (b - 10)))
  else 0

/-- The bitmap on disk has the block free. -/
def diskFree (d : Mem) (no : Nat) : Bool :=
  decide (no < blkSize * 8) && Bitmap.bit d (blkSize * 2) no

/-- A byte of a frame. -/
theorem frame_div {f x : Nat} (hx : x < blkSize) : (pageSize * f + x) / pageSize = f := by
  unfold blkSize at hx
  unfold pageSize
  omega

/-- The inode table and the bitmap in memory are those on disk. -/
structure Synced (s : Fs) (ft fb : Nat) : Prop where
  table : ∀ x, x < blkSize → s.mm.mem (pageSize * ft + x) = s.disk (blkSize * 4 + x)
  bitmap : ∀ x, x < blkSize → s.mm.mem (pageSize * fb + x) = s.disk (blkSize * 2 + x)

namespace Synced

variable {s : Fs} {ft fb i : Nat} {l : List Nat}

/-- STEP: code that leaves the disk and the two frames as they are. -/
theorem still {s' : Fs} (h : Synced s ft fb) (hst : Still s s' ft fb) : Synced s' ft fb where
  table x hx := by
    rw [hst.disk, hst.mem _ (.inl (frame_div hx))]
    exact h.table x hx
  bitmap x hx := by
    rw [hst.disk, hst.mem _ (.inr (frame_div hx))]
    exact h.bitmap x hx

theorem slot (h : Synced s ft fb) (hm : Mounted s ft fb l) (hi : i < inodesInTable) {k : Nat}
    (hk : k ≤ 10) : s.slot (s.inode i) k = diskSlot s.disk i k := by
  unfold Fs.slot diskSlot
  rw [hm.blockSlot_sub]
  refine Mem.rd_shift fun x hx => ?_
  have hlt : inodeSize * i + blockOff + 2 * k + x < blkSize := by
    unfold inodesInTable at hi
    unfold inodeSize blockOff blkSize
    omega
  rw [Nat.add_assoc (pageSize * ft), Nat.add_assoc (blkSize * 4)]
  exact h.table _ hlt

theorem blockNo (h : Synced s ft fb) (hm : Mounted s ft fb l) (hi : i < inodesInTable) (b : Nat) :
    s.blockNo (s.inode i) b = diskBlockNo s.disk i b := by
  unfold Fs.blockNo diskBlockNo Fs.indirect
  rw [h.slot hm hi (Nat.le_refl 10)]
  by_cases hb : b < 10
  · rw [if_pos hb, if_pos hb, h.slot hm hi (Nat.le_of_lt hb)]
  · rw [if_neg hb, if_neg hb]

theorem blkFree (h : Synced s ft fb) (hm : Mounted s ft fb l) (no : Nat) :
    s.blkFree no = diskFree s.disk no := by
  unfold Fs.blkFree diskFree Bitmap.bit
  rw [hm.bitmap_sub]
  by_cases hno : no < blkSize * 8
  · congr 2
    refine Mem.rd_shift fun x hx => ?_
    rw [Nat.add_assoc, Nat.add_assoc]
    refine h.bitmap _ ?_
    unfold blkSize at *
    omega
  · rw [decide_eq_false hno, Bool.false_and, Bool.false_and]

end Synced

/-! ## Mounting -/

/-- `read_superblock` copies the table and the bitmap to frames of their own. -/
theorem readSuperblock_run {s : Fs} {l : List Nat} (hl : FreeList s.mm l)
    (hn : s.mm.npages ≤ 2 ^ 19) (hst : s.starved = false) (hroom : 4 ≤ l.length) :
    ∃ s' ft fb l', readSuperblock s = .ok () s' ∧ Mounted s' ft fb l' ∧ Synced s' ft fb ∧
      s'.disk = s.disk := by
  obtain ⟨q₁, q₂, q₃, q₄, l', rfl⟩ : ∃ q₁ q₂ q₃ q₄ l', l = q₁ :: q₂ :: q₃ :: q₄ :: l' := by
    match l, hroom with
    | q₁ :: q₂ :: q₃ :: q₄ :: l', _ => exact ⟨q₁, q₂, q₃, q₄, l', rfl⟩
  obtain ⟨s₁, hrun₁, htook₁, -, -, hst₁, -⟩ := bread_ok 1 hl hn
  obtain ⟨t₁, ht₁⟩ : ∃ t₁ : Fs, t₁ = { s₁ with sb := frameVa q₁ } := ⟨_, rfl⟩
  have hmm₁ : t₁.mm = s₁.mm := by rw [ht₁]
  have hdisk₁ : t₁.disk = s.disk := by rw [ht₁]; exact htook₁.disk
  obtain ⟨s₂, hrun₂, htook₂, hq₂, hnot₂, hst₂, hbytes₂⟩ :=
    bread_ok (s := t₁) 2 (hmm₁ ▸ htook₁.free) (by rw [hmm₁, htook₁.npages]; exact hn)
  obtain ⟨t₂, ht₂⟩ : ∃ t₂ : Fs, t₂ = { s₂ with blkBitmap := frameVa q₂ } := ⟨_, rfl⟩
  have hmm₂ : t₂.mm = s₂.mm := by rw [ht₂]
  have hdisk₂ : t₂.disk = s.disk := by rw [ht₂, ← hdisk₁]; exact htook₂.disk
  obtain ⟨s₃, hrun₃, htook₃, -, -, hst₃, -⟩ :=
    bread_ok (s := t₂) 3 (hmm₂ ▸ htook₂.free)
      (by rw [hmm₂, htook₂.npages, hmm₁, htook₁.npages]; exact hn)
  obtain ⟨t₃, ht₃⟩ : ∃ t₃ : Fs, t₃ = { s₃ with inoBitmap := frameVa q₃ } := ⟨_, rfl⟩
  have hmm₃ : t₃.mm = s₃.mm := by rw [ht₃]
  have hdisk₃ : t₃.disk = s.disk := by rw [ht₃, ← hdisk₂]; exact htook₃.disk
  obtain ⟨s₄, hrun₄, htook₄, hq₄, hnot₄, hst₄, hbytes₄⟩ :=
    bread_ok (s := t₃) 4 (hmm₃ ▸ htook₃.free)
      (by rw [hmm₃, htook₃.npages, hmm₂, htook₂.npages, hmm₁, htook₁.npages]; exact hn)
  obtain ⟨t₄, ht₄⟩ : ∃ t₄ : Fs, t₄ = { s₄ with inoTable := frameVa q₄ } := ⟨_, rfl⟩
  have hmm₄ : t₄.mm = s₄.mm := by rw [ht₄]
  have hdisk₄ : t₄.disk = s.disk := by rw [ht₄, ← hdisk₃]; exact htook₄.disk
  have hrun : readSuperblock s = .ok () t₄ := by
    unfold readSuperblock
    rw [Act.bind_ok hrun₁, Act.modify_bind_apply, ← ht₁, Act.bind_ok hrun₂, Act.modify_bind_apply,
      ← ht₂, Act.bind_ok hrun₃, Act.modify_bind_apply, ← ht₃, Act.bind_ok hrun₄, ht₄]
    rfl
  have hserved : t₄.starved = false := by
    have hsame : ∀ {f f' : Fs}, f.mm = f'.mm → f.starved = f'.starved := fun h => by
      rw [Fs.starved, Fs.starved, h]
    rw [hsame hmm₄, hst₄, hsame hmm₃, hst₃, hsame hmm₂, hst₂, hsame hmm₁, hst₁, hst]
  have hbitmap : t₄.blkBitmap = frameVa q₂ := by
    rw [ht₄]
    show s₄.blkBitmap = _
    rw [htook₄.blkBitmap, ht₃]
    show s₃.blkBitmap = _
    rw [htook₃.blkBitmap, ht₂]
  have hout₂ : q₂ ∉ q₄ :: l' := fun hq => hnot₂ (List.mem_cons_of_mem _ hq)
  refine ⟨t₄, q₄, q₂, l', hrun, ⟨hmm₄ ▸ htook₄.free, ?_, hserved, by rw [ht₄], hbitmap,
    fun heq => hout₂ (heq ▸ List.mem_cons_self), hq₄, hq₂, hnot₄,
    fun hq => hout₂ (List.mem_cons_of_mem _ hq)⟩, ⟨fun x hx => ?_, fun x hx => ?_⟩, hdisk₄⟩
  · rw [hmm₄, htook₄.npages, hmm₃, htook₃.npages, hmm₂, htook₂.npages, hmm₁, htook₁.npages]
    exact hn
  · rw [hmm₄, hbytes₄ x hx, hdisk₃, hdisk₄]
  · have hdiv : (pageSize * q₂ + x) / pageSize = q₂ := frame_div hx
    rw [hmm₄, htook₄.mem _ (by rw [hdiv]; exact hout₂), hmm₃,
      htook₃.mem _ (by rw [hdiv]; exact hnot₂), hmm₂, hbytes₂ x hx, hdisk₁, hdisk₄]

/-! ## Writes, and a remount -/

section Address

variable {s : Fs} {P : Nat → Prop} {p i j x y : Nat}

theorem fileAddr_div : s.fileAddr p x / blkSize = s.blockNo p (x / blkSize) := by
  have := Nat.mod_lt x (by decide : 0 < blkSize)
  unfold Fs.fileAddr
  unfold blkSize at *
  omega

/-- Positions of files are on disk at places of their own. -/
theorem Mapped.addr_inj (h : Mapped s P) (hi : P i) (hj : P j)
    (hno : s.blockNo (s.inode i) (x / blkSize) ≠ 0)
    (heq : s.fileAddr (s.inode i) x = s.fileAddr (s.inode j) y) : i = j ∧ x = y := by
  have hblock : s.blockNo (s.inode i) (x / blkSize) = s.blockNo (s.inode j) (y / blkSize) := by
    rw [← fileAddr_div, heq, fileAddr_div]
  obtain ⟨hij, hdiv⟩ := h.inj i _ j _ hi hj hno hblock
  unfold Fs.fileAddr at heq
  rw [hblock] at heq
  have hxe := Nat.div_add_mod x blkSize
  have hye := Nat.div_add_mod y blkSize
  rw [hdiv] at hxe
  exact ⟨hij, by omega⟩

end Address

/-- What a call of `file_write` did, to blocks that are there. -/
theorem wrote_of_save {s s' : Fs} {P : Nat → Prop} {i n buf o ft fb : Nat} {file file' : File}
    {l : List Nat} {pa : Nat → Nat} (hm : Mounted s ft fb l) (hmap : Mapped s P) (hi : P i)
    (hinode : file.inode = s.inode i) (ho : file.offset = o)
    (horigin : Origin s.mm (ft :: fb :: l) buf n pa)
    (hrun : fileWrite buf n ⟨s, file⟩ = .ok n ⟨s', file'⟩) (hn : 0 < n)
    (hblocks : ∀ j, j < n → s.blockNo (s.inode i) ((o + j) / blkSize) ≠ 0)
    (hframes : framesOver o (o + n) ≤ l.length) :
    ∃ l', Mounted s' ft fb l' ∧
      Wrote ⟨s, file⟩ l ⟨s', file'⟩ l' n (moved o n) pa fun k => s.fileAddr (s.inode i) (o + k) := by
  have hlast := Fs.blockNo_lt (hblocks (n - 1) (by omega))
  have hpos : o + 2 * n < 2 ^ 30 := by
    unfold blkSize at hlast
    omega
  have hown : s.Own (s.inode i) fun b => s.blockNo (s.inode i) b ≠ 0 :=
    ⟨fun b hb => hb, fun b b' hb _ heq => (hmap.inj i b i b' hi hi hb heq).2,
      fun b b' hb _ _ => hmap.off i b i hi hi hb⟩
  have hns : (fileWrite buf n ⟨s, file⟩).state.starved = false := by
    have hspends : Spends (fun s : FileSt => s.fs.mm) (framesOver o (o + n))
        (fileWriteLoop n (o + n) (2 ^ 32) o none buf) :=
      fileWriteLoop_spends _ none (by omega) (by omega) (Nat.le_refl _)
    unfold fileWrite
    rw [Act.gets_bind_apply, ho, ← Nat.cast_add, u32_nat (by omega)]
    exact (hspends ⟨s, file⟩ l hm.free hm.npages hframes hm.served).1
  rcases fileWrite_run (s := ⟨s, file⟩) hm.free hm.npages
    (by rw [hinode]; exact hm.kept_inode (hmap.lt i hi)) (by rw [ho, int32_nat (by omega)]) ho hpos
    (fun j hj => hblocks j hj) (by rw [hinode]; exact hown) horigin.free hns with
    ⟨-, s₁, hfault⟩ | ⟨s₁, l', hok, hw⟩
  · rw [hrun] at hfault
    cases hfault
  · rw [hrun] at hok hns
    injection hok with _ hs
    subst hs
    rw [hinode] at hw
    exact ⟨l', hm.wrote hw hns, hw⟩

/-- What was written last at the positions of the inodes. -/
abbrev Written := Nat → Nat → Option UInt8

/-- The `n` bytes `data` were written at `o` of inode `i`. -/
def Written.put (w : Written) (i o n : Nat) (data : Nat → UInt8) : Written := fun j y =>
  if j = i ∧ o ≤ y ∧ y < o + n then some (data (y - o)) else w j y

/-- A call of `file_write` that returned success; or code that leaves the file system alone. -/
inductive SaveEvent
  | save (i : Nat) (o : Int) (n : Nat) (data : Nat → UInt8)
  | other

/-- A step of the kernel, on files of the inodes `P`, and what is known to be written. -/
inductive SaveStep (P : Nat → Prop) (ft fb : Nat) : Fs × Written → SaveEvent → Fs × Written → Prop
  | save {s s' : Fs} {w : Written} {i n buf : Nat} {o : Int} {data : Nat → UInt8}
      {file file' : File} {l : List Nat} {pa : Nat → Nat} :
      P i → file.inode = s.inode i → file.offset = o → FreeList s.mm l →
      Origin s.mm (ft :: fb :: l) buf n pa → (∀ j, j < n → data j = s.mm.mem (pa j)) →
      fileWrite buf n ⟨s, file⟩ = .ok n ⟨s', file'⟩ →
      SaveStep P ft fb (s, w) (.save i o n data) (s', w.put i o.toNat n data)
  | other {s s' : Fs} {w : Written} {l : List Nat} :
      Mounted s' ft fb l → Still s s' ft fb → SaveStep P ft fb (s, w) .other (s', w)

/-- What keeps the data: the blocks that are written are there, what a call stores past
its range meets nothing that was written, and frames for it are free. -/
def InPlace (a : Fs × Written) : SaveEvent → Prop
  | .save i o n _ =>
    (∀ j : Nat, j < n → ∃ x : Nat, o + j = x ∧ a.1.blockNo (a.1.inode i) (x / blkSize) ≠ 0) ∧
    (∀ k, n ≤ k → k < moved o.toNat n → a.2 i (o.toNat + k) = none) ∧
    ∀ l, FreeList a.1.mm l → framesOver o.toNat (o.toNat + n) ≤ l.length
  | .other => True

/-- The image holds what was written: on disk the block is named by its inode and marked
used, and after `read_superblock`, in whatever memory, `file_read` reads the bytes. -/
structure Survives (P : Nat → Prop) (a : Fs × Written) : Prop where
  consistent : ∀ i x c, a.2 i x = some c → ∃ d, d ≠ 0 ∧ diskBlockNo a.1.disk i (x / blkSize) = d ∧
    diskFree a.1.disk d = false ∧ a.1.disk (blkSize * d + x % blkSize) = c
  remounts : ∀ (t : Fs) l, t.disk = a.1.disk → FreeList t.mm l → t.mm.npages ≤ 2 ^ 19 →
    t.starved = false → 4 ≤ l.length → ∃ t' ft fb l', readSuperblock t = .ok () t' ∧
      Mounted t' ft fb l' ∧ ∀ i x n buf pa file, P i → Asks t' i x n file →
      framesFor (x / blkSize) ≤ l'.length → Target t'.mm (ft :: fb :: l') buf n pa →
      0 < n → (∀ j, j < n → a.2 i (x + j) ≠ none) →
      ∃ u, fileRead buf n x ⟨t', file⟩ = .ok n u ∧
        ∀ j, j < n → a.2 i (x + j) = some (u.fs.mm.mem (pa j))

/-- What holds between the calls: memory and disk have the same maps, no block of a file
is the table or the bitmap, and the bytes are there. -/
structure Saved (P : Nat → Prop) (ft fb : Nat) (a : Fs × Written) : Prop where
  mounted : ∃ l, Mounted a.1 ft fb l
  mapped : Mapped a.1 P
  synced : Synced a.1 ft fb
  apart : ∀ i b, P i → a.1.blockNo (a.1.inode i) b ≠ 2 ∧ a.1.blockNo (a.1.inode i) b ≠ 4
  bytes : ∀ i x c, a.2 i x = some c → P i ∧ a.1.blockNo (a.1.inode i) (x / blkSize) ≠ 0 ∧
    a.1.fileByte (a.1.inode i) x = c

namespace Saved

variable {P : Nat → Prop} {ft fb : Nat} {a b : Fs × Written}

/-- What holds between the calls is enough. -/
theorem survives (h : Saved P ft fb a) : Survives P a := by
  obtain ⟨l₀, h₀⟩ := h.mounted
  refine ⟨fun i x c hc => ?_, fun t l hdisk hl hn hst hroom => ?_⟩
  · obtain ⟨hi, hno, hbyte⟩ := h.bytes i x c hc
    have hlt := h.mapped.lt i hi
    refine ⟨_, ?_, rfl, ?_, ?_⟩
    · rw [← h.synced.blockNo h₀ hlt]
      exact hno
    · rw [← h.synced.blockNo h₀ hlt, ← h.synced.blkFree h₀]
      exact h.mapped.used i _ hi
    · rw [← h.synced.blockNo h₀ hlt]
      exact hbyte
  · obtain ⟨t', ft', fb', l', hrun, hm, hsync, hdisk'⟩ := readSuperblock_run hl hn hst hroom
    refine ⟨t', ft', fb', l', hrun, hm, fun i x n buf pa file hi hask hf htarget hpos hw => ?_⟩
    have hlt := h.mapped.lt i hi
    have hsame : ∀ b, t'.blockNo (t'.inode i) b = a.1.blockNo (a.1.inode i) b := fun b => by
      rw [hsync.blockNo hm hlt, h.synced.blockNo h₀ hlt, hdisk', hdisk]
    obtain ⟨c₀, hc₀⟩ := Option.ne_none_iff_exists'.mp (hw 0 hpos)
    obtain ⟨-, hno, -⟩ := h.bytes i _ c₀ hc₀
    obtain ⟨u, hread, hbytes⟩ := hm.fileRead_one hlt hask (by rw [hsame]; exact hno) hf htarget
    refine ⟨u, hread, fun j hj => ?_⟩
    obtain ⟨c, hc⟩ := Option.ne_none_iff_exists'.mp (hw j hj)
    obtain ⟨-, -, hbyte⟩ := h.bytes i _ c hc
    rw [hc, hbytes j hj, ← hbyte, Fs.fileByte, Fs.fileByte, Fs.fileAddr, Fs.fileAddr, hsame,
      hdisk', hdisk]

/-- STEP: code that leaves the disk and the two frames as they are. -/
theorem still {s s' : Fs} {w : Written} {l : List Nat} (h : Saved P ft fb (s, w))
    (hm : Mounted s' ft fb l) (hst : Still s s' ft fb) : Saved P ft fb (s', w) := by
  obtain ⟨l₀, h₀⟩ := h.mounted
  have hno : ∀ i b, P i → s'.blockNo (s'.inode i) b = s.blockNo (s.inode i) b := fun i b hi => by
    rw [hst.inode, hst.blockNo h₀ (h.mapped.lt i hi)]
  refine ⟨⟨l, hm⟩, hst.mapped h₀ h.mapped, h.synced.still hst, fun i b hi => ?_,
    fun i x c hc => ?_⟩
  · rw [hno i b hi]
    exact h.apart i b hi
  · obtain ⟨hi, hpos, hbyte⟩ := h.bytes i x c hc
    refine ⟨hi, by rw [hno i _ hi]; exact hpos, ?_⟩
    rw [← hbyte, Fs.fileByte, Fs.fileByte, Fs.fileAddr, Fs.fileAddr, hno i _ hi, hst.disk]

/-- STEP: a write to blocks that are there. -/
theorem save {s s' : Fs} {w : Written} {i n buf o : Nat} {data : Nat → UInt8}
    {file file' : File} {l : List Nat} {pa : Nat → Nat} (h : Saved P ft fb (s, w)) (hi : P i)
    (hinode : file.inode = s.inode i) (ho : file.offset = o) (hl : FreeList s.mm l)
    (horigin : Origin s.mm (ft :: fb :: l) buf n pa) (hdata : ∀ j, j < n → data j = s.mm.mem (pa j))
    (hrun : fileWrite buf n ⟨s, file⟩ = .ok n ⟨s', file'⟩) (hn : 0 < n)
    (hblocks : ∀ j, j < n → s.blockNo (s.inode i) ((o + j) / blkSize) ≠ 0)
    (hpast : ∀ k, n ≤ k → k < moved o n → w i (o + k) = none)
    (hframes : framesOver o (o + n) ≤ l.length) : Saved P ft fb (s', w.put i o n data) := by
  obtain ⟨l₀, h₀⟩ := h.mounted
  obtain ⟨l', hm', hw⟩ := wrote_of_save (h₀.relist hl) h.mapped hi hinode ho horigin hrun hn hblocks
    hframes
  obtain ⟨p, hp⟩ : ∃ p, p = s.inode i := ⟨_, rfl⟩
  have hmoved : ∀ k, k < moved o n → s.blockNo p ((o + k) / blkSize) ≠ 0 := fun k hk => by
    obtain ⟨j, -, hj, hsame⟩ := movedFrom_block (Nat.zero_le k) hk
    rw [hsame, hp]
    exact hblocks j hj
  rw [← hp] at hw
  obtain ⟨htable, hbitmap⟩ : s'.inoTable = s.inoTable ∧ s'.blkBitmap = s.blkBitmap := by
    have hrest : s' = (Fs.setMm s'.mm s).setDisk s'.disk := hw.rest
    rw [hrest]
    exact ⟨rfl, rfl⟩
  have hinode' : ∀ j, s'.inode j = s.inode j := fun j => by
    rw [Fs.inode, Fs.inode, htable]
  have hno : ∀ j b, P j → s'.blockNo (s'.inode j) b = s.blockNo (s.inode j) b := fun j b hj => by
    rw [hinode']
    refine hw.blockNo_addr ((h₀.relist hl).kept_inode (h.mapped.lt j hj)) b fun _ k hk => ?_
    rw [fileAddr_div]
    exact hp ▸ h.mapped.off i _ j hi hj (hp ▸ hmoved k hk)
  have hm := h₀.relist hl
  have hmap' : Mapped s' P := h.mapped.congr hno
    (fun j hj => by
      rw [hinode']
      exact hw.slot (hm.kept_inode (h.mapped.lt j hj)) (Nat.le_refl 10))
    (hm.blkFree_congr hbitmap fun y hy => hw.mem y (by rw [hy]; exact hm.bitmap_out))
  -- Blocks 2 and 4 of the disk are as they were.
  have hkeep : ∀ b, b = 2 ∨ b = 4 → ∀ x, x < blkSize →
      s'.disk (blkSize * b + x) = s.disk (blkSize * b + x) := fun b hb x hx => by
    refine hw.disk _ fun k hk heq => ?_
    have hdiv : s.blockNo p ((o + k) / blkSize) = b := by
      rw [← fileAddr_div, ← heq]
      unfold blkSize at *
      omega
    have hap := h.apart i ((o + k) / blkSize) hi
    rw [show s.inode i = p from hp.symm, hdiv] at hap
    exact hb.elim hap.1 hap.2
  refine ⟨⟨l', hm'⟩, hmap', ⟨fun x hx => ?_, fun x hx => ?_⟩, fun j b hj => ?_, fun j y c hc => ?_⟩
  · show s'.mm.mem _ = s'.disk _
    rw [hw.mem _ (by rw [frame_div hx]; exact hm.table_out), hkeep 4 (.inr rfl) x hx]
    exact h.synced.table x hx
  · show s'.mm.mem _ = s'.disk _
    rw [hw.mem _ (by rw [frame_div hx]; exact hm.bitmap_out), hkeep 2 (.inl rfl) x hx]
    exact h.synced.bitmap x hx
  · rw [hno j b hj]
    exact h.apart j b hj
  · have haddr : P j → s'.fileAddr (s'.inode j) y = s.fileAddr (s.inode j) y := fun hj => by
      rw [Fs.fileAddr, Fs.fileAddr, hno j _ hj]
    have hput : w.put i o n data j y =
        if j = i ∧ o ≤ y ∧ y < o + n then some (data (y - o)) else w j y := rfl
    change w.put i o n data j y = some c at hc
    rw [hput] at hc
    by_cases hin : j = i ∧ o ≤ y ∧ y < o + n
    · obtain ⟨rfl, hlo, hhi⟩ := hin
      obtain ⟨k, rfl⟩ := Nat.exists_eq_add_of_le hlo
      have hk : k < n := by omega
      rw [if_pos ⟨rfl, hlo, hhi⟩, Nat.add_sub_cancel_left] at hc
      refine ⟨hi, by rw [hno j _ hi]; exact hblocks k hk, ?_⟩
      show s'.disk (s'.fileAddr (s'.inode j) (o + k)) = c
      rw [haddr hi, ← Option.some.inj hc, hdata k hk, ← hp]
      exact hw.bytes k hk
    · rw [if_neg hin] at hc
      obtain ⟨hj, hpos, hbyte⟩ := h.bytes j y c hc
      refine ⟨hj, by rw [hno j _ hj]; exact hpos, ?_⟩
      show s'.disk (s'.fileAddr (s'.inode j) y) = c
      rw [haddr hj, ← hbyte]
      refine hw.disk _ fun k hk heq => ?_
      obtain ⟨hji, hyk⟩ := h.mapped.addr_inj hj hi hpos (by rw [heq, hp])
      subst hji hyk
      by_cases hkn : k < n
      · exact hin ⟨rfl, Nat.le_add_right _ _, Nat.add_lt_add_left hkn _⟩
      · rw [hpast k (Nat.not_lt.mp hkn) hk] at hc
        cases hc

/-- STEP: whatever the kernel does next, what holds between the calls holds after it. -/
theorem step {e : SaveEvent} (h : Saved P ft fb a) (hstep : SaveStep P ft fb a e b)
    (hkeep : InPlace a e) : Saved P ft fb b := by
  cases hstep with
  | other hm hst => exact h.still hm hst
  | @save s s' w i n buf o data file file' l pa hi hinode ho hl horigin hdata hrun =>
    obtain ⟨hblocks, hpast, hframes⟩ := hkeep
    rcases Nat.eq_zero_or_pos n with rfl | hn
    · rw [fileWrite_zero] at hrun
      injection hrun with _ hs
      injection hs with hs _
      subst hs
      have hput : w.put i o.toNat 0 data = w := by
        funext j y
        exact if_neg fun hin => by omega
      rw [hput]
      exact h
    · obtain ⟨x, hx, -⟩ := hblocks 0 hn
      rw [Nat.cast_zero, Int.add_zero] at hx
      subst hx
      rw [Int.toNat_natCast] at hpast hframes ⊢
      refine h.save hi hinode ho hl horigin hdata hrun hn (fun j hj => ?_) hpast (hframes l hl)
      obtain ⟨y, hy, hno⟩ := hblocks j hj
      have hyx : y = x + j := by omega
      exact hyx ▸ hno

end Saved

/-- THE IMAGE: in a run whose writes are to blocks that are there, and meet nothing past
their range that was written before, all that was written is found after a remount. -/
theorem written_survives {P : Nat → Prop} {s : Fs} {ft fb : Nat} {l : List Nat}
    {es : List SaveEvent} {a : Fs × Written} (h : Mounted s ft fb l) (hm : Mapped s P)
    (hsync : Synced s ft fb)
    (hapart : ∀ i b, P i → s.blockNo (s.inode i) b ≠ 2 ∧ s.blockNo (s.inode i) b ≠ 4)
    (hrun : Steps (fun a e b => SaveStep P ft fb a e b ∧ InPlace a e) (s, fun _ _ => none) es a) :
    Survives P a :=
  (Steps.invariant (Saved P ft fb) (fun hs hstep => hs.step hstep.1 hstep.2) hrun
    ⟨⟨l, h⟩, hm, hsync, hapart, fun _ _ _ hc => (nomatch hc)⟩).survives

/-! ## An image to start from -/

/-- Frame 1 holds an inode whose first block is the disk block 20, and frame 2 a bitmap
that has block 40 free. -/
def sampleFrames : Mem :=
  Mem.wr 2 (Mem.wr 1 (fun _ => 0) (pageSize * 2 + 5) 1) (pageSize * 1 + blockOff) 20

/-- Blocks 2 and 4 of the disk are what the two frames hold. -/
def sampleDisk : Mem := fun y =>
  if y / blkSize = 4 then sampleFrames (pageSize * 1 + y % blkSize)
  else if y / blkSize = 2 then sampleFrames (pageSize * 2 + y % blkSize) else 0

/-- The image, mounted. -/
def sampleImage : Fs :=
  { sampleFile.fs with
    mm := sampleFile.fs.mm.setMem sampleFrames
    disk := sampleDisk
    blkBitmap := frameVa 2 }

theorem sampleImage_mm : sampleImage.mm = sampleFile.fs.mm.setMem sampleFrames := rfl

theorem sampleImage_mounted : Mounted sampleImage 1 2 [8, 9, 10, 11, 12, 13, 14, 15] where
  free := by
    rw [sampleImage_mm]
    exact sampleFile_list.congr rfl rfl rfl
  npages := by decide
  served := rfl
  table := rfl
  bitmap := rfl
  apart := by decide
  table_lt := by decide
  bitmap_lt := by decide
  table_out := by decide
  bitmap_out := by decide

theorem sampleImage_synced : Synced sampleImage 1 2 := by
  have hdiv : ∀ b x, x < blkSize →
      (blkSize * b + x) / blkSize = b ∧ (blkSize * b + x) % blkSize = x := fun b x hx => by
    unfold blkSize at *
    omega
  refine ⟨fun x hx => ?_, fun x hx => ?_⟩
  · obtain ⟨h1, h2⟩ := hdiv 4 x hx
    show sampleFrames _ = sampleDisk _
    rw [sampleDisk, h1, h2, if_pos rfl]
  · obtain ⟨h1, h2⟩ := hdiv 2 x hx
    show sampleFrames _ = sampleDisk _
    rw [sampleDisk, h1, h2, if_neg (by decide), if_pos rfl]

theorem sampleImage_free (no : Nat) : sampleImage.blkFree no =
    (decide (no < blkSize * 8) && Bitmap.bit sampleFrames (pageSize * 2) no) := by
  rw [Fs.blkFree, sampleImage_mounted.bitmap_sub]
  rfl

theorem sampleImage_slot (i : Nat) : sampleImage.slot (sampleImage.inode 0) i =
    Mem.rd 2 sampleFrames (pageSize * 1 + (inodeSize * 0 + blockOff + 2 * i)) := by
  rw [Fs.slot, sampleImage_mounted.blockSlot_sub]
  rfl

/-- The file has one block. -/
theorem sampleImage_blockNo (b : Nat) :
    sampleImage.blockNo (sampleImage.inode 0) b = if b = 0 then 20 else 0 := by
  have hall : ∀ b, b ≤ 10 →
      Mem.rd 2 sampleFrames (pageSize * 1 + (inodeSize * 0 + blockOff + 2 * b)) =
        if b = 0 then 20 else 0 := by decide
  by_cases hlow : b < 10
  · rw [Fs.blockNo, if_pos hlow, sampleImage_slot, hall b (Nat.le_of_lt hlow)]
  · have hb0 : b ≠ 0 := fun h => hlow (by omega)
    rw [Fs.blockNo, if_neg hlow, sampleImage_slot, hall 10 (Nat.le_refl 10), if_neg hb0]
    simp only [Nat.reduceEqDiff, if_false, if_true, ite_self]

theorem sampleImage_mapped : Mapped sampleImage (· = 0) where
  lt := fun i hi => by subst hi; decide
  zero := by rw [sampleImage_free]; decide
  used := fun i b hi => by
    subst hi
    rw [sampleImage_blockNo, sampleImage_free]
    split <;> decide
  ind := fun i hi => by
    subst hi
    rw [sampleImage_slot, sampleImage_free]
    decide
  inj := fun i b j c hi hj hne heq => by
    subst hi hj
    have hzero : ∀ b, sampleImage.blockNo (sampleImage.inode 0) b ≠ 0 → b = 0 := fun b hb => by
      by_contra hb0
      rw [sampleImage_blockNo, if_neg hb0] at hb
      exact hb rfl
    exact ⟨rfl, (hzero b hne).trans (hzero c (heq ▸ hne)).symm⟩
  off := fun i b j hi hj hne => by
    subst hi hj
    have hten : sampleImage.slot (sampleImage.inode 0) 10 = 0 := by
      rw [sampleImage_slot]
      decide
    rw [hten]
    exact hne

/-- The file of inode 0, open at `x`. -/
def sampleImageFile (x : Nat) : File :=
  { refcount := 1, offset := x, inode := sampleImage.inode 0, type := .file }

/-- A byte of the two first blocks can be written. -/
theorem sampleImage_writes {x : Nat} (hx : x / blkSize < 2) (hfit : x % blkSize + 1 ≤ blkSize) :
    ∃ s' d, Stored sampleImage s' (· = 0) 0 x 1
        (fun j => sampleImage.mm.mem (pageSize * 3 + j)) d ∧
      SaveStep (· = 0) 1 2 (sampleImage, fun _ _ => none) (.save 0 x 1 fun _ => 0)
        (s', Written.put (fun _ _ => none) 0 x 1 fun _ => 0) := by
  have horigin := sample_origin sampleImage.mm (n := 1) (by decide)
  have hframes : framesFor (x / blkSize) ≤ [8, 9, 10, 11, 12, 13, 14, 15].length := by
    rw [framesFor, if_pos (by omega)]
    decide
  have hns := (sampleImage_mounted.fileWrite_serves (s := ⟨sampleImage, sampleImageFile x⟩)
    (frameVa 3) rfl (by omega) hfit hframes).1
  rcases fileWrite_block (s := ⟨sampleImage, sampleImageFile x⟩) sampleImage_mounted
    sampleImage_mapped rfl rfl rfl (by omega) hfit Nat.zero_lt_one (.inl (by omega)) horigin hns with
    ⟨-, hnone⟩ | ⟨⟨s', file'⟩, l', d, hrun, -, hst⟩
  · have hfree : sampleImage.blkFree 40 = false := hnone 40
    rw [sampleImage_free] at hfree
    exact absurd hfree (by decide)
  · have hall : ∀ j, j < 1 → (0 : UInt8) = sampleFrames (pageSize * 3 + j) := by decide
    exact ⟨s', d, hst, .save (P := (· = 0)) rfl rfl rfl sampleImage_mounted.free horigin
      hall hrun⟩

/-- A byte at 4096 takes a new block, which nothing on disk names. -/
theorem written_lost : ∃ a, Steps (SaveStep (· = 0) 1 2) (sampleImage, fun _ _ => none)
    [.save 0 (4096 : Nat) 1 fun _ => 0] a ∧ ¬ Survives (· = 0) a := by
  obtain ⟨x, hx⟩ : ∃ x, x = 4096 := ⟨_, rfl⟩
  have hone : x / blkSize = 1 := by rw [hx]; rfl
  have hzero : x % blkSize = 0 := by rw [hx]; rfl
  rw [← hx]
  obtain ⟨s', d, hst, hstep⟩ := sampleImage_writes (x := x) (by rw [hone]; decide)
    (by rw [hzero]; decide)
  refine ⟨_, .cons hstep (.nil _), fun h => ?_⟩
  obtain ⟨e, he, hblock, -⟩ := h.consistent 0 x 0
    (if_pos ⟨rfl, Nat.le_refl x, Nat.lt_succ_self x⟩)
  have hd : d ≠ 4 := fun hd => by
    rcases hst.block with ⟨hno, -⟩ | ⟨-, hfree, -⟩
    · rw [hone, sampleImage_blockNo, if_neg (by decide)] at hno
      exact hst.pos hno.symm
    · rw [hd, sampleImage_free] at hfree
      exact absurd hfree (by decide)
  have hslot : diskSlot s'.disk 0 1 = diskSlot sampleDisk 0 1 := by
    refine Mem.rd_congr fun y h1 h2 => (hst.disk y).trans (Mem.overlay_out ?_)
    rw [hzero]
    unfold blkSize inodeSize blockOff at *
    omega
  have hnone : diskSlot sampleDisk 0 1 = 0 := by
    have hsync := sampleImage_synced.slot sampleImage_mounted (i := 0) (by decide)
      (by decide : 1 ≤ 10)
    rw [sampleImage_slot] at hsync
    exact hsync.symm.trans (by decide)
  rw [hone, diskBlockNo, if_pos (by decide)] at hblock
  exact he (hblock.symm.trans (hslot.trans hnone))

/-- The image at a run of one write, to the block that is there. -/
theorem written_survives_write : ∃ a, Survives (· = 0) a ∧ a.2 0 0 = some 0 := by
  obtain ⟨s', -, -, hstep⟩ := sampleImage_writes (x := 0) (by decide) (by decide)
  have hkeep : InPlace (sampleImage, fun _ _ => none) (.save 0 (0 : Nat) 1 fun _ => 0) := by
    refine ⟨fun j hj => ⟨j, by omega, ?_⟩, fun k _ _ => rfl, fun l hl => ?_⟩
    · obtain rfl : j = 0 := by omega
      show sampleImage.blockNo (sampleImage.inode 0) (0 / blkSize) ≠ 0
      rw [sampleImage_blockNo]
      decide
    · rw [hl.chain.unique sampleImage_mounted.free.chain]
      decide
  have hapart : ∀ i b, i = 0 → sampleImage.blockNo (sampleImage.inode i) b ≠ 2 ∧
      sampleImage.blockNo (sampleImage.inode i) b ≠ 4 := fun i b hi => by
    subst hi
    rw [sampleImage_blockNo]
    split <;> decide
  exact ⟨_, written_survives (P := (· = 0)) sampleImage_mounted sampleImage_mapped
    sampleImage_synced hapart (.cons ⟨hstep, hkeep⟩ (.nil _)), rfl⟩

end Myos.Kernel
