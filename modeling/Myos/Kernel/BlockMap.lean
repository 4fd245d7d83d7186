import Myos.Kernel.Mounted
import Myos.Lib.Run

/-!
# The block map while mounted

A volume remembers, of the calls there were, the disk block of every block
that was written, the byte last written at every position, and the free
blocks. In it a block once written stays where it is, and only the first write
to a block may take a free one. The kernel's runs are runs of a volume, and at
every moment `walk_block` and `file_read` find what the volume remembers, as
long as no call stores a number that is lost.

That happens at a block from 10 on which has no number yet: `walk_block` hands
out a pointer into a copy of the block of numbers, which `bread` made, and
what `file_write` stores there is never written to disk.
-/

namespace Myos.Kernel

open Myos.Lib

/-! ## The kernel's calls -/

/-- A call inside one block of an inode, and what it returned; or code that leaves the
file system alone. -/
inductive BlockEvent
  | write (i x n : Nat) (data : Nat → UInt8) (r : Int)
  | read (i x n : Nat) (r : Int)
  | other

/-- A step of the kernel, on files of the inodes `P`. -/
inductive Fs.Step (P : Nat → Prop) (ft fb : Nat) : Fs → BlockEvent → Fs → Prop
  | write {s s' : Fs} {i x n buf : Nat} {data : Nat → UInt8} {r : Int} {file file' : File}
      {l : List Nat} {pa : Nat → Nat} :
      P i → Asks s i x n file → FreeList s.mm l → Origin s.mm (ft :: fb :: l) buf n pa →
      (∀ j, j < n → data j = s.mm.mem (pa j)) →
      fileWrite buf n ⟨s, file⟩ = .ok r ⟨s', file'⟩ → Step P ft fb s (.write i x n data r) s'
  | read {s s' : Fs} {i x n buf : Nat} {r : Int} {file file' : File} {l : List Nat}
      {pa : Nat → Nat} :
      P i → Asks s i x n file → FreeList s.mm l → Target s.mm (ft :: fb :: l) buf n pa →
      fileRead buf n x ⟨s, file⟩ = .ok r ⟨s', file'⟩ → Step P ft fb s (.read i x n r) s'
  | other {s s' : Fs} {l : List Nat} :
      Mounted s' ft fb l → Still s s' ft fb → Step P ft fb s .other s'

/-- Frames for a call inside block `b` are free: `bread` does not look whether it got one. -/
def Fs.HasFrames (s : Fs) (b : Nat) : Prop :=
  ∀ l, FreeList s.mm l → framesFor b ≤ l.length

/-- What keeps the map: a write is to a direct block, or to one that has a number. -/
def Fs.Allows (s : Fs) : BlockEvent → Prop
  | .write i x n _ _ =>
    (n = 0 ∨ x / blkSize < 10 ∨ s.blockNo (s.inode i) (x / blkSize) ≠ 0) ∧
      s.HasFrames (x / blkSize)
  | .read _ x _ _ => s.HasFrames (x / blkSize)
  | .other => True

/-! ## The volume -/

/-- What is known of the blocks and bytes that were written, and which blocks are free. -/
structure Volume where
  block : Nat → Nat → Option Nat
  byte : Nat → Nat → Option UInt8
  free : Nat → Bool

namespace Volume

/-- Nothing was written yet. -/
def mounted (free : Nat → Bool) : Volume := ⟨fun _ _ => none, fun _ _ => none, free⟩

/-- A block is taken. -/
def take (v : Volume) (d : Nat) : Volume := { v with free := fun no => v.free no && decide (no ≠ d) }

/-- The bytes are put in disk block `d`. -/
def put (v : Volume) (i x n : Nat) (data : Nat → UInt8) (d : Nat) : Volume where
  block := fun j b => if j = i ∧ b = x / blkSize then some d else v.block j b
  byte := fun j y => if j = i ∧ x ≤ y ∧ y < x + n then some (data (y - x)) else v.byte j y
  free := v.free

section Put

variable (v : Volume) (i x n : Nat) (data : Nat → UInt8) (d : Nat)

theorem put_block (j b : Nat) : (v.put i x n data d).block j b =
    if j = i ∧ b = x / blkSize then some d else v.block j b := rfl

theorem put_byte (j y : Nat) : (v.put i x n data d).byte j y =
    if j = i ∧ x ≤ y ∧ y < x + n then some (data (y - x)) else v.byte j y := rfl

end Put

/-- A block that was written stays where it is; a first write finds its block there,
or takes a free one. -/
inductive Step : Volume → BlockEvent → Volume → Prop
  | again {v : Volume} {i x n d : Nat} {data : Nat → UInt8} :
      v.block i (x / blkSize) = some d → Step v (.write i x n data n) (v.put i x n data d)
  | found {v : Volume} {i x n d : Nat} {data : Nat → UInt8} :
      v.block i (x / blkSize) = none → d ≠ 0 → v.free d = false →
      Step v (.write i x n data n) (v.put i x n data d)
  | fresh {v : Volume} {i x n d : Nat} {data : Nat → UInt8} :
      v.block i (x / blkSize) = none → d ≠ 0 → v.free d = true →
      Step v (.write i x n data n) ((v.take d).put i x n data d)
  | refused {v : Volume} {i x n : Nat} {data : Nat → UInt8} {r : Int} :
      r ≠ n → Step v (.write i x n data r) v
  | empty {v : Volume} {i x : Nat} {data : Nat → UInt8} : Step v (.write i x 0 data 0) v
  | read {v : Volume} {i x n : Nat} {r : Int} : Step v (.read i x n r) v
  | other {v : Volume} : Step v .other v

/-- After a write the block has a place. -/
theorem Step.names {v w : Volume} {i x n : Nat} {data : Nat → UInt8} {r : Int}
    (h : Step v (.write i x n data r) w) (hr : r = n) (hn : 0 < n)
    (hv : v.block i (x / blkSize) = none) : ∃ d, d ≠ 0 ∧ w.block i (x / blkSize) = some d := by
  cases h with
  | again hd =>
    rw [hv] at hd
    cases hd
  | found _ hd _ => exact ⟨_, hd, if_pos ⟨rfl, rfl⟩⟩
  | fresh _ hd _ => exact ⟨_, hd, if_pos ⟨rfl, rfl⟩⟩
  | refused hne => exact absurd hr hne
  | empty => exact absurd hn (Nat.lt_irrefl 0)

end Volume

/-- The kernel finds what the volume remembers. -/
structure Coherent (v : Volume) (s : Fs) (ft fb : Nat) : Prop where
  free : ∀ no, v.free no = s.blkFree no
  /-- `walk_block` finds the disk block. -/
  resolves : ∀ i b d, v.block i b = some d → ∀ diskno alloc, s.HasFrames b →
    ∃ ptr s', walkBlock (s.inode i) b diskno alloc s = .ok (0, some ptr) s' ∧
      fsMm (load 2 ptr) s' = .ok d s'
  /-- `file_read` reads the bytes. -/
  reads : ∀ i x n d l buf pa file, v.block i (x / blkSize) = some d → Asks s i x n file →
    FreeList s.mm l → framesFor (x / blkSize) ≤ l.length →
    Target s.mm (ft :: fb :: l) buf n pa →
    ∃ s', fileRead buf n x ⟨s, file⟩ = .ok n s' ∧
      ∀ j c, j < n → v.byte i (x + j) = some c → s'.fs.mm.mem (pa j) = c

/-! ## What the volume remembers is so -/

/-- The volume and the kernel agree. -/
structure Volume.Holds (v : Volume) (s : Fs) (P : Nat → Prop) (ft fb : Nat) : Prop where
  mounted : ∃ l, Mounted s ft fb l
  mapped : Mapped s P
  free : ∀ no, v.free no = s.blkFree no
  block : ∀ i b d, v.block i b = some d → P i ∧ d ≠ 0 ∧ s.blockNo (s.inode i) b = d
  byte : ∀ i x c, v.byte i x = some c →
    ∃ d, v.block i (x / blkSize) = some d ∧ s.disk (blkSize * d + x % blkSize) = c

namespace Volume.Holds

variable {v : Volume} {s s' : Fs} {P : Nat → Prop} {ft fb i x n d : Nat} {l : List Nat}
  {data : Nat → UInt8}

/-- At first nothing is remembered. -/
theorem start (h : Mounted s ft fb l) (hm : Mapped s P) :
    (Volume.mounted s.blkFree).Holds s P ft fb :=
  ⟨⟨l, h⟩, hm, fun _ => rfl, fun _ _ _ h => (nomatch h), fun _ _ _ h => (nomatch h)⟩

/-- STEP: code that leaves the disk and the two frames as they are. -/
theorem still (h : v.Holds s P ft fb) (hm : Mounted s' ft fb l) (hst : Still s s' ft fb) :
    v.Holds s' P ft fb := by
  obtain ⟨l₀, h₀⟩ := h.mounted
  refine ⟨⟨l, hm⟩, hst.mapped h₀ h.mapped, fun no => ?_, fun i b d hb => ?_, fun i x c hc => ?_⟩
  · rw [hst.blkFree h₀]
    exact h.free no
  · obtain ⟨hi, hpos, hno⟩ := h.block i b d hb
    rw [hst.inode, hst.blockNo h₀ (h.mapped.lt i hi)]
    exact ⟨hi, hpos, hno⟩
  · rw [hst.disk]
    exact h.byte i x c hc

/-- STEP: bytes stored in a block. -/
theorem stored {u : Volume} (h : v.Holds s P ft fb) (hi : P i) (hfit : x % blkSize + n ≤ blkSize)
    (hst : Stored s s' P i x n data d) (hm : Mounted s' ft fb l) (hblock : u.block = v.block)
    (hbyte : u.byte = v.byte) (hfree : ∀ no, u.free no = s'.blkFree no) :
    (u.put i x n data d).Holds s' P ft fb := by
  refine ⟨⟨l, hm⟩, hst.mapped h.mapped hi, hfree, fun j b e hb => ?_, fun j y c hc => ?_⟩
  · rw [put_block] at hb
    by_cases heq : j = i ∧ b = x / blkSize
    · rw [if_pos heq] at hb
      obtain ⟨rfl, rfl⟩ := heq
      rw [← Option.some.inj hb, hst.inode]
      exact ⟨hi, hst.pos, hst.there⟩
    · rw [if_neg heq, hblock] at hb
      obtain ⟨hj, hpos, hno⟩ := h.block j b e hb
      rw [hst.inode, hst.others j b hj heq]
      exact ⟨hj, hpos, hno⟩
  · rw [put_byte, hbyte] at hc
    by_cases hin : j = i ∧ x ≤ y ∧ y < x + n
    · rw [if_pos hin] at hc
      obtain ⟨rfl, hlo, hhi⟩ := hin
      obtain ⟨hdiv, hmod⟩ := chunk_block
        (by rw [chunk_one hfit]; omega : y - x < chunk x n)
      rw [Nat.add_sub_cancel' hlo] at hdiv hmod
      refine ⟨d, by rw [put_block, if_pos ⟨rfl, hdiv⟩], ?_⟩
      rw [hst.disk, Mem.overlay_in (by omega), ← Option.some.inj hc, hmod,
        show blkSize * d + (x % blkSize + (y - x)) - (blkSize * d + x % blkSize) = y - x by omega]
    · rw [if_neg hin] at hc
      obtain ⟨e, hb, hdisk⟩ := h.byte j y c hc
      obtain ⟨hj, hpos, hno⟩ := h.block j _ e hb
      by_cases heq : j = i ∧ y / blkSize = x / blkSize
      · have hed : e = d := by
          obtain ⟨rfl, hdiv⟩ := heq
          rw [hdiv] at hno
          rcases hst.block with ⟨hd, -⟩ | ⟨hz, -, -⟩
          · exact hno.symm.trans hd
          · exact absurd (hno.symm.trans hz) hpos
        refine ⟨d, by rw [put_block, if_pos heq], ?_⟩
        rw [hed] at hdisk
        rw [hst.disk, Mem.overlay_out, hdisk]
        have hout : y < x ∨ x + n ≤ y := by
          by_contra hcon
          exact hin ⟨heq.1, by omega, by omega⟩
        have hy := heq.2
        unfold blkSize at *
        omega
      · refine ⟨e, by rw [put_block, if_neg heq, hblock]; exact hb, ?_⟩
        have hapart := hst.apart h.mapped hi hj heq
        rw [hno] at hapart
        rw [hst.disk, Mem.overlay_out, hdisk]
        have := Nat.mod_lt y (by decide : 0 < blkSize)
        unfold blkSize at *
        omega

/-- STEP: a write. -/
theorem write {buf : Nat} {r : Int} {file file' : File} {pa : Nat → Nat}
    (h : v.Holds s P ft fb) (hi : P i) (hask : Asks s i x n file) (hl : FreeList s.mm l)
    (horigin : Origin s.mm (ft :: fb :: l) buf n pa) (hdata : ∀ j, j < n → data j = s.mm.mem (pa j))
    (hrun : fileWrite buf n ⟨s, file⟩ = .ok r ⟨s', file'⟩)
    (hallow : s.Allows (.write i x n data r)) :
    ∃ w, Volume.Step v (.write i x n data r) w ∧ w.Holds s' P ft fb := by
  obtain ⟨l₀, h₀⟩ := h.mounted
  have hm := h₀.relist hl
  obtain ⟨hb, hframes⟩ := hallow
  have hx := hask.lt
  rcases Nat.eq_zero_or_pos n with rfl | hn
  · rw [fileWrite_zero] at hrun
    injection hrun with hr hs
    injection hs with hs _
    subst hr hs
    exact ⟨v, .empty, h⟩
  · have hns := (hm.fileWrite_serves (s := ⟨s, file⟩) buf hask.offset hx hask.fits
      (hframes l hl)).1
    rcases fileWrite_block (s := ⟨s, file⟩) hm h.mapped hi hask.inode hask.offset hx hask.fits hn
      (hb.resolve_left (Nat.ne_of_gt hn)) horigin hns with ⟨hnone, -⟩ | ⟨s₁, l', d, hok, hm', hst⟩
    · rw [hnone] at hrun
      injection hrun with hr hs
      injection hs with hs _
      subst hr hs
      exact ⟨v, .refused (by omega), h⟩
    · rw [hok] at hrun
      injection hrun with hr hs
      subst hr hs
      have hst' := hst.data_congr hdata
      cases hvb : v.block i (x / blkSize) with
      | some c =>
        obtain ⟨-, hpos, hno⟩ := h.block i _ c hvb
        rcases hst'.block with ⟨hd, hfree⟩ | ⟨hz, -, -⟩
        · rw [← hd, hno] at hst'
          exact ⟨_, .again hvb, h.stored hi hask.fits hst' hm' rfl rfl fun no => by
            rw [hfree, h.free]⟩
        · exact absurd (hno.symm.trans hz) hpos
      | none =>
        rcases hst'.block with ⟨hd, hfree⟩ | ⟨-, hd, hfree⟩
        · have htaken : v.free d = false := by
            rw [h.free, ← hd, h.mapped.used i _ hi]
          exact ⟨_, .found hvb hst'.pos htaken, h.stored hi hask.fits hst' hm' rfl rfl fun no => by
            rw [hfree, h.free]⟩
        · exact ⟨_, .fresh hvb hst'.pos (by rw [h.free, hd]),
            h.stored hi hask.fits hst' hm' rfl rfl fun no => by
              rw [hfree, ← h.free]
              rfl⟩

/-- STEP: whatever the kernel does next, the volume does. -/
theorem step {e : BlockEvent} (h : v.Holds s P ft fb) (hstep : Fs.Step P ft fb s e s')
    (hallow : s.Allows e) : ∃ w, Volume.Step v e w ∧ w.Holds s' P ft fb := by
  obtain ⟨l₀, h₀⟩ := h.mounted
  cases hstep with
  | write hi hask hl horigin hdata hrun => exact h.write hi hask hl horigin hdata hrun hallow
  | @read _ i x n buf r file file' l pa hi hask hl htarget hrun =>
    have hm := h₀.relist hl
    have hns := hm.fileRead_serves (s := ⟨s, file⟩) buf hask.lt hask.fits (hallow l hl)
    rw [hrun] at hns
    obtain ⟨l', c, data, hc, hread⟩ := fileRead_block (s := ⟨s, file⟩) hm (h.mapped.lt i hi)
      hask.inode hask.offset hask.lt hask.fits htarget.free hrun hns
    exact ⟨v, .read, h.still (hm.reads hread hns) (hread.still hm hc htarget)⟩
  | other hm hst => exact ⟨v, .other, h.still hm hst⟩

/-- What the volume remembers, the kernel finds. -/
theorem coherent (h : v.Holds s P ft fb) : Coherent v s ft fb := by
  obtain ⟨l₀, h₀⟩ := h.mounted
  refine ⟨h.free, fun i b d hb diskno alloc hframes => ?_,
    fun i x n d l buf pa file hb hask hl hf htarget => ?_⟩
  · obtain ⟨hi, hpos, hno⟩ := h.block i b d hb
    have hreach : s.Reaches (s.inode i) b := .of_blockNo (by rw [hno]; exact hpos)
    have hns := (walkBlock_spends (s.inode i) b diskno alloc s l₀ h₀.free h₀.npages
      (Nat.le_trans (Nat.sub_le _ _) (hframes l₀ h₀.free)) h₀.served).1
    obtain ⟨ptr, s', l', hrun, -, hent⟩ := walkBlock_run h₀.free h₀.npages
      (h₀.kept_inode (h.mapped.lt i hi)) diskno alloc hreach hns
    exact ⟨ptr, s', hrun, hno ▸ hent.load⟩
  · obtain ⟨hi, hpos, hno⟩ := h.block i _ d hb
    obtain ⟨s', hrun, hbytes⟩ := (h₀.relist hl).fileRead_one (h.mapped.lt i hi) hask
      (by rw [hno]; exact hpos) hf htarget
    refine ⟨s', hrun, fun j c hj hc => ?_⟩
    have hone : (x + j) / blkSize = x / blkSize :=
      (chunk_block (by rw [chunk_one hask.fits]; exact hj : j < chunk x n)).1
    obtain ⟨e, hbe, hdisk⟩ := h.byte i (x + j) c hc
    rw [hone, hb] at hbe
    rw [hbytes j hj, Fs.fileByte, Fs.fileAddr, hone, hno, ← hdisk, Option.some.inj hbe]

end Volume.Holds

/-- THE MAP: in a run that never writes to a block from 10 on that has no number yet, and
in which `bread` gets its frames, `walk_block` finds every block that was written where it
was written, `file_read` the bytes last written, and no block gets a second disk block. -/
theorem block_map_coherent {P : Nat → Prop} {s s' : Fs} {ft fb : Nat} {l : List Nat}
    {es : List BlockEvent} (h : Mounted s ft fb l) (hm : Mapped s P)
    (hrun : Steps (fun s e s' => Fs.Step P ft fb s e s' ∧ s.Allows e) s es s') :
    ∃ v, Steps Volume.Step (.mounted s.blkFree) es v ∧ Coherent v s' ft fb := by
  obtain ⟨v, hv, hold⟩ := @Steps.simulate _ _ _ _ _ _ _ Volume.Step
    (fun s v => v.Holds s P ft fb) (fun hrel hstep => hrel.step hstep.1 hstep.2) _ hrun
    (Volume.Holds.start h hm)
  exact ⟨v, hv, hold.coherent⟩

/-! ## The number that is lost -/

section Lost

variable {s : FileSt} {ft fb i x n buf : Nat} {l : List Nat} {P : Nat → Prop} {pa : Nat → Nat}

/-- The entries of a copy lie in its frame. -/
theorem copy_div {q e y : Nat} (he : e < 2048) (h1 : pageSize * q + 2 * e ≤ y)
    (h2 : y < pageSize * q + 2 * e + 2) : y / pageSize = q := by
  unfold pageSize at *
  omega

/-- A write to a block from 10 on that has no number yet succeeds, and the block still
has none. -/
theorem fileWrite_lost (h : Mounted s.fs ft fb l) (hm : Mapped s.fs P) (hi : P i)
    (hinode : s.file.inode = s.fs.inode i) (ho : s.file.offset = x) (hlow : ¬ x / blkSize < 10)
    (hx : x / blkSize < 2058) (hfit : x % blkSize + n ≤ blkSize) (hn : 0 < n)
    (h10 : s.fs.slot (s.fs.inode i) 10 ≠ 0)
    (hno : s.fs.blockNo (s.fs.inode i) (x / blkSize) = 0)
    (hfree : ∃ no, s.fs.blkFree no = true)
    (horigin : Origin s.fs.mm (ft :: fb :: l) buf n pa)
    (hns : (fileWrite buf n s).state.starved = false) :
    ∃ s' l', fileWrite buf n s = .ok n s' ∧ Mounted s'.fs ft fb l' ∧
      s'.fs.inode i = s.fs.inode i ∧ s'.fs.blockNo (s.fs.inode i) (x / blkSize) = 0 := by
  have hpos : x + n < 2 ^ 31 := by
    unfold blkSize at *
    omega
  have hkept := h.kept_inode (hm.lt i hi)
  obtain ⟨t, ht⟩ : ∃ t, (2 : Nat) ^ 32 = t + 1 + 1 := ⟨2 ^ 32 - 2, by decide⟩
  have hrun : fileWrite buf n s = (fileFs (walkBlock (s.fs.inode i) (x / blkSize) none 1) >>=
      fun r => fileWriteAt n (x + n) (t + 1) x buf r.2) s := by
    unfold fileWrite
    rw [Act.gets_bind_apply, ho, ← Nat.cast_add, u32_nat (by omega), ht,
      fileWriteLoop_succ n (x + n) (t + 1) x buf none (by omega) (by omega), hinode]
  rw [hrun] at hns ⊢
  have hwalk := Act.Raises.of_bind
    (fun r : Int × Option Nat => fileWriteAt_starves n (x + n) (t + 1) x buf r.2) hns
  rw [fileFs, FileSt.starved, Act.zoom_state] at hwalk
  obtain ⟨q, l₁, f, rfl, hrun₁, htook, hent⟩ :=
    walkBlock_copy h.free h.npages hkept none 1 hlow hx h10 hwalk
  have hserved : f.starved = false := by
    rw [hrun₁] at hwalk
    exact hwalk
  rw [hno] at hent
  have hf : Mounted f ft fb l₁ :=
    h.next htook.free htook.sub htook.npages htook.inoTable htook.blkBitmap hserved
  rw [Act.bind_ok (fileFs_ok hrun₁)] at hns ⊢
  obtain ⟨ptr, hptr⟩ : ∃ ptr, ptr = frameVa q + 2 * (x / blkSize - 10) := ⟨_, rfl⟩
  rw [← hptr] at hent hns ⊢
  have hsame : ∀ no, f.blkFree no = s.fs.blkFree no :=
    h.blkFree_congr htook.blkBitmap fun y hy => htook.mem y (by rw [hy]; exact h.bitmap_out)
  rcases fileWriteAt_gives (s := FileSt.setFs f s) (t + 1) hf hent with
    ⟨-, hnone⟩ | ⟨no, hd, hgives⟩
  · obtain ⟨no, hd⟩ := hfree
    rw [← hsame no] at hd
    exact absurd ((hnone no).symm.trans hd) (by decide)
  · have hlt : no < blkSize * 8 := by
      unfold Fs.blkFree at hd
      exact of_decide_eq_true (Bool.and_eq_true_iff.mp hd).1
    obtain ⟨f₁, hf₁⟩ : ∃ f₁, f₁ = f.given ptr no := ⟨_, rfl⟩
    -- The number goes to the copy, in frame `q`, and the bitmap is in frame `fb`.
    have hmem : ∀ y, y / pageSize ≠ fb → y / pageSize ∉ q :: l₁ →
        f₁.mm.mem y = s.fs.mm.mem y := fun y hy hyl => by
      rw [hf₁, Fs.given_mem_eq, Mem.wr_out, hf.taken_mem hlt hy, htook.mem y hyl]
      have hq : y / pageSize ≠ q := fun hq => hyl (hq ▸ List.mem_cons_self)
      have hsub : ptr - kbase = pageSize * q + 2 * (x / blkSize - 10) := by
        rw [hptr, frameVa]
        omega
      rw [hsub]
      by_contra hcon
      exact hq (copy_div (Nat.sub_lt_left_of_lt_add (Nat.not_lt.mp hlow) hx)
        (Nat.not_lt.mp fun h1 => hcon (.inl h1)) (Nat.not_le.mp fun h2 => hcon (.inr h2)))
    have hm₁ : Mounted f₁ ft fb l₁ := by
      rw [hf₁]
      exact hf.given ptr
    have hent₁ : Entry f₁ l₁ ptr no := by
      refine ⟨hent.kept, ?_⟩
      rw [hf₁, Fs.given_mem_eq, Mem.rd_wr_same]
      exact Nat.mod_eq_of_lt (Nat.lt_trans hlt (by decide))
    have horigin₁ : Origin f₁.mm l₁ buf n pa :=
      horigin.rest (c := 0) (by omega)
        (fun g hg => List.mem_cons_of_mem _ (List.mem_cons_of_mem _ (List.mem_cons_of_mem _ hg)))
        (by rw [hf₁, Fs.given_cr3]; exact htook.cr3) fun y hy => by
          rw [List.mem_cons, List.mem_cons, not_or, not_or] at hy
          exact hmem y hy.2.1 hy.2.2
    have hinode₁ : f₁.inode i = s.fs.inode i := by
      rw [hf₁, Fs.given_inode, Fs.inode, Fs.inode, htook.inoTable]
    have hdisk₁ : f₁.disk = s.fs.disk := by
      rw [hf₁, Fs.given_disk, htook.disk]
    have hinside : ∀ y, s.fs.inode i - kbase ≤ y → y < s.fs.inode i - kbase + inodeSize →
        f₁.mm.mem y = s.fs.mm.mem y := fun y h1 h2 => by
      have hy := h.inode_div (hm.lt i hi) h1 h2
      exact hmem y (by rw [hy]; exact h.apart) (by rw [hy]; exact h.table_out)
    have hno₁ := Fs.blockNo_congr hkept.lo hdisk₁ hinside (x / blkSize)
    have hten : f₁.slot (s.fs.inode i) 10 = s.fs.slot (s.fs.inode i) 10 :=
      h.slot_congr (hm.lt i hi) (Nat.le_refl 10) fun y hy =>
        hmem y (by rw [hy]; exact h.apart) (by rw [hy]; exact h.table_out)
    obtain ⟨s₁, hs₁⟩ : ∃ s₁, s₁ = FileSt.setFs f₁ s := ⟨_, rfl⟩
    have hgives₁ : fileWriteAt n (x + n) (t + 1) x buf (some ptr) (FileSt.setFs f s) =
        fileWriteStore n (x + n) (t + 1) x buf (some ptr) ptr s₁ := by
      rw [hs₁, hf₁]
      exact hgives
    rw [hgives₁] at hns ⊢
    have hfs₁ : s₁.fs = f₁ := by rw [hs₁]; rfl
    rw [← hfs₁] at hm₁ hent₁ horigin₁ hno₁ hten hinode₁
    obtain ⟨s', l', hw, hst, hwrite⟩ :=
      fileWriteStore_one t _ hm₁.free hm₁.npages hent₁ hfit hpos horigin₁ hns
    have hoff : no ≠ s₁.fs.slot (s.fs.inode i) 10 := by
      intro heq
      have hused := hsame no
      rw [heq, hten, hm.ind i hi, ← hten, ← heq] at hused
      exact absurd (hused.symm.trans hd) (by decide)
    have hlast := hw.blockNo_off (hkept.mono htook.sub) hfit (x / blkSize) fun _ => hoff
    refine ⟨s', l', hwrite, hm₁.wrote hw hst, ?_, ?_⟩
    · rw [← hinode₁, hw.rest]
      rfl
    · rw [hlast, hno₁, hno]

end Lost

/-! ## A volume to start from -/

/-- Frame 1 holds an inode whose block of numbers is the disk block 30, and frame 2 a
bitmap that has block 40 free. -/
def sampleTable : Mem :=
  Mem.wr 2 (Mem.wr 1 (fun _ => 0) (pageSize * 2 + 5) 1) (pageSize * 1 + blockOff + 2 * 10) 30

/-- An empty disk. -/
def sampleVolume : Fs :=
  { sampleFile.fs with
    mm := { sampleFile.fs.mm with mem := sampleTable }
    disk := fun _ => 0
    blkBitmap := frameVa 2 }

theorem sampleVolume_mm : sampleVolume.mm = sampleFile.fs.mm.setMem sampleTable := rfl

theorem sampleVolume_mounted : Mounted sampleVolume 1 2 [8, 9, 10, 11, 12, 13, 14, 15] where
  free := by
    rw [sampleVolume_mm]
    exact sampleFile_list.congr rfl rfl rfl
  npages := by decide
  served := rfl
  table := rfl
  bitmap := rfl
  apart := by decide
  table_lt := by decide
  bitmap_lt := by decide
  table_out := by decide
  bitmap_out := by decide

theorem sampleVolume_free (no : Nat) : sampleVolume.blkFree no =
    (decide (no < blkSize * 8) && Bitmap.bit sampleTable (pageSize * 2) no) := by
  rw [Fs.blkFree, sampleVolume_mounted.bitmap_sub]
  rfl

theorem sampleVolume_slot (i : Nat) : sampleVolume.slot (sampleVolume.inode 0) i =
    Mem.rd 2 sampleTable (pageSize * 1 + (inodeSize * 0 + blockOff + 2 * i)) := by
  rw [Fs.slot, sampleVolume_mounted.blockSlot_sub]
  rfl

theorem sampleVolume_ten : sampleVolume.slot (sampleVolume.inode 0) 10 = 30 := by
  rw [sampleVolume_slot]
  decide

/-- The file has no block yet. -/
theorem sampleVolume_blockNo (b : Nat) :
    sampleVolume.blockNo (sampleVolume.inode 0) b = 0 := by
  by_cases hlow : b < 10
  · have hall : ∀ b, b < 10 →
        Mem.rd 2 sampleTable (pageSize * 1 + (inodeSize * 0 + blockOff + 2 * b)) = 0 := by decide
    rw [Fs.blockNo, if_pos hlow, sampleVolume_slot, hall b hlow]
  · by_cases hb : b < 2058
    · rw [Fs.blockNo, if_neg hlow, if_pos hb, sampleVolume_ten, if_neg (by decide)]
      exact Mem.rd_zero fun _ _ _ => rfl
    · rw [Fs.blockNo, if_neg hlow, if_neg hb]

theorem sampleVolume_mapped : Mapped sampleVolume (· = 0) where
  lt := fun i hi => by subst hi; decide
  zero := by rw [sampleVolume_free]; decide
  used := fun i b hi => by
    subst hi
    rw [sampleVolume_blockNo, sampleVolume_free]
    decide
  ind := fun i hi => by
    subst hi
    rw [sampleVolume_ten, sampleVolume_free]
    decide
  inj := fun i b j c hi _ hne => by
    subst hi
    exact absurd (sampleVolume_blockNo b) hne
  off := fun i b j hi _ hne => by
    subst hi
    exact absurd (sampleVolume_blockNo b) hne

/-- The kernel's own page at frame 3 is a buffer. -/
theorem sample_origin (m : Mm) {n : Nat} (hn : n ≤ pageSize) :
    Origin m (1 :: 2 :: [8, 9, 10, 11, 12, 13, 14, 15]) (frameVa 3) n
      fun i => pageSize * 3 + i := by
  refine ⟨fun m _ i hi => Mm.kpa_frameVa (by decide) (by omega), fun i hi => ?_⟩
  simp only [List.mem_cons, List.not_mem_nil, or_false]
  unfold pageSize at *
  omega

/-- The file of inode 0, open at `x`. -/
def sampleOpen (x : Nat) : File :=
  { refcount := 1, offset := x, inode := sampleVolume.inode 0, type := .file }

theorem sampleOpen_asks {x : Nat} (hx : x / blkSize < 2058) (hfit : x % blkSize + 1 ≤ blkSize) :
    Asks sampleVolume 0 x 1 (sampleOpen x) := ⟨rfl, rfl, hx, hfit⟩

/-- A byte at 40960, the first of block 10, is written, and its block is not found again. -/
theorem block_map_lost : ∃ s', Steps (Fs.Step (· = 0) 1 2) sampleVolume
      [.write 0 40960 1 (fun _ => 0) 1] s' ∧
    ¬ ∃ v, Steps Volume.Step (.mounted sampleVolume.blkFree) [.write 0 40960 1 (fun _ => 0) 1] v ∧
      Coherent v s' 1 2 := by
  obtain ⟨x, hx⟩ : ∃ x, x = 40960 := ⟨_, rfl⟩
  have hten : x / blkSize = 10 := by rw [hx]; rfl
  have hzero : x % blkSize = 0 := by rw [hx]; rfl
  have hask : Asks sampleVolume 0 x 1 (sampleOpen x) :=
    sampleOpen_asks (by rw [hten]; decide) (by rw [hzero]; decide)
  have hfree : ∃ no, sampleVolume.blkFree no = true := ⟨40, by rw [sampleVolume_free]; decide⟩
  have hframes : framesFor (x / blkSize) = 2 := by rw [hten]; rfl
  obtain ⟨f, hfs, hfile⟩ : ∃ f : FileSt, f.fs = sampleVolume ∧ f.file = sampleOpen x :=
    ⟨⟨sampleVolume, sampleOpen x⟩, rfl, rfl⟩
  have hm := sampleVolume_mounted
  have hmap := sampleVolume_mapped
  have horigin := sample_origin sampleVolume.mm (n := 1) (by decide)
  have hno := sampleVolume_blockNo (x / blkSize)
  have hslot := sampleVolume_ten
  rw [← hfs] at hm hmap horigin hask hfree hno hslot
  rw [← hfile] at hask
  obtain ⟨hns, l', hl', hlen⟩ := hm.fileWrite_serves (n := 1) (frameVa 3) hask.offset hask.lt
    hask.fits (by rw [hframes]; decide)
  rw [hframes] at hlen
  obtain ⟨s', l'', hrun, hm', hinode, hlost⟩ := fileWrite_lost hm hmap (rfl : 0 = 0) hask.inode
    hask.offset (by rw [hten]; decide) hask.lt hask.fits Nat.zero_lt_one
    (by rw [hslot]; decide) hno hfree horigin hns
  rw [hrun] at hl'
  refine ⟨s'.fs, .cons ?_ (.nil _), ?_⟩
  · rw [← hfs, ← hx]
    refine .write (P := (· = 0)) rfl hask hm.free horigin (fun j hj => ?_) hrun
    rw [hfs, sampleVolume_mm]
    have hall : ∀ j, j < 1 → (0 : UInt8) = sampleTable (pageSize * 3 + j) := by decide
    exact hall j hj
  · rintro ⟨v, hv, hco⟩
    cases hv with
    | cons hstep hnil =>
      cases hnil
      rw [← hx] at hstep
      obtain ⟨d, hd, hblock⟩ := hstep.names rfl Nat.zero_lt_one rfl
      have hroom : s'.fs.HasFrames (x / blkSize) := fun l₁ hl₁ => by
        rw [hframes, hl₁.chain.unique hl'.chain]
        exact Nat.le_of_add_le_add_right (Nat.le_trans (by decide) hlen)
      obtain ⟨ptr, s₁, hwalk, hload⟩ := hco.resolves 0 _ d hblock none 0 hroom
      have hkept := hm'.kept_inode (by decide : 0 < inodesInTable)
      rw [hinode] at hwalk hkept
      by_cases h10 : s'.fs.slot (f.fs.inode 0) 10 = 0
      · rw [walkBlock_none none (by rw [hten]; decide) hask.lt hkept h10] at hwalk
        cases hwalk
      · have hserved := (walkBlock_spends (f.fs.inode 0) (x / blkSize) none 0 s'.fs l'' hm'.free
          hm'.npages (Nat.le_trans (Nat.sub_le _ _) (hroom l'' hm'.free)) hm'.served).1
        obtain ⟨ptr', s₂, l₂, hwalk', -, hent⟩ := walkBlock_run hm'.free hm'.npages hkept none 0
          (.inr ⟨hask.lt, h10⟩) hserved
        rw [hwalk'] at hwalk
        injection hwalk with hptr hs
        injection hptr with _ hptr
        rw [← hs, ← Option.some.inj hptr, hent.load] at hload
        injection hload with hd0 _
        exact hd (hd0.symm.trans hlost)

/-- The map at a run of one write, to the first block, which is direct. -/
theorem block_map_coherent_write : ∃ s' v,
    Steps Volume.Step (.mounted sampleVolume.blkFree) [.write 0 0 1 (fun _ => 0) 1] v ∧
      Coherent v s' 1 2 := by
  have hask : Asks sampleVolume 0 0 1 (sampleOpen 0) := sampleOpen_asks (by decide) (by decide)
  have horigin := sample_origin sampleVolume.mm (n := 1) (by decide)
  have hserves := sampleVolume_mounted.fileWrite_serves (s := ⟨sampleVolume, sampleOpen 0⟩)
    (n := 1) (frameVa 3) hask.offset hask.lt hask.fits (by decide)
  have hframes : sampleVolume.HasFrames 0 := fun l hl => by
    rw [hl.chain.unique sampleVolume_mounted.free.chain]
    decide
  rcases fileWrite_block (s := ⟨sampleVolume, sampleOpen 0⟩) sampleVolume_mounted
    sampleVolume_mapped rfl hask.inode hask.offset hask.lt hask.fits Nat.zero_lt_one
    (.inl (by decide)) horigin hserves.1 with ⟨-, hnone⟩ | ⟨⟨s', file'⟩, l', d, hrun, -, -⟩
  · have hfree : sampleVolume.blkFree 40 = false := hnone 40
    rw [sampleVolume_free] at hfree
    exact absurd hfree (by decide)
  · refine ⟨s', block_map_coherent sampleVolume_mounted sampleVolume_mapped
      (.cons ⟨.write (P := (· = 0)) rfl hask sampleVolume_mounted.free horigin (fun j hj => ?_) hrun,
        .inr (.inl (by decide)), hframes⟩ (.nil s'))⟩
    have hall : ∀ j, j < 1 → (0 : UInt8) = sampleTable (pageSize * 3 + j) := by decide
    exact hall j hj

end Myos.Kernel
