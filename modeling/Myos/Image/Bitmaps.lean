import Myos.Image.Allocation
import Myos.Kernel.BlockMap
import Myos.Lib.Draws

/-!
# The two allocators

The kernel and the image builder look for a free number and mark it used with the same
code, on a bitmap in kernel memory and on one in the mapping. Each is a draw from the
bitmap, and `get_blk` is such a draw. The builder draws its inodes this way; where it
draws a block, it stores the number in its place before it marks it.
-/

namespace Myos.Image

open Myos.Lib
open Myos.Kernel (blkSize pageSize kbase Mm Fs Kept)

/-- Looking for a free number and taking it, in the kernel. -/
def kernelDraw (bitmap : Nat) : Act Mm Int :=
  Bitmap.draw (Kernel.getFreeNo bitmap) (Kernel.setBitmap bitmap)

/-- The same in the image builder. -/
def imageDraw (bitmap : Nat) : Act Mem Int := Bitmap.draw (getFreeNo bitmap) (setBitmap bitmap)

/-- A sequence of the allocator, run in the file system. -/
theorem fsMm_bind {α β : Type} (x : Act Mm α) (f : α → Act Mm β) :
    Kernel.fsMm (x >>= f) = Kernel.fsMm x >>= fun a => Kernel.fsMm (f a) :=
  @Act.zoom_bind _ _ _ _ Fs.mm Fs.setMm (fun _ _ => rfl) (fun _ _ _ => rfl) x f

/-- `get_blk` draws from the block bitmap. -/
theorem getBlk_eq_draw (s : Fs) : Kernel.getBlk s = Kernel.fsMm (kernelDraw s.blkBitmap) s := by
  unfold Kernel.getBlk kernelDraw Bitmap.draw
  rw [Act.gets_bind_apply, fsMm_bind]
  refine congrFun (congrArg (Kernel.fsMm (Kernel.getFreeNo s.blkBitmap) >>= ·) ?_) s
  funext no
  split
  · rfl
  · exact (fsMm_bind (Kernel.setBitmap s.blkBitmap no.toNat) fun _ => pure no).symm

section Draws

variable {l : List Nat} {bitmap no x : Nat} {s : Mm} {m : Mem}

theorem clear_region (hno : no < blkSize * 8) (hx : x < bitmap ∨ bitmap + blkSize ≤ x) :
    Bitmap.clear m bitmap no x = m x := by
  refine Bitmap.clear_out ?_
  unfold blkSize at *
  omega

/-- Any number of draws of the kernel, each of which returns. -/
theorem kernelDraw_run (hk : Kept l bitmap pageSize) (n : Nat) :
    ∃ rs s', rs.length = n ∧ Steps (fun s r s' => kernelDraw bitmap s = .ok r s') s rs s' ∧
      (∀ x, x < bitmap - kbase ∨ bitmap - kbase + blkSize ≤ x → s'.mem x = s.mem x) ∧
      Bitmap.Drawn (blkSize * 8) (Bitmap.bit s.mem (bitmap - kbase)) rs
        (Bitmap.bit s'.mem (bitmap - kbase)) := by
  refine @Bitmap.draws_run _ _ _ (fun s : Mm => Bitmap.bit s.mem (bitmap - kbase))
    (fun s' => ∀ x, x < bitmap - kbase ∨ bitmap - kbase + blkSize ≤ x → s'.mem x = s.mem x) _ _
    (fun s' _ => ?_) (fun s' no hgood hno => ?_) n fun _ _ => rfl
  · refine (Kernel.getFreeNoLoop_run hk (blkSize * 8) 0 (Nat.le_of_eq (Nat.zero_add _))).trans ?_
    cases Bitmap.firstFrom (Bitmap.bit s'.mem (bitmap - kbase)) (blkSize * 8) 0 <;> rfl
  · exact ⟨_, Kernel.setBitmap_run hk hno,
      fun x hx => (clear_region hno hx).trans (hgood x hx), Bitmap.bit_clear _ _ _⟩

/-- Any number of draws of the image builder. -/
theorem imageDraw_run (hb : bitmap + blkSize ≤ imgSize) (n : Nat) :
    ∃ rs m', rs.length = n ∧ Steps (fun m r m' => imageDraw bitmap m = .ok r m') m rs m' ∧
      (∀ x, x < bitmap ∨ bitmap + blkSize ≤ x → m' x = m x) ∧
      Bitmap.Drawn (blkSize * 8) (Bitmap.bit m bitmap) rs (Bitmap.bit m' bitmap) := by
  refine @Bitmap.draws_run _ _ _ (fun m : Mem => Bitmap.bit m bitmap)
    (fun m' => ∀ x, x < bitmap ∨ bitmap + blkSize ≤ x → m' x = m x) _ _
    (fun m' _ => ?_) (fun m' no hgood hno => ?_) n fun _ _ => rfl
  · refine (getFreeNoLoop_run hb (blkSize * 8) 0 (Nat.le_of_eq (Nat.zero_add _))).trans ?_
    cases Bitmap.firstFrom (Bitmap.bit m' bitmap) (blkSize * 8) 0 <;> rfl
  · exact ⟨_, setBitmap_run hb hno,
      fun x hx => (clear_region hno hx).trans (hgood x hx), Bitmap.bit_clear _ _ _⟩

end Draws

/-- A run of draws is a run of `get_blk`. -/
theorem getBlk_steps {s s' : Mm} {rs : List Int} {fs : Fs} (hbitmap : fs.blkBitmap = bitmap)
    (h : Steps (fun s r s' => kernelDraw bitmap s = .ok r s') s rs s') :
    Steps (fun fs r fs' => Kernel.getBlk fs = .ok r fs') (Fs.setMm s fs) rs (Fs.setMm s' fs) := by
  induction h with
  | nil s => exact .nil _
  | cons hstep _ ih =>
    refine .cons ?_ ih
    rw [getBlk_eq_draw]
    show Kernel.fsMm (kernelDraw fs.blkBitmap) _ = _
    rw [hbitmap]
    exact Kernel.fsMm_ok hstep

/-- Any number of calls of `get_blk`. -/
theorem getBlk_run {fs : Fs} (hk : Kept l fs.blkBitmap pageSize) (n : Nat) :
    ∃ rs s', rs.length = n ∧
      Steps (fun fs r fs' => Kernel.getBlk fs = .ok r fs') fs rs (Fs.setMm s' fs) ∧
      (∀ x, x < fs.blkBitmap - kbase ∨ fs.blkBitmap - kbase + blkSize ≤ x →
        s'.mem x = fs.mm.mem x) ∧
      Bitmap.Drawn (blkSize * 8) (Bitmap.bit fs.mm.mem (fs.blkBitmap - kbase)) rs
        (Bitmap.bit s'.mem (fs.blkBitmap - kbase)) := by
  obtain ⟨rs, s', hlen, hsteps, hframe, hdrawn⟩ := @kernelDraw_run l fs.blkBitmap fs.mm hk n
  exact ⟨rs, s', hlen, getBlk_steps rfl hsteps, hframe, hdrawn⟩

/-- In both programs a run of allocations hands out the least number that is still free each
time, no number twice and none that was not free, and -1 just if there is none left; the bits
of the numbers handed out are cleared, and nothing else changes. Calls of `get_blk` are such a
run. -/
theorem bitmap_allocation :
    (∀ (l : List Nat) (bitmap : Nat) (s : Mm) (n : Nat), Kept l bitmap pageSize →
      ∃ rs s', rs.length = n ∧ Steps (fun s r s' => kernelDraw bitmap s = .ok r s') s rs s' ∧
        (∀ x, x < bitmap - kbase ∨ bitmap - kbase + blkSize ≤ x → s'.mem x = s.mem x) ∧
        Bitmap.Drawn (blkSize * 8) (Bitmap.bit s.mem (bitmap - kbase)) rs
          (Bitmap.bit s'.mem (bitmap - kbase))) ∧
    (∀ (l : List Nat) (fs : Fs) (n : Nat), Kept l fs.blkBitmap pageSize →
      ∃ rs s', rs.length = n ∧
        Steps (fun fs r fs' => Kernel.getBlk fs = .ok r fs') fs rs (Fs.setMm s' fs) ∧
        (∀ x, x < fs.blkBitmap - kbase ∨ fs.blkBitmap - kbase + blkSize ≤ x →
          s'.mem x = fs.mm.mem x) ∧
        Bitmap.Drawn (blkSize * 8) (Bitmap.bit fs.mm.mem (fs.blkBitmap - kbase)) rs
          (Bitmap.bit s'.mem (fs.blkBitmap - kbase))) ∧
    ∀ (bitmap : Nat) (m : Mem) (n : Nat), bitmap + blkSize ≤ imgSize →
      ∃ rs m', rs.length = n ∧ Steps (fun m r m' => imageDraw bitmap m = .ok r m') m rs m' ∧
        (∀ x, x < bitmap ∨ bitmap + blkSize ≤ x → m' x = m x) ∧
        Bitmap.Drawn (blkSize * 8) (Bitmap.bit m bitmap) rs (Bitmap.bit m' bitmap) :=
  ⟨fun _ _ _ n h => kernelDraw_run h n, fun _ _ n h => getBlk_run h n,
    fun _ _ n h => imageDraw_run h n⟩

/-- Two blocks from a kernel's bitmap, and the first two of a bitmap with every bit set. -/
theorem bitmap_allocation_two :
    (∃ rs s', rs.length = 2 ∧
      Steps (fun fs r fs' => Kernel.getBlk fs = .ok r fs') Kernel.sampleVolume rs
        (Fs.setMm s' Kernel.sampleVolume)) ∧
    ∃ m', Steps (fun m r m' => imageDraw blkBitmap m = .ok r m') (fun _ => 0xFF) [0, 1] m' ∧
      Bitmap.bit m' blkBitmap 1 = false ∧ Bitmap.bit m' blkBitmap 2 = true := by
  obtain ⟨-, hkernel, himage⟩ := bitmap_allocation
  obtain ⟨rs, s', hlen, hsteps, -⟩ :=
    hkernel _ Kernel.sampleVolume 2 Kernel.sampleVolume_mounted.kept_bitmap
  obtain ⟨rs', m', hlen', hsteps', -, hdrawn⟩ := himage blkBitmap (fun _ => 0xFF) 2 (by decide)
  have hset : ∀ k < blkSize * 8, Bitmap.bit (fun _ => 0xFF) blkBitmap k = true := by
    intro k _
    have hbits : ∀ n < 32, (Mem.rd 4 (fun _ => 0xFF) 0).testBit n = true := by decide
    exact hbits (k % 32) (Nat.mod_lt k (by decide))
  have hrs : rs' = [0, 1] := by
    rw [hdrawn.eq_range hset (by rw [hlen']; decide), hlen']
    rfl
  rw [hrs] at hsteps' hdrawn
  refine ⟨⟨rs, s', hlen, hsteps⟩, m', hsteps', ?_, ?_⟩
  · rw [hdrawn.left 1 (by decide), hset 1 (by decide)]
    decide
  · rw [hdrawn.left 2 (by decide), hset 2 (by decide)]
    decide

end Myos.Image
