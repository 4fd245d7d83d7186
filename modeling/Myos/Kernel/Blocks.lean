import Myos.Kernel.File

/-!
# Blocks in memory

What `bread` and `walk_block` do to memory. `bread` takes the frame at the
head of the free list and fills it, so of memory outside the free frames
nothing changes (`Took`); what lies in no free frame (`Kept`) is read the
same before and after. The map of an inode's blocks is read off the inode in
memory and the indirect block on disk (`Fs.blockNo`), and `walk_block` finds
the entry of the map (`walkBlock_run`).

A file is its bytes: the byte at a position is one of the disk
(`Fs.fileByte`).
-/

namespace Myos.Kernel

open Myos.Lib

/-! ## Starving -/

/-- Some call of `alloc_page` found the list empty. -/
def Fs.starved (s : Fs) : Bool := s.mm.starved

/-- The same, with an open file. -/
def FileSt.starved (s : FileSt) : Bool := s.fs.starved

section Starving

variable {α : Type}

theorem fsMm_starves {x : Act Mm α} (h : Act.Within Mm.Starves x) :
    Act.Within (Act.Raises Fs.starved) (fsMm x) :=
  Act.Within.zoom (r := Mm.Starves)
    (fun (t : Fs) (m : Mm) (h : t.mm.Starves m) => (h : Act.Raises Fs.starved t (Fs.setMm m t))) h

theorem fileFs_starves {x : Act Fs α} (h : Act.Within (Act.Raises Fs.starved) x) :
    Act.Within (Act.Raises FileSt.starved) (fileFs x) :=
  Act.Within.zoom (r := Act.Raises Fs.starved)
    (fun (t : FileSt) (s : Fs) (h : Act.Raises Fs.starved t.fs s) =>
      (h : Act.Raises FileSt.starved t (FileSt.setFs s t))) h

theorem diskIn_starves (dest pos n : Nat) :
    Act.Within (Act.Raises Fs.starved) (diskIn dest pos n) := by
  induction n generalizing dest pos with
  | zero => exact Act.Raises.pure ()
  | succ n ih =>
    exact Act.Raises.bind (Act.Raises.gets _) fun b =>
      Act.Raises.bind (fsMm_starves (Starves.store 1 dest _)) fun _ => ih (dest + 1) (pos + 1)

theorem diskOut_starves (src pos n : Nat) :
    Act.Within (Act.Raises Fs.starved) (diskOut src pos n) := by
  induction n generalizing src pos with
  | zero => exact Act.Raises.pure ()
  | succ n ih =>
    exact Act.Raises.bind (fsMm_starves (Starves.load 1 src)) fun b =>
      Act.Raises.bind (Act.Raises.modify fun _ => rfl) fun _ => ih (src + 1) (pos + 1)

/-- What follows `alloc_page` in `bread`. -/
theorem readblk_starves (o : Option Nat) (block : Nat) :
    Act.Within (Act.Raises Fs.starved) (do
      let buf ← Act.gets fun s : Fs => s.mm.page2va o
      readblk buf (8 * block) 8
      return buf) :=
  Act.Raises.bind (Act.Raises.gets _) fun buf =>
    Act.Raises.bind (diskIn_starves buf _ _) fun _ => Act.Raises.pure buf

theorem bread_starves (block : Nat) : Act.Within (Act.Raises Fs.starved) (bread block) :=
  Act.Raises.bind (fsMm_starves (Starves.allocPage 0)) fun o => readblk_starves o block

theorem isBlkempty_starves (bitmap no : Nat) : Act.Within Mm.Starves (isBlkempty bitmap no) :=
  Starves.bind (Starves.load 4 _) fun _ => Starves.pure _

theorem setBitmap_starves (bitmap no : Nat) : Act.Within Mm.Starves (setBitmap bitmap no) :=
  Starves.bind (Starves.load 4 _) fun _ => Starves.store 4 _ _

theorem getFreeNoLoop_starves (bitmap n blkno : Nat) :
    Act.Within Mm.Starves (getFreeNoLoop bitmap n blkno) := by
  induction n generalizing blkno with
  | zero => exact Starves.pure _
  | succ n ih =>
    refine Starves.bind (isBlkempty_starves bitmap blkno) fun e => ?_
    show Act.Within Mm.Starves (if _ then _ else _)
    split
    · exact Starves.pure _
    · exact ih (blkno + 1)

theorem getBlk_starves : Act.Within (Act.Raises Fs.starved) getBlk := by
  refine Act.Raises.bind (Act.Raises.gets _) fun bitmap =>
    Act.Raises.bind (fsMm_starves (getFreeNoLoop_starves bitmap _ 0)) fun bno => ?_
  show Act.Within (Act.Raises Fs.starved) (if _ then _ else _)
  split
  · exact Act.Raises.pure _
  · exact Act.Raises.bind (fsMm_starves (setBitmap_starves _ _)) fun _ => Act.Raises.pure _

theorem walkBlock_starves (p fileno : Nat) (diskno : Option Nat) (alloc : Nat) :
    Act.Within (Act.Raises Fs.starved) (walkBlock p fileno diskno alloc) := by
  have hbelow : ∀ slot, Act.Within (Act.Raises Fs.starved) (do
      let blk ← bread (← fsMm (load 2 slot))
      return ((0 : Int), some (blk + 2 * ((fileno - 10) % 2048)))) := fun slot =>
    Act.Raises.bind (fsMm_starves (Starves.load 2 slot)) fun no =>
      Act.Raises.bind (bread_starves no) fun _ => Act.Raises.pure _
  unfold walkBlock
  split
  · exact Act.Raises.pure _
  · split
    · refine Act.Raises.bind (fsMm_starves (Starves.load 2 _)) fun no => ?_
      show Act.Within (Act.Raises Fs.starved) (if _ then _ else _)
      split
      · show Act.Within (Act.Raises Fs.starved) (if _ then _ else _)
        split
        · refine Act.Raises.bind (Act.Raises.gets _) fun bitmap =>
            Act.Raises.bind (fsMm_starves (getFreeNoLoop_starves bitmap _ 0)) fun bno => ?_
          show Act.Within (Act.Raises Fs.starved) (if _ then _ else _)
          split
          · exact Act.Raises.pure _
          · exact Act.Raises.bind (fsMm_starves (Starves.store 2 _ _)) fun _ =>
              Act.Raises.bind (fsMm_starves (setBitmap_starves _ _)) fun _ => hbelow _
        · exact Act.Raises.pure _
      · exact hbelow _
    · exact Act.Raises.pure _

end Starving

/-! ## Kernel memory that stays -/

/-- The `n` bytes from `va` on are in the direct map, and in no frame of `l`. -/
structure Kept (l : List Nat) (va n : Nat) : Prop where
  lo : kbase ≤ va
  hi : va - kbase + n ≤ 2 ^ 31
  out : ∀ x, va - kbase ≤ x → x < va - kbase + n → x / pageSize ∉ l

namespace Kept

variable {l l' : List Nat} {va n o k : Nat} {s s' : Mm}

theorem mono (h : Kept l va n) (hl : ∀ f, f ∈ l' → f ∈ l) : Kept l' va n :=
  ⟨h.lo, h.hi, fun x h1 h2 hx => h.out x h1 h2 (hl _ hx)⟩

/-- A part of it. -/
theorem part (h : Kept l va n) (hk : o + k ≤ n) : Kept l (va + o) k := by
  have hlo := h.lo
  have hhi := h.hi
  refine ⟨Nat.le_trans hlo (Nat.le_add_right va o), by omega, fun x h1 h2 => ?_⟩
  exact h.out x (by omega) (by omega)

/-- A word of it is loaded from its place. -/
theorem load (h : Kept l va n) (hn : 0 < n) (k : Nat) :
    load k va s = .ok (Mem.rd k s.mem (va - kbase)) s := by
  have hlo := h.lo
  have hhi := h.hi
  have hkpa := s.kpa_direct (by omega : va - kbase < 2 ^ 31)
  rw [Nat.add_sub_cancel' hlo] at hkpa
  exact load_ok hkpa

/-- A word is stored in its place. -/
theorem store (h : Kept l va n) (hn : 0 < n) (k v : Nat) :
    store k va v s = .ok () (s.setMem (Mem.wr k s.mem (va - kbase) v)) := by
  have hlo := h.lo
  have hhi := h.hi
  have hkpa := s.kpa_direct (by omega : va - kbase < 2 ^ 31)
  rw [Nat.add_sub_cancel' hlo] at hkpa
  exact store_ok hkpa

/-- It reads the same in memories that agree outside the frames of `l`. -/
theorem rd {m m' : Mem} (h : Kept l va n) (hm : ∀ x, x / pageSize ∉ l → m' x = m x) :
    Mem.rd n m' (va - kbase) = Mem.rd n m (va - kbase) :=
  Mem.rd_congr fun x h1 h2 => hm x (h.out x h1 h2)

end Kept

/-- A frame in use, as kernel memory. -/
theorem kept_frame {l : List Nat} {f : Nat} (hf : f < 2 ^ 19) (hl : f ∉ l) :
    Kept l (frameVa f) pageSize := by
  have hsub : frameVa f - kbase = pageSize * f := Nat.add_sub_cancel_left _ _
  refine ⟨Nat.le_add_right _ _, ?_, fun x h1 h2 => ?_⟩
  · rw [hsub]
    unfold pageSize
    omega
  · rw [hsub] at h1 h2
    rw [show x / pageSize = f by unfold pageSize at *; omega]
    exact hl

/-! ## Frames taken -/

/-- The frames that left the free list are all that changed. -/
structure Took (s : Fs) (l : List Nat) (s' : Fs) (l' : List Nat) : Prop where
  free : FreeList s'.mm l'
  sub : ∀ f, f ∈ l' → f ∈ l
  rest : s' = Fs.setMm s'.mm s
  npages : s'.mm.npages = s.mm.npages
  cr3 : s'.mm.cr3 = s.mm.cr3
  mem : ∀ x, x / pageSize ∉ l → s'.mm.mem x = s.mm.mem x

namespace Took

variable {s s' s'' : Fs} {l l' l'' : List Nat}

theorem refl (h : FreeList s.mm l) : Took s l s l :=
  ⟨h, fun _ hf => hf, rfl, rfl, rfl, fun _ _ => rfl⟩

theorem trans (h : Took s l s' l') (h' : Took s' l' s'' l'') : Took s l s'' l'' := by
  refine ⟨h'.free, fun f hf => h.sub f (h'.sub f hf), ?_, h'.npages.trans h.npages,
    h'.cr3.trans h.cr3, fun x hx => (h'.mem x fun hx' => hx (h.sub _ hx')).trans (h.mem x hx)⟩
  rw [h'.rest, h.rest]
  rfl

theorem disk (h : Took s l s' l') : s'.disk = s.disk := by rw [h.rest]; rfl

theorem inoTable (h : Took s l s' l') : s'.inoTable = s.inoTable := by rw [h.rest]; rfl

theorem blkBitmap (h : Took s l s' l') : s'.blkBitmap = s.blkBitmap := by rw [h.rest]; rfl

/-- Kernel memory outside the free list reads as before. -/
theorem rd (h : Took s l s' l') {va n : Nat} (hk : Kept l va n) :
    Mem.rd n s'.mm.mem (va - kbase) = Mem.rd n s.mm.mem (va - kbase) := hk.rd h.mem

end Took

/-! ## A block read -/

/-- `readblk` into the direct map. -/
theorem diskIn_run (s : Fs) (pa pos n : Nat) (hpa : pa + n ≤ 2 ^ 31) :
    diskIn (kbase + pa) pos n s =
      .ok () (Fs.setMm (s.mm.setMem (s.mm.mem.overlay pa n fun i => s.disk (pos + i))) s) := by
  induction n generalizing pa pos s with
  | zero =>
    have hmem : s.mm.mem.overlay pa 0 (fun i => s.disk (pos + i)) = s.mm.mem := by
      funext x
      exact Mem.overlay_out (by omega)
    rw [hmem]
    rfl
  | succ n ih =>
    have hst := store_ok (n := 1) (v := (s.disk pos).toNat)
      (s.mm.kpa_direct (by omega : pa < 2 ^ 31))
    rw [diskIn, Act.gets_bind_apply, Act.bind_ok (fsMm_ok hst), Nat.add_assoc,
      ih _ _ _ (by omega), wr_one]
    simp only [Fs.setMm_mm, Fs.setMm_disk, Fs.setMm_setMm, Mm.setMem_setMem, Mm.setMem_mem]
    have hover := overlay_succ s.mm.mem (fun i => s.disk (pos + i)) pa n
    rw [← hover]
    simp only [Nat.add_zero, Nat.add_assoc, Nat.add_comm 1]

/-- `writeblk` from the direct map. -/
theorem diskOut_run (s : Fs) (pa pos n : Nat) (hpa : pa + n ≤ 2 ^ 31) :
    diskOut (kbase + pa) pos n s =
      .ok () (s.setDisk (s.disk.overlay pos n fun i => s.mm.mem (pa + i))) := by
  induction n generalizing pa pos s with
  | zero =>
    have hmem : s.disk.overlay pos 0 (fun i => s.mm.mem (pa + i)) = s.disk := by
      funext x
      exact Mem.overlay_out (by omega)
    rw [hmem]
    rfl
  | succ n ih =>
    have hld := load_ok (n := 1) (s.mm.kpa_direct (by omega : pa < 2 ^ 31))
    rw [diskOut, Act.bind_ok (fsMm_ok hld), Act.modify_bind_apply, Nat.add_assoc,
      ih _ _ _ (by omega), rd_one]
    have hbyte : Function.update s.disk pos (UInt8.ofNat (s.mm.mem pa).toNat) =
        s.disk.overlay pos 1 fun _ => s.mm.mem pa := by
      funext x
      rw [UInt8.ofNat_toNat]
      by_cases hx : x = pos
      · rw [hx, Function.update_self, Mem.overlay_in (by omega)]
      · rw [Function.update_of_ne hx, Mem.overlay_out (by omega)]
    have hover := overlay_succ s.disk (fun i => s.mm.mem (pa + i)) pos n
    simp only [Fs.setMm_self, hbyte] at *
    rw [← hover]
    simp only [Nat.add_zero, Nat.add_assoc, Nat.add_comm 1]
    rfl

/-- `bread` puts the block in the frame at the head of the list. -/
theorem bread_ok {s : Fs} {q : Nat} {l : List Nat} (no : Nat) (hl : FreeList s.mm (q :: l))
    (hn : s.mm.npages ≤ 2 ^ 19) :
    ∃ s', bread no s = .ok (frameVa q) s' ∧ Took s (q :: l) s' l ∧ q < 2 ^ 19 ∧ q ∉ l ∧
      s'.starved = s.starved ∧
      ∀ i, i < blkSize → s'.mm.mem (pageSize * q + i) = s.disk (blkSize * no + i) := by
  have hhead : s.mm.phead = some q := hl.chain.of_cons.1
  obtain ⟨hlt, -⟩ := (hl.mem q).mp List.mem_cons_self
  have hnot : q ∉ l := (List.nodup_cons.mp hl.nodup).1
  have hq : q < 2 ^ 19 := Nat.lt_of_lt_of_le hlt hn
  have hpa : pageSize * q + 4096 ≤ 2 ^ 31 := by
    unfold pageSize
    omega
  obtain ⟨s₁, hs₁⟩ : ∃ s₁, s₁ = Fs.setMm (s.mm.taken 0 q) s := ⟨_, rfl⟩
  have hmem₁ : s₁.mm.mem = s.mm.mem := by rw [hs₁]; exact Mm.taken_mem_plain s.mm q
  have hdisk₁ : s₁.disk = s.disk := by rw [hs₁]; rfl
  obtain ⟨m, hm⟩ : ∃ m : Mem, m = s₁.mm.mem.overlay (pageSize * q) 4096
      fun i => s₁.disk (4096 * no + i) := ⟨_, rfl⟩
  have hrun : bread no s = .ok (frameVa q) (Fs.setMm (s₁.mm.setMem m) s₁) := by
    have hread := diskIn_run s₁ (pageSize * q) (4096 * no) 4096 hpa
    rw [← hm] at hread
    unfold bread
    rw [Act.bind_ok (fsMm_ok (allocPage_some hhead hq)), Act.gets_bind_apply, ← hs₁,
      Mm.page2va_some hq]
    have hpos : readblk (frameVa q) (8 * no) 8 s₁ = .ok () (Fs.setMm (s₁.mm.setMem m) s₁) := by
      rw [readblk, ← Nat.mul_assoc]
      exact hread
    rw [Act.bind_ok hpos, Act.pure_apply]
  refine ⟨_, hrun, ⟨?_, fun f hf => List.mem_cons_of_mem q hf, ?_, ?_, ?_, ?_⟩, hq, hnot, ?_, ?_⟩
  · have hfree : FreeList s₁.mm l := by rw [hs₁]; exact hl.taken
    exact hfree.congr rfl rfl rfl
  · rw [hs₁]
    rfl
  · rw [hs₁]
    exact Mm.taken_npages s.mm 0 q
  · rw [hs₁]
    exact Mm.taken_cr3 s.mm 0 q
  · intro x hx
    have hne : x / pageSize ≠ q := fun h => hx (h ▸ List.mem_cons_self)
    show m x = _
    rw [hm, Mem.overlay_out, hmem₁]
    unfold pageSize at *
    omega
  · rw [hs₁]
    exact Mm.taken_starved s.mm 0 q
  · intro i hi
    show m _ = _
    have hin : pageSize * q ≤ pageSize * q + i ∧ pageSize * q + i < pageSize * q + 4096 :=
      ⟨Nat.le_add_right _ _, Nat.add_lt_add_left hi _⟩
    rw [hm, Mem.overlay_in hin, Nat.add_sub_cancel_left, hdisk₁]
    rfl

/-- `bread` in a run that does not starve. -/
theorem bread_run {s : Fs} {l : List Nat} {no : Nat} (hl : FreeList s.mm l)
    (hn : s.mm.npages ≤ 2 ^ 19) (hns : (bread no s).state.starved = false) :
    ∃ q l' s', l = q :: l' ∧ bread no s = .ok (frameVa q) s' ∧ Took s l s' l' ∧
      q < 2 ^ 19 ∧ q ∉ l' ∧
      ∀ i, i < blkSize → s'.mm.mem (pageSize * q + i) = s.disk (blkSize * no + i) := by
  have halloc := Act.Raises.of_bind (fun o => readblk_starves o no) hns
  unfold fsMm at halloc
  rw [Fs.starved, Act.zoom_state] at halloc
  obtain ⟨q, hq⟩ := Starves.head_of_allocPage halloc
  obtain ⟨l', rfl, -⟩ := hl.phead_some hq
  obtain ⟨s', hrun, htook, hq', hnot, -, hbytes⟩ := bread_ok no hl hn
  exact ⟨q, l', s', rfl, hrun, htook, hq', hnot, hbytes⟩

/-! ## Frames spent -/

/-- From a list of `n` frames at least, no more than `n` of them are gone, and no
call found the list empty. -/
def Mm.Spends (n : Nat) (s s' : Mm) : Prop :=
  ∀ l, FreeList s l → s.npages ≤ 2 ^ 19 → n ≤ l.length → s.starved = false →
    s'.starved = false ∧ s'.npages ≤ 2 ^ 19 ∧ ∃ l', FreeList s' l' ∧ l.length ≤ l'.length + n

/-- One state after another. -/
theorem Mm.Spends.trans {a b d : Mm} {n k : Nat} (h : a.Spends n b) (h' : b.Spends k d) :
    a.Spends (n + k) d := fun l hl hle hlen hst => by
  obtain ⟨h1, h2, l', h3, h4⟩ := h l hl hle (by omega) hst
  obtain ⟨h1', h2', l'', h3', h4'⟩ := h' l' h3 h2 (by omega) h1
  exact ⟨h1', h2', l'', h3', by omega⟩

theorem Mm.Spends.mono {s s' : Mm} {n k : Nat} (h : s.Spends n s') (hk : n ≤ k) : s.Spends k s' :=
  fun l hl hle hlen hst => by
    obtain ⟨h1, h2, l', h3, h4⟩ := h l hl hle (Nat.le_trans hk hlen) hst
    exact ⟨h1, h2, l', h3, by omega⟩

/-- No call found the list empty, and `n` frames are left on it. -/
structure Mm.Room (s : Mm) (n : Nat) : Prop where
  npages : s.npages ≤ 2 ^ 19
  served : s.starved = false
  list : ∃ l, FreeList s l ∧ n ≤ l.length

theorem Mm.Room.congr {s s' : Mm} {n : Nat} (h : s.Room n) (hp : s'.pages = s.pages)
    (hh : s'.phead = s.phead) (hn : s'.npages = s.npages) (hs : s'.starved = s.starved) :
    s'.Room n := by
  obtain ⟨l, hl, hlen⟩ := h.list
  exact ⟨hn.trans_le h.npages, hs.trans h.served, l, hl.congr hp hh hn, hlen⟩

/-- What is spent of `n + m` frames leaves `m`. -/
theorem Mm.Spends.room {s s' : Mm} {n m : Nat} (h : s.Spends n s') (hs : s.Room (n + m)) :
    s'.Room m := by
  obtain ⟨l, hl, hlen⟩ := hs.list
  obtain ⟨h1, h2, l', h3, h4⟩ := h l hl hs.npages (by omega) hs.served
  exact ⟨h2, h1, l', h3, by omega⟩

/-- The same of code, over a state that has memory. -/
def Spends {σ α : Type} (mm : σ → Mm) (n : Nat) (x : Act σ α) : Prop :=
  Act.Within (fun s s' => (mm s).Spends n (mm s')) x

namespace Spends

variable {σ τ α β : Type} {mm : σ → Mm} {n k : Nat}

theorem of_same {s s' : Mm} (hp : s'.pages = s.pages) (hh : s'.phead = s.phead)
    (hn : s'.npages = s.npages) (hs : s'.starved = s.starved) : s.Spends 0 s' :=
  fun l hl hle _ hst => ⟨by rw [hs, hst], by rw [hn]; exact hle, l, hl.congr hp hh hn, Nat.le_refl _⟩

theorem pure (a : α) : Spends mm 0 (Pure.pure a : Act σ α) := fun _ => of_same rfl rfl rfl rfl

theorem gets (f : σ → α) : Spends mm 0 (Act.gets f) := fun _ => of_same rfl rfl rfl rfl

theorem modify {f : σ → σ} (h : ∀ s, mm (f s) = mm s) : Spends mm 0 (Act.modify f) := fun s => by
  show (mm s).Spends 0 (mm (f s))
  rw [h]
  exact of_same rfl rfl rfl rfl

theorem deref (o : Option α) : Spends mm 0 (Act.deref o) := by
  cases o with
  | none => exact fun _ => of_same rfl rfl rfl rfl
  | some a => exact pure a

theorem stop : Spends mm 0 (Act.stop : Act σ α) := fun _ => of_same rfl rfl rfl rfl

theorem mono {x : Act σ α} (h : Spends mm n x) (hk : n ≤ k) : Spends mm k x :=
  fun s => Mm.Spends.mono (h s) hk

/-- From a state in which the first part spends no more than `n`. -/
theorem bind_from {x : Act σ α} {f : α → Act σ β} {s : σ}
    (hx : (mm s).Spends n (mm (x s).state)) (hf : ∀ a, Spends mm k (f a)) :
    (mm s).Spends (n + k) (mm ((x >>= f) s).state) := fun l hl hle hlen hst => by
  obtain ⟨h1, h2, l', h3, h4⟩ := hx l hl hle (by omega) hst
  cases hxs : x s with
  | ok a s' =>
    rw [hxs] at h1 h2 h3
    rw [Act.bind_ok hxs]
    obtain ⟨h1', h2', l'', h3', h4'⟩ := hf a s' l' h3 h2 (by omega) h1
    exact ⟨h1', h2', l'', h3', by omega⟩
  | fault s' =>
    rw [hxs] at h1 h2 h3
    rw [Act.bind_fault hxs]
    exact ⟨h1, h2, l', h3, by omega⟩

theorem bind {x : Act σ α} {f : α → Act σ β} (hx : Spends mm n x) (hf : ∀ a, Spends mm k (f a)) :
    Spends mm (n + k) (x >>= f) := fun s => bind_from (hx s) hf

/-- What follows code that spends nothing. -/
theorem next {x : Act σ α} {f : α → Act σ β} (hx : Spends mm 0 x) (hf : ∀ a, Spends mm k (f a)) :
    Spends mm k (x >>= f) := by
  have h := bind hx hf
  rwa [Nat.zero_add] at h

/-- Code of a part that has the memory, run on the whole. -/
theorem zoom {get : τ → σ} {put : σ → τ → τ} {mm' : τ → Mm} (hget : ∀ t, mm (get t) = mm' t)
    (hput : ∀ s t, mm' (put s t) = mm s) {x : Act σ α} (h : Spends mm n x) :
    Spends mm' n (Act.zoom get put x) := fun t => by
  show (mm' t).Spends n (mm' (Act.zoom get put x t).state)
  rw [Act.zoom_state, hput, ← hget]
  exact h (get t)

theorem fsMm {x : Act Mm α} (h : Spends id n x) : Spends Fs.mm n (fsMm x) :=
  zoom (fun _ => rfl) (fun _ _ => rfl) h

theorem fileFs {x : Act Fs α} (h : Spends Fs.mm n x) :
    Spends (fun s : FileSt => s.fs.mm) n (fileFs x) :=
  zoom (fun _ => rfl) (fun _ _ => rfl) h

theorem load (n va : Nat) : Spends id 0 (load n va) := fun s => by
  unfold Myos.Kernel.load
  cases s.kpa va <;> exact of_same rfl rfl rfl rfl

theorem store (n va v : Nat) : Spends id 0 (store n va v) := fun s => by
  unfold Myos.Kernel.store
  cases s.kpa va <;> exact of_same rfl rfl rfl rfl

theorem memcpy (dest src n : Nat) : Spends id 0 (memcpy dest src n) := fun s => by
  obtain ⟨m, hm⟩ := memcpy_state dest src n s
  rw [hm]
  exact of_same rfl rfl rfl rfl

theorem diskIn (dest pos n : Nat) : Spends Fs.mm 0 (diskIn dest pos n) := by
  induction n generalizing dest pos with
  | zero => exact pure ()
  | succ n ih =>
    exact next (gets _) fun b => next (fsMm (store 1 dest _)) fun _ => ih (dest + 1) (pos + 1)

theorem diskOut (src pos n : Nat) : Spends Fs.mm 0 (diskOut src pos n) := by
  induction n generalizing src pos with
  | zero => exact pure ()
  | succ n ih =>
    exact next (fsMm (load 1 src)) fun b => next (modify fun _ => rfl) fun _ =>
      ih (src + 1) (pos + 1)

theorem bread (no : Nat) : Spends Fs.mm 1 (bread no) := by
  intro s l hl hle hlen hst
  cases l with
  | nil => exact absurd hlen (by decide)
  | cons q l =>
    obtain ⟨s', hrun, htook, -, -, hst', -⟩ := bread_ok no hl hle
    rw [hrun]
    exact ⟨hst'.trans hst, by rw [Res.state_ok, htook.npages]; exact hle, l, htook.free,
      Nat.le_refl _⟩

theorem getFreeNoLoop (bitmap n blkno : Nat) : Spends id 0 (getFreeNoLoop bitmap n blkno) := by
  induction n generalizing blkno with
  | zero => exact pure _
  | succ n ih =>
    refine next (next (load 4 _) fun _ => pure _) fun e => ?_
    show Spends id 0 (if _ then _ else _)
    split
    · exact pure _
    · exact ih (blkno + 1)

theorem setBitmap (bitmap no : Nat) : Spends id 0 (setBitmap bitmap no) :=
  next (load 4 _) fun _ => store 4 _ _

theorem getBlk : Spends Fs.mm 0 getBlk := by
  refine next (gets _) fun bitmap => next (fsMm (getFreeNoLoop bitmap _ 0)) fun bno => ?_
  show Spends Fs.mm 0 (if _ then _ else _)
  split
  · exact pure _
  · exact next (fsMm (setBitmap _ _)) fun _ => pure _

theorem walkBlock (p fileno : Nat) (diskno : Option Nat) (alloc : Nat) :
    Spends Fs.mm 1 (walkBlock p fileno diskno alloc) := by
  have hbelow : ∀ slot, Spends Fs.mm 1 (do
      let blk ← Myos.Kernel.bread (← Myos.Kernel.fsMm (Myos.Kernel.load 2 slot))
      return ((0 : Int), some (blk + 2 * ((fileno - 10) % 2048)))) := fun slot =>
    next (fsMm (load 2 slot)) fun no => bind (bread no) fun _ => pure _
  unfold Myos.Kernel.walkBlock
  split
  · exact (pure _).mono (Nat.zero_le 1)
  · split
    · refine next (fsMm (load 2 _)) fun no => ?_
      show Spends Fs.mm 1 (if _ then _ else _)
      split
      · show Spends Fs.mm 1 (if _ then _ else _)
        split
        · refine next (gets _) fun bitmap =>
            next (fsMm (getFreeNoLoop bitmap _ 0)) fun bno => ?_
          show Spends Fs.mm 1 (if _ then _ else _)
          split
          · exact (pure _).mono (Nat.zero_le 1)
          · exact next (fsMm (store 2 _ _)) fun _ => next (fsMm (setBitmap _ _)) fun _ => hbelow _
        · exact (pure _).mono (Nat.zero_le 1)
      · exact hbelow _
    · exact (pure _).mono (Nat.zero_le 1)

end Spends

/-! ## The map of an inode's blocks -/

/-- `p->block[i]`, as it is in memory. -/
def Fs.slot (s : Fs) (p i : Nat) : Nat := Mem.rd 2 s.mm.mem (blockSlot p i - kbase)

/-- An entry of an indirect block, as it is on disk. -/
def Fs.indirect (s : Fs) (no i : Nat) : Nat := Mem.rd 2 s.disk (blkSize * no + 2 * i)

/-- The disk block of a block of the file; nought if it has none. -/
def Fs.blockNo (s : Fs) (p b : Nat) : Nat :=
  if b < 10 then s.slot p b
  else if b < 2058 then (if s.slot p 10 = 0 then 0 else s.indirect (s.slot p 10) (b - 10))
  else 0

/-- Where the byte of the file at `x` is on disk. -/
def Fs.fileAddr (s : Fs) (p x : Nat) : Nat := blkSize * s.blockNo p (x / blkSize) + x % blkSize

/-- The byte of the file at `x`. -/
def Fs.fileByte (s : Fs) (p x : Nat) : UInt8 := s.disk (s.fileAddr p x)

section Map

variable {s s' : Fs} {l l' : List Nat} {p b : Nat}

/-- An inode's entry, as kernel memory. -/
theorem Kept.slot (h : Kept l p inodeSize) {i : Nat} (hi : i ≤ 10) : Kept l (blockSlot p i) 2 := by
  have hsum : blockSlot p i = p + (blockOff + 2 * i) := by unfold blockSlot; omega
  rw [hsum]
  refine h.part ?_
  unfold blockOff inodeSize
  omega

/-- What `bread` takes moves no entry of an inode in memory. -/
theorem Took.slot (h : Took s l s' l') (hp : Kept l p inodeSize) {i : Nat} (hi : i ≤ 10) :
    s'.slot p i = s.slot p i := h.rd (hp.slot hi)

theorem Took.blockNo (h : Took s l s' l') (hp : Kept l p inodeSize) (b : Nat) :
    s'.blockNo p b = s.blockNo p b := by
  unfold Fs.blockNo Fs.indirect
  rw [h.disk, h.slot hp (Nat.le_refl 10)]
  by_cases hb : b < 10
  · rw [if_pos hb, if_pos hb, h.slot hp (Nat.le_of_lt hb)]
  · rw [if_neg hb, if_neg hb]

/-- The pointer `walk_block` hands out: the two bytes it points to are the
entry of the map, and lie in no free frame. -/
structure Entry (s : Fs) (l : List Nat) (ptr no : Nat) : Prop where
  kept : Kept l ptr 2
  eq : Mem.rd 2 s.mm.mem (ptr - kbase) = no

/-- It still is, after more frames were taken. -/
theorem Entry.took {ptr no : Nat} (he : Entry s l ptr no) (h : Took s l s' l') :
    Entry s' l' ptr no :=
  ⟨he.kept.mono h.sub, (h.rd he.kept).trans he.eq⟩

theorem Entry.load {ptr no : Nat} (he : Entry s l ptr no) :
    fsMm (load 2 ptr) s = .ok no s := by
  rw [fsMm_ok (he.kept.load Nat.zero_lt_two 2), he.eq]
  rfl

/-- `walk_block` of a direct block reads nothing. -/
theorem walkBlock_direct (diskno : Option Nat) (alloc : Nat) (hb : b < 10) :
    walkBlock p b diskno alloc s = .ok (0, some (blockSlot p b)) s := by
  rw [walkBlock, if_pos hb]
  rfl

/-- The frames a call takes that is inside block `b`. -/
def framesFor (b : Nat) : Nat := if b < 10 then 1 else 2

theorem walkBlock_spends (p b : Nat) (diskno : Option Nat) (alloc : Nat) :
    Spends Fs.mm (framesFor b - 1) (walkBlock p b diskno alloc) := by
  unfold framesFor
  by_cases hb : b < 10
  · rw [if_pos hb]
    intro f
    rw [walkBlock_direct diskno alloc hb]
    exact Spends.of_same rfl rfl rfl rfl
  · rw [if_neg hb]
    exact Spends.walkBlock p b diskno alloc

theorem framesFor_split (b : Nat) : framesFor b = framesFor b - 1 + (1 + 0) := by
  unfold framesFor
  split <;> rfl

/-- `walk_block` hands out the null pointer where there is no indirect block. -/
theorem walkBlock_none (diskno : Option Nat) (hb : ¬ b < 10) (hb' : b < 2058)
    (hp : Kept l p inodeSize) (h10 : s.slot p 10 = 0) :
    walkBlock p b diskno 0 s = .ok (-1, some 0) s := by
  have hlevel : (b - 10) / 2048 + 10 = 10 := by omega
  have hload : fsMm (load 2 (blockSlot p 10)) s = .ok 0 s :=
    (⟨hp.slot (Nat.le_refl 10), h10⟩ : Entry s l (blockSlot p 10) 0).load
  unfold walkBlock
  rw [if_neg hb, if_pos (show b < 1024 * 2 + 10 from hb'), hlevel]
  rw [Act.bind_ok hload, if_pos rfl, if_neg (by decide)]
  rfl

/-- `walk_block` of an indirect block that is there reads it anew. -/
theorem walkBlock_indirect (diskno : Option Nat) (alloc : Nat) (hb : ¬ b < 10) (hb' : b < 2058)
    (hp : Kept l p inodeSize) (h10 : s.slot p 10 ≠ 0) :
    walkBlock p b diskno alloc s =
      (bread (s.slot p 10) >>= fun blk => pure (0, some (blk + 2 * (b - 10)))) s := by
  have hlevel : (b - 10) / 2048 + 10 = 10 := by omega
  have hmod : (b - 10) % 2048 = b - 10 := by omega
  have hload : fsMm (load 2 (blockSlot p 10)) s = .ok (s.slot p 10) s :=
    (⟨hp.slot (Nat.le_refl 10), rfl⟩ : Entry s l (blockSlot p 10) (s.slot p 10)).load
  unfold walkBlock
  rw [if_neg hb, if_pos (show b < 1024 * 2 + 10 from hb'), hlevel, hmod]
  rw [Act.bind_ok hload, if_neg h10, Act.bind_ok hload]

/-- The entry of an indirect block that is there lies in the copy that was just read. -/
theorem walkBlock_copy (hl : FreeList s.mm l) (hn : s.mm.npages ≤ 2 ^ 19)
    (hp : Kept l p inodeSize) (diskno : Option Nat) (alloc : Nat) (hb : ¬ b < 10) (hb' : b < 2058)
    (h10 : s.slot p 10 ≠ 0) (hns : (walkBlock p b diskno alloc s).state.starved = false) :
    ∃ q l' s', l = q :: l' ∧
      walkBlock p b diskno alloc s = .ok (0, some (frameVa q + 2 * (b - 10))) s' ∧
      Took s l s' l' ∧ Entry s' l' (frameVa q + 2 * (b - 10)) (s.blockNo p b) := by
  have hval : s.blockNo p b = s.indirect (s.slot p 10) (b - 10) := by
    rw [Fs.blockNo, if_neg hb, if_pos hb', if_neg h10]
  rw [walkBlock_indirect diskno alloc hb hb' hp h10] at hns ⊢
  obtain ⟨q, l', s', rfl, hrun, htook, hq, hnot, hmem⟩ :=
    bread_run hl hn (Act.Raises.of_bind (fun _ => Act.Raises.pure _) hns)
  have hoff : frameVa q + 2 * (b - 10) - kbase = pageSize * q + 2 * (b - 10) := by
    unfold frameVa
    omega
  refine ⟨q, l', s', rfl, by rw [Act.bind_ok hrun]; rfl, htook, (kept_frame hq hnot).part ?_, ?_⟩
  · unfold pageSize
    omega
  · rw [hoff, hval, Fs.indirect]
    refine Mem.rd_shift fun i hi => ?_
    rw [Nat.add_assoc, Nat.add_assoc]
    refine hmem _ ?_
    unfold blkSize
    omega

/-- The inode has a place for the number of the block. -/
def Fs.Reaches (s : Fs) (p b : Nat) : Prop := b < 10 ∨ b < 2058 ∧ s.slot p 10 ≠ 0

/-- A block that is there has a place. -/
theorem Fs.Reaches.of_blockNo (h : s.blockNo p b ≠ 0) : s.Reaches p b := by
  by_cases hlow : b < 10
  · exact .inl hlow
  · by_cases hb : b < 2058
    · refine .inr ⟨hb, fun h10 => h ?_⟩
      rw [Fs.blockNo, if_neg hlow, if_pos hb, if_pos h10]
    · exact absurd (by rw [Fs.blockNo, if_neg hlow, if_neg hb]) h

/-- A block that is there is one an inode has a place for. -/
theorem Fs.blockNo_lt (h : s.blockNo p b ≠ 0) : b < 2058 := by
  rcases Fs.Reaches.of_blockNo h with hb | ⟨hb, -⟩
  · omega
  · exact hb

/-- `walk_block` in a run that does not starve finds the entry of the map, if there
is a place for it. -/
theorem walkBlock_run (hl : FreeList s.mm l) (hn : s.mm.npages ≤ 2 ^ 19)
    (hp : Kept l p inodeSize) (diskno : Option Nat) (alloc : Nat) (hb : s.Reaches p b)
    (hns : (walkBlock p b diskno alloc s).state.starved = false) :
    ∃ ptr s' l', walkBlock p b diskno alloc s = .ok (0, some ptr) s' ∧ Took s l s' l' ∧
      Entry s' l' ptr (s.blockNo p b) := by
  by_cases hlow : b < 10
  · refine ⟨_, s, l, walkBlock_direct diskno alloc hlow, Took.refl hl,
      hp.slot (Nat.le_of_lt hlow), ?_⟩
    rw [Fs.blockNo, if_pos hlow]
    rfl
  · obtain ⟨hb', h10⟩ := hb.resolve_left hlow
    obtain ⟨q, l', s', -, hrun, htook, hent⟩ :=
      walkBlock_copy hl hn hp diskno alloc hlow hb' h10 hns
    exact ⟨_, s', l', hrun, htook, hent⟩

end Map

end Myos.Kernel
