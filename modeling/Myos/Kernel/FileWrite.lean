import Myos.Kernel.FileRead

/-!
# Writing a file

`file_write` against the bytes of a file. Every turn of the loop reads a block
into a fresh frame, copies a chunk of the buffer over a part of it and writes
the block back (`fileWriteStore_run`). The chunks are those of `file_read`, so
a call that is not `Whole` stores past the end of what was asked for, and
loads past the end of the buffer: what is there may not be mapped, and then
the call stops (`fileWriteLoop_run`).
-/

namespace Myos.Kernel

open Myos.Lib

/-! ## The turns of the loop -/

section Turns

variable (count stop t pos buf : Nat) (diskno : Option Nat) (ptr : Nat)

/-- The rest of a turn of `file_write`, once the block is at `pbuf`. -/
def fileWriteBack (pbuf : Nat) : Act FileSt Int := do
  fileFs (fsMm (memcpy (ptrAdd pbuf (pos % blkSize : Nat)) buf (chunk pos count)))
  let no ← fileFs (fsMm (load 2 ptr))
  fileFs (writeblk pbuf (no * 8) 8)
  Act.modify (FileSt.advance (chunk pos count))
  fileWriteLoop count stop t (int32 ((pos : Int) + chunk pos count)) diskno (buf + chunk pos count)

/-- The rest of it, once the block has a number. -/
def fileWriteStore : Act FileSt Int := do
  let no ← fileFs (fsMm (load 2 ptr))
  fileWriteBack count stop t pos buf diskno ptr (← fileFs (bread no))

/-- The rest of it, once `walk_block` returned. -/
def fileWriteAt : Act FileSt Int := do
  let ptr ← Act.deref diskno
  let no ← fileFs (fsMm (load 2 ptr))
  if no = 0 then do
    let bno ← fileFs getBlk
    if bno < 0 then return -1
    else do
      fileFs (fsMm (store 2 ptr bno.toNat))
      fileWriteStore count stop t pos buf diskno ptr
  else fileWriteStore count stop t pos buf diskno ptr

/-- A turn of `file_write`. -/
theorem fileWriteLoop_succ {s : FileSt} (hlt : pos < stop) (hpos : pos < 2 ^ 31) :
    fileWriteLoop count stop (t + 1) pos diskno buf s =
      (fileFs (walkBlock s.file.inode (pos / blkSize) diskno 1) >>= fun r =>
        fileWriteAt count stop t pos buf r.2) s := by
  have hdiv : pos / blkSize < 2 ^ 32 := Nat.lt_of_le_of_lt (Nat.div_le_self _ _) (by omega)
  rw [fileWriteLoop, u32_nat (by omega : pos < 2 ^ 32), if_pos hlt, Act.gets_bind_apply]
  simp only [tdiv_blkSize, u32_nat hdiv, tmod_blkSize, toNat_blkSize_sub]
  rfl

/-- The loop ends once the position is past the end. -/
theorem fileWriteLoop_end {s : FileSt} (h : ¬ pos < stop) (hpos : pos < 2 ^ 31) :
    fileWriteLoop count stop (t + 1) pos diskno buf s = .ok (int32 count) s := by
  rw [fileWriteLoop, u32_nat (by omega : pos < 2 ^ 32), if_neg h]
  rfl

theorem fileWriteLoop_starves (i : Int) :
    Act.Within (Act.Raises FileSt.starved) (fileWriteLoop count stop t i diskno buf) := by
  induction t generalizing i diskno buf with
  | zero => exact Act.Within.stop Act.Raises.refl
  | succ t ih =>
    unfold fileWriteLoop
    split
    · refine Act.Raises.bind (Act.Raises.gets _) fun inode =>
        Act.Raises.bind (fileFs_starves (walkBlock_starves inode _ diskno 1)) fun r =>
        Act.Raises.bind (Act.Raises.deref r.2) fun ptr =>
        Act.Raises.bind (fileFs_starves (fsMm_starves (Starves.load 2 ptr))) fun no => ?_
      have hwrite : ∀ mincount x, Act.Within (Act.Raises FileSt.starved) (do
          let no ← fileFs (fsMm (load 2 ptr))
          let pbuf ← fileFs (bread no)
          fileFs (fsMm (memcpy (ptrAdd pbuf x) buf mincount))
          let no ← fileFs (fsMm (load 2 ptr))
          fileFs (writeblk pbuf (no * 8) 8)
          Act.modify (FileSt.advance mincount)
          fileWriteLoop count stop t (int32 (i + mincount)) r.2 (buf + mincount)) := fun _ _ =>
        Act.Raises.bind (fileFs_starves (fsMm_starves (Starves.load 2 ptr))) fun no =>
        Act.Raises.bind (fileFs_starves (bread_starves no)) fun pbuf =>
        Act.Raises.bind (fileFs_starves (fsMm_starves (Starves.memcpy _ buf _))) fun _ =>
        Act.Raises.bind (fileFs_starves (fsMm_starves (Starves.load 2 ptr))) fun no =>
        Act.Raises.bind (fileFs_starves (diskOut_starves pbuf _ _)) fun _ =>
        Act.Raises.bind (Act.Raises.modify fun _ => rfl) fun _ => ih _ r.2 _
      show Act.Within (Act.Raises FileSt.starved) (if _ then _ else _)
      split
      · refine Act.Raises.bind (fileFs_starves getBlk_starves) fun bno => ?_
        show Act.Within (Act.Raises FileSt.starved) (if _ then _ else _)
        split
        · exact Act.Raises.pure _
        · exact Act.Raises.bind (fileFs_starves (fsMm_starves (Starves.store 2 ptr _))) fun _ =>
            hwrite _ _
      · exact hwrite _ _
    · exact Act.Raises.pure _

theorem fileWriteBack_starves (pbuf : Nat) :
    Act.Within (Act.Raises FileSt.starved) (fileWriteBack count stop t pos buf diskno ptr pbuf) :=
  Act.Raises.bind (fileFs_starves (fsMm_starves (Starves.memcpy _ buf _))) fun _ =>
    Act.Raises.bind (fileFs_starves (fsMm_starves (Starves.load 2 ptr))) fun _ =>
    Act.Raises.bind (fileFs_starves (diskOut_starves pbuf _ _)) fun _ =>
    Act.Raises.bind (Act.Raises.modify fun _ => rfl) fun _ =>
      fileWriteLoop_starves count stop t _ diskno _

theorem fileWriteStore_starves :
    Act.Within (Act.Raises FileSt.starved) (fileWriteStore count stop t pos buf diskno ptr) :=
  Act.Raises.bind (fileFs_starves (fsMm_starves (Starves.load 2 ptr))) fun no =>
    Act.Raises.bind (fileFs_starves (bread_starves no)) fun pbuf =>
      fileWriteBack_starves count stop t pos buf diskno ptr pbuf

theorem fileWriteAt_starves :
    Act.Within (Act.Raises FileSt.starved) (fileWriteAt count stop t pos buf diskno) := by
  refine Act.Raises.bind (Act.Raises.deref diskno) fun ptr =>
    Act.Raises.bind (fileFs_starves (fsMm_starves (Starves.load 2 ptr))) fun no => ?_
  show Act.Within (Act.Raises FileSt.starved) (if _ then _ else _)
  split
  · refine Act.Raises.bind (fileFs_starves getBlk_starves) fun bno => ?_
    show Act.Within (Act.Raises FileSt.starved) (if _ then _ else _)
    split
    · exact Act.Raises.pure _
    · exact Act.Raises.bind (fileFs_starves (fsMm_starves (Starves.store 2 ptr _))) fun _ =>
        fileWriteStore_starves count stop t pos buf diskno ptr
  · exact fileWriteStore_starves count stop t pos buf diskno ptr

end Turns

/-! ## One chunk -/

/-- Of `c` bytes stored to the disk, at `addr`, the first `k` are the bytes `pa` of
memory; nothing else on disk changed. -/
structure Wrote (s : FileSt) (l : List Nat) (s' : FileSt) (l' : List Nat) (k c : Nat)
    (pa addr : Nat → Nat) : Prop where
  free : FreeList s'.fs.mm l'
  sub : ∀ f, f ∈ l' → f ∈ l
  rest : s'.fs = (Fs.setMm s'.fs.mm s.fs).setDisk s'.fs.disk
  npages : s'.fs.mm.npages = s.fs.mm.npages
  cr3 : s'.fs.mm.cr3 = s.fs.mm.cr3
  /-- Nothing changed in memory but free frames. -/
  mem : ∀ x, x / pageSize ∉ l → s'.fs.mm.mem x = s.fs.mm.mem x
  bytes : ∀ i, i < k → s'.fs.disk (addr i) = s.fs.mm.mem (pa i)
  disk : ∀ y, (∀ i, i < c → y ≠ addr i) → s'.fs.disk y = s.fs.disk y
  file : s'.file = { s.file with offset := int32 (s.file.offset + c) }

/-- A copy into the direct map whose first `k` bytes are known to be mapped. -/
theorem memcpy_prefix {s : Mm} {k c : Nat} (pa src : Nat) (ps : Nat → Nat) (hk : k ≤ c)
    (hpa : pa + c ≤ 2 ^ 31)
    (hsrc : ∀ m, (∀ x, x < pa ∨ pa + c ≤ x → m x = s.mem x) → ∀ i, i < k →
      (s.setMem m).kpa (src + i) = some (ps i))
    (hps : ∀ i, i < k → ps i < pa ∨ pa + c ≤ ps i) :
    ∃ m : Mem, (memcpy (kbase + pa) src c s).state = s.setMem m ∧
      (k = c → memcpy (kbase + pa) src c s = .ok () (s.setMem m)) ∧
      (∀ i, i < k → m (pa + i) = s.mem (ps i)) ∧
      ∀ x, x < pa ∨ pa + c ≤ x → m x = s.mem x := by
  induction k generalizing s pa c src ps with
  | zero =>
    obtain ⟨m, hm, hout⟩ := memcpy_direct_state src s hpa
    refine ⟨m, hm, fun hc => ?_, fun i hi => absurd hi (Nat.not_lt_zero i), hout⟩
    subst hc
    have hmem : m = s.mem := funext fun x => hout x (by omega)
    rw [hmem]
    rfl
  | succ k ih =>
    obtain ⟨c, rfl⟩ : ∃ d, c = d + 1 := ⟨c - 1, by omega⟩
    have hs := hsrc s.mem (fun _ _ => rfl) 0 (Nat.succ_pos k)
    rw [Mm.setMem_self, Nat.add_zero] at hs
    obtain ⟨m₁, hm₁, hfirst, hkeep⟩ : ∃ m₁ : Mem,
        m₁ = s.mem.overlay pa 1 (fun _ => s.mem (ps 0)) ∧ m₁ pa = s.mem (ps 0) ∧
          ∀ x, x ≠ pa → m₁ x = s.mem x :=
      ⟨_, rfl, Mem.overlay_in (by omega), fun x hx => Mem.overlay_out (by omega)⟩
    have hstep : memcpy (kbase + pa) src (c + 1) s =
        memcpy (kbase + (pa + 1)) (src + 1) c (s.setMem m₁) := by
      rw [memcpy, Act.bind_ok (load_ok hs),
        Act.bind_ok (store_ok (s.kpa_direct (by omega : pa < 2 ^ 31))), rd_one, wr_one, ← hm₁,
        Nat.add_assoc]
    obtain ⟨m, hstate, hok, hin, hout⟩ := ih (s := s.setMem m₁) (pa + 1) (src + 1) (fun i => ps (i + 1))
      (by omega) (by omega : pa + 1 + c ≤ 2 ^ 31) (fun m hm i hi => by
        have hall : ∀ x, x < pa ∨ pa + (c + 1) ≤ x → m x = s.mem x := fun x hx =>
          (hm x (by omega)).trans (hkeep x (by omega))
        rw [Mm.setMem_setMem, show src + 1 + i = src + (i + 1) by omega]
        exact hsrc m hall (i + 1) (by omega))
      (fun i hi => by have := hps (i + 1) (by omega); omega)
    rw [hstep]
    refine ⟨m, hstate, fun hc => hok (by omega), fun i hi => ?_, fun x hx => ?_⟩
    · cases i with
      | zero => exact (hout pa (by omega)).trans hfirst
      | succ i =>
        rw [show pa + (i + 1) = pa + 1 + i by omega, hin i (by omega)]
        refine hkeep _ ?_
        have := hps (i + 1) (by omega)
        omega
    · exact (hout x (by omega)).trans (hkeep x (by omega))

section Store

variable {s : FileSt} {l : List Nat} {count stop pos buf k no ptr : Nat} {pa : Nat → Nat}

/-- The block goes back to the disk with the chunk in it, from the frame `q` it was read to. -/
theorem Took.wroteBack {f : Fs} {m : Mem} {l' : List Nat} {q d c : Nat}
    (htook : Took s.fs (q :: l') f l') (hd : d + c ≤ blkSize) (hk : k ≤ c)
    (horigin : ∀ i, i < k → pa i / pageSize ∉ q :: l')
    (hin : ∀ i, i < k → m (pageSize * q + d + i) = f.mm.mem (pa i))
    (hout : ∀ x, x < pageSize * q + d ∨ pageSize * q + d + c ≤ x → m x = f.mm.mem x)
    (hmem : ∀ x, x / pageSize ∉ q :: l' → m x = s.fs.mm.mem x)
    (hbytes : ∀ i, i < blkSize → f.mm.mem (pageSize * q + i) = s.fs.disk (blkSize * no + i)) :
    Wrote s (q :: l') (FileSt.advance c (FileSt.setFs ((Fs.setMm (f.mm.setMem m) f).setDisk
      (s.fs.disk.overlay (4096 * no) 4096 fun i => m (pageSize * q + i))) s)) l' k c pa
      (fun i => blkSize * no + (d + i)) where
  free := htook.free.congr rfl rfl rfl
  sub := htook.sub
  rest := by
    rw [htook.rest]
    rfl
  npages := htook.npages
  cr3 := htook.cr3
  mem := hmem
  bytes := by
    intro i hi
    have hinside : 4096 * no ≤ blkSize * no + (d + i) ∧
        blkSize * no + (d + i) < 4096 * no + 4096 := by
      have hi' : d + i < blkSize := by omega
      unfold blkSize at hi' ⊢
      omega
    show Mem.overlay s.fs.disk (4096 * no) 4096 (fun i => m (pageSize * q + i)) _ = _
    rw [Mem.overlay_in hinside, show pageSize * q + (blkSize * no + (d + i) - 4096 * no) =
      pageSize * q + d + i by unfold blkSize; omega, hin i hi]
    exact htook.mem _ (horigin i hi)
  disk := by
    intro y hy
    show Mem.overlay s.fs.disk (4096 * no) 4096 (fun i => m (pageSize * q + i)) _ = _
    by_cases hinside : 4096 * no ≤ y ∧ y < 4096 * no + 4096
    · obtain ⟨j, rfl⟩ := Nat.exists_eq_add_of_le hinside.1
      rw [Mem.overlay_in hinside, Nat.add_sub_cancel_left, hout]
      · exact hbytes j (by unfold blkSize; omega)
      · by_contra hcon
        refine hy (j - d) (by omega) ?_
        unfold blkSize
        omega
    · exact Mem.overlay_out (by omega)
  file := rfl

/-- STEP: the chunk is stored to block `no`, unless the buffer ends before it. -/
theorem fileWriteStore_run (t : Nat) (diskno : Option Nat) (hl : FreeList s.fs.mm l)
    (hn : s.fs.mm.npages ≤ 2 ^ 19) (hent : Entry s.fs l ptr no) (hk : k ≤ chunk pos count)
    (horigin : Origin s.fs.mm l buf k pa) (hpos : pos + count < 2 ^ 31)
    (hns : (fileWriteStore count stop t pos buf diskno ptr s).state.starved = false) :
    (k ≠ chunk pos count ∧ ∃ s', fileWriteStore count stop t pos buf diskno ptr s = .fault s') ∨
    ∃ s' l', Wrote s l s' l' k (chunk pos count) pa (fun i => blkSize * no + (pos % blkSize + i)) ∧
      fileWriteStore count stop t pos buf diskno ptr s =
        fileWriteLoop count stop t (pos + chunk pos count : Nat) diskno
          (buf + chunk pos count) s' := by
  obtain ⟨c, hc⟩ : ∃ c, c = chunk pos count := ⟨_, rfl⟩
  have hcle : pos % blkSize + c ≤ blkSize := by
    have := chunk_le pos count
    have := Nat.mod_lt pos (by decide : 0 < blkSize)
    omega
  have hccount : c ≤ count := by rw [hc]; exact Nat.min_le_right _ _
  rw [← hc] at hk ⊢
  have hload : fileFs (fsMm (load 2 ptr)) s = .ok no s := fileFs_ok hent.load
  unfold fileWriteStore at hns ⊢
  rw [Act.bind_ok hload] at hns ⊢
  have hbread := Act.Raises.of_bind
    (fun pbuf => fileWriteBack_starves count stop t pos buf diskno ptr pbuf) hns
  rw [fileFs, FileSt.starved, Act.zoom_state] at hbread
  obtain ⟨q, l', f, rfl, hrun, htook, hq, hnot, hbytes⟩ := bread_run hl hn hbread
  obtain ⟨d, hd⟩ : ∃ d, d = pos % blkSize := ⟨_, rfl⟩
  rw [← hd] at hcle
  have hdlt : d < pageSize := by
    rw [hd]
    exact Nat.mod_lt _ (by decide)
  have hptr : ptrAdd (frameVa q) (d : Nat) = kbase + (pageSize * q + d) := by
    rw [ptrAdd_frameVa hq hdlt, frameVa, Nat.add_assoc]
  have hroom : pageSize * q + d + c ≤ 2 ^ 31 := by
    unfold pageSize blkSize at *
    omega
  have hframe : ∀ x, pageSize * q + d ≤ x → x < pageSize * q + d + c → x / pageSize = q := by
    intro x h1 h2
    unfold pageSize blkSize at *
    omega
  -- The copy: what the buffer maps to is in no free frame, so not in `q`.
  obtain ⟨m, hstate, hok, hin, hout⟩ := memcpy_prefix (s := f.mm) (pageSize * q + d) buf pa
    hk hroom
    (fun m hm i hi => by
      rw [← horigin.maps m (fun x hx => ?_) i hi]
      · exact Mm.kpa_congr rfl htook.cr3
      · refine (hm x ?_).trans (htook.mem x hx)
        by_contra hcon
        exact hx (hframe x (by omega) (by omega) ▸ List.mem_cons_self))
    (fun i hi => by
      by_contra hcon
      exact horigin.out i hi (hframe (pa i) (by omega) (by omega) ▸ List.mem_cons_self))
  have hmem : ∀ x, x / pageSize ∉ q :: l' → m x = s.fs.mm.mem x := fun x hx => by
    refine (hout x ?_).trans (htook.mem x hx)
    by_contra hcon
    exact hx (hframe x (by omega) (by omega) ▸ List.mem_cons_self)
  rw [Act.bind_ok (fileFs_ok hrun)]
  unfold fileWriteBack
  rw [← hc, ← hd, hptr]
  cases hcopy : memcpy (kbase + (pageSize * q + d)) buf c f.mm with
  | fault m' =>
    refine .inl ⟨fun hkc => ?_, ?_⟩
    · rw [hok hkc] at hcopy
      cases hcopy
    · have hstep : fileFs (fsMm (memcpy (kbase + (pageSize * q + d)) buf c))
          (FileSt.setFs f s) = .fault (FileSt.setFs (Fs.setMm m' f) s) :=
        Act.zoom_fault (Act.zoom_fault hcopy)
      rw [Act.bind_fault hstep]
      exact ⟨_, rfl⟩
  | ok a m' =>
    rw [hcopy] at hstate
    have hm' : m' = f.mm.setMem m := hstate
    have hwrote := htook.wroteBack hcle hk horigin.out hin hout hmem hbytes
    obtain ⟨f₁, hf₁⟩ : ∃ f₁ : Fs, f₁ = Fs.setMm (f.mm.setMem m) f := ⟨_, rfl⟩
    rw [← hf₁] at hwrote
    have hstep : fileFs (fsMm (memcpy (kbase + (pageSize * q + d)) buf c))
        (FileSt.setFs f s) = .ok a (FileSt.setFs f₁ s) := by
      rw [hf₁, ← hm']
      exact fileFs_ok (fsMm_ok hcopy)
    have hmem₁ : f₁.mm.mem = m := by rw [hf₁]; rfl
    have hdisk₁ : f₁.disk = s.fs.disk := by rw [hf₁]; exact htook.disk
    have hent₁ : Entry f₁ (q :: l') ptr no := by
      refine ⟨hent.kept, ?_⟩
      rw [hmem₁, hent.kept.rd hmem]
      exact hent.eq
    have hload₁ : fileFs (fsMm (load 2 ptr)) (FileSt.setFs f₁ s) = .ok no (FileSt.setFs f₁ s) :=
      fileFs_ok hent₁.load
    have hwr : fileFs (writeblk (frameVa q) (no * 8) 8) (FileSt.setFs f₁ s) =
        .ok () (FileSt.setFs (f₁.setDisk (s.fs.disk.overlay (4096 * no) 4096
          fun i => m (pageSize * q + i))) s) := by
      have hout' := diskOut_run f₁ (pageSize * q) (4096 * no) 4096 (by unfold pageSize; omega)
      rw [hmem₁, hdisk₁] at hout'
      refine fileFs_ok ?_
      rw [writeblk, show 512 * (no * 8) = 4096 * no by omega]
      exact hout'
    have hnext : int32 ((pos : Int) + c) = (pos + c : Nat) := by
      rw [← Nat.cast_add, int32_nat (by omega)]
    refine .inr ⟨_, l', hwrote, ?_⟩
    rw [Act.bind_ok hstep, Act.bind_ok hload₁, Act.bind_ok hwr, Act.modify_bind_apply, hnext]

end Store

/-! ## The bytes a call moves -/

/-- The bytes moved when the loop ends: chunk after chunk, while fewer than `count`. -/
def movedFrom (o count : Nat) : Nat → Nat → Nat
  | 0, n => n
  | t + 1, n => if n < count then movedFrom o count t (n + chunk (o + n) count) else n

/-- The bytes a call moves that is asked for `count` bytes at `o`. -/
def moved (o count : Nat) : Nat := movedFrom o count count 0

section Moved

variable {o count n t i : Nat}

theorem movedFrom_end (h : ¬ n < count) : movedFrom o count t n = n := by
  cases t with
  | zero => rfl
  | succ t => rw [movedFrom, if_neg h]

theorem movedFrom_succ (h : n < count) :
    movedFrom o count (t + 1) n = movedFrom o count t (n + chunk (o + n) count) := by
  rw [movedFrom, if_pos h]

/-- Turns to spare make no difference. -/
theorem movedFrom_congr {u : Nat} (ht : count - n ≤ t) (hu : count - n ≤ u) :
    movedFrom o count t n = movedFrom o count u n := by
  induction t generalizing n u with
  | zero => rw [movedFrom_end (by omega), movedFrom_end (by omega)]
  | succ t ih =>
    by_cases h : n < count
    · have hc := chunk_pos (o := o) h
      cases u with
      | zero => omega
      | succ u =>
        rw [movedFrom_succ h, movedFrom_succ h]
        exact ih (by omega) (by omega)
    · rw [movedFrom_end h, movedFrom_end h]

theorem le_movedFrom : n ≤ movedFrom o count t n := by
  induction t generalizing n with
  | zero => exact Nat.le_refl n
  | succ t ih =>
    by_cases h : n < count
    · rw [movedFrom_succ h]
      exact Nat.le_trans (Nat.le_add_right _ _) ih
    · rw [movedFrom_end h]

theorem count_le_movedFrom (ht : count - n ≤ t) : count ≤ movedFrom o count t n := by
  induction t generalizing n with
  | zero => rw [movedFrom]; omega
  | succ t ih =>
    by_cases h : n < count
    · have hc := chunk_pos (o := o) h
      rw [movedFrom_succ h]
      exact ih (by omega)
    · rw [movedFrom_end h]
      omega

/-- A whole call moves what it is asked for. -/
theorem movedFrom_whole (ht : count - n ≤ t) (hn : n ≤ count)
    (h : n = count ∨ n = 0 ∧ count ≤ blkSize - o % blkSize ∨ blkSize ∣ o + count) :
    movedFrom o count t n = count := by
  induction t generalizing n with
  | zero => rw [movedFrom]; omega
  | succ t ih =>
    by_cases hlt : n < count
    · have hfit := chunk_fits (h.resolve_left (Nat.ne_of_lt hlt)) hlt
      have hc := chunk_pos (o := o) hlt
      rw [movedFrom_succ hlt]
      refine ih (by omega) (by omega) ?_
      rcases h with h | ⟨rfl, h⟩ | h
      · omega
      · refine .inl ?_
        rw [Nat.zero_add, Nat.add_zero, chunk, Nat.min_eq_right h]
      · exact .inr (.inr h)
    · rw [movedFrom_end hlt]
      omega

/-- Any other call moves more. -/
theorem movedFrom_past (ht : count - n ≤ t) (hn : n < count)
    (h : ¬ (count ≤ blkSize - o % blkSize ∨ blkSize ∣ o + count)) :
    count < movedFrom o count t n := by
  induction t generalizing n with
  | zero => omega
  | succ t ih =>
    have hmiss := chunk_misses h hn
    have hc := chunk_pos (o := o) hn
    rw [movedFrom_succ hn]
    by_cases hlt : n + chunk (o + n) count < count
    · exact ih (by omega) hlt
    · rw [movedFrom_end hlt]
      omega

/-- No more than twice what it is asked for. -/
theorem movedFrom_le (h : n ≤ 2 * count) : movedFrom o count t n ≤ 2 * count := by
  induction t generalizing n with
  | zero => exact h
  | succ t ih =>
    by_cases hlt : n < count
    · have hc : chunk (o + n) count ≤ count := Nat.min_le_right _ _
      rw [movedFrom_succ hlt]
      exact ih (by omega)
    · rw [movedFrom_end hlt]
      exact h

/-- What is moved lies in the blocks of what was asked for. -/
theorem movedFrom_block (hni : n ≤ i) (hi : i < movedFrom o count t n) :
    ∃ j, n ≤ j ∧ j < count ∧ (o + i) / blkSize = (o + j) / blkSize := by
  induction t generalizing n with
  | zero =>
    rw [movedFrom] at hi
    omega
  | succ t ih =>
    by_cases hlt : n < count
    · rw [movedFrom_succ hlt] at hi
      by_cases hin : i < n + chunk (o + n) count
      · refine ⟨n, Nat.le_refl n, hlt, ?_⟩
        have hblock := (chunk_block (by omega : i - n < chunk (o + n) count)).1
        rwa [show o + n + (i - n) = o + i by omega] at hblock
      · obtain ⟨j, h1, h2, h3⟩ := ih (by omega) hi
        exact ⟨j, by omega, h2, h3⟩
    · rw [movedFrom_end hlt] at hi
      omega

theorem moved_eq_iff : moved o count = count ↔ count ≤ blkSize - o % blkSize ∨ blkSize ∣ o + count := by
  constructor
  · intro h
    by_contra hw
    by_cases hc : 0 < count
    · have := movedFrom_past (t := count) (Nat.sub_le _ _) hc hw
      rw [moved] at h
      omega
    · exact hw (.inl (by omega))
  · intro h
    exact movedFrom_whole (Nat.sub_le _ _) (Nat.zero_le _) (.inr (h.imp (fun h => ⟨rfl, h⟩) id))

end Moved

/-! ## Blocks of its own -/

/-- The blocks `B` of the inode are there, no two of them are one disk block, and
none is the block that holds the numbers of others. -/
structure Fs.Own (s : Fs) (p : Nat) (B : Nat → Prop) : Prop where
  there : ∀ b, B b → s.blockNo p b ≠ 0
  inj : ∀ b b', B b → B b' → s.blockNo p b = s.blockNo p b' → b = b'
  off : ∀ b b', B b → B b' → 10 ≤ b' → s.blockNo p b ≠ s.slot p 10

section Own

variable {s s' : FileSt} {l l' : List Nat} {p k c b d : Nat} {B : Nat → Prop} {pa : Nat → Nat}

theorem Wrote.slot {addr : Nat → Nat} (h : Wrote s l s' l' k c pa addr) (hp : Kept l p inodeSize)
    {i : Nat} (hi : i ≤ 10) : s'.fs.slot p i = s.fs.slot p i := (hp.slot hi).rd h.mem

/-- Writing outside the block that holds the numbers of others moves no block. -/
theorem Wrote.blockNo_addr {addr : Nat → Nat} (h : Wrote s l s' l' k c pa addr)
    (hp : Kept l p inodeSize) (b' : Nat)
    (hoff : 10 ≤ b' → ∀ i, i < c → addr i / blkSize ≠ s.fs.slot p 10) :
    s'.fs.blockNo p b' = s.fs.blockNo p b' := by
  have h10 := h.slot hp (Nat.le_refl 10)
  by_cases hlow : b' < 10
  · rw [Fs.blockNo, Fs.blockNo, if_pos hlow, if_pos hlow, h.slot hp (Nat.le_of_lt hlow)]
  · have hoff' := hoff (Nat.not_lt.mp hlow)
    rw [Fs.blockNo, Fs.blockNo, if_neg hlow, if_neg hlow, h10]
    by_cases hhigh : b' < 2058
    · rw [if_pos hhigh, if_pos hhigh]
      have hind : s'.fs.indirect (s.fs.slot p 10) (b' - 10) =
          s.fs.indirect (s.fs.slot p 10) (b' - 10) := by
        refine Mem.rd_congr fun x h1 h2 => h.disk x fun i hi hx => hoff' i hi ?_
        rw [← hx]
        unfold blkSize at *
        omega
      rw [hind]
    · rw [if_neg hhigh, if_neg hhigh]

theorem Wrote.blockNo_off {no : Nat} (h : Wrote s l s' l' k c pa fun i => blkSize * no + (d + i))
    (hp : Kept l p inodeSize) (hd : d + c ≤ blkSize) (b' : Nat)
    (hoff : 10 ≤ b' → no ≠ s.fs.slot p 10) : s'.fs.blockNo p b' = s.fs.blockNo p b' := by
  refine h.blockNo_addr hp b' fun hle i hi => ?_
  rw [show (blkSize * no + (d + i)) / blkSize = no by unfold blkSize at *; omega]
  exact hoff hle

/-- Writing to one of the blocks moves none of them. -/
theorem Wrote.blockNo (h : Wrote s l s' l' k c pa fun i => blkSize * s.fs.blockNo p b + (d + i))
    (hp : Kept l p inodeSize) (hown : s.fs.Own p B) (hb : B b) (hd : d + c ≤ blkSize) (b' : Nat)
    (hb' : B b') : s'.fs.blockNo p b' = s.fs.blockNo p b' :=
  h.blockNo_off hp hd b' fun hle => hown.off b b' hb hb' hle

theorem Wrote.own (h : Wrote s l s' l' k c pa fun i => blkSize * s.fs.blockNo p b + (d + i))
    (hp : Kept l p inodeSize) (hown : s.fs.Own p B) (hb : B b) (hd : d + c ≤ blkSize) :
    s'.fs.Own p B := by
  have hsame := fun {b'} => h.blockNo hp hown hb hd b'
  refine ⟨fun b₁ h1 => by rw [hsame h1]; exact hown.there b₁ h1, fun b₁ b₂ h1 h2 heq => ?_,
    fun b₁ b₂ h1 h2 hle => ?_⟩
  · rw [hsame h1, hsame h2] at heq
    exact hown.inj b₁ b₂ h1 h2 heq
  · rw [hsame h1, h.slot hp (Nat.le_refl 10)]
    exact hown.off b₁ b₂ h1 h2 hle

/-- Positions in blocks of its own are on disk at places of their own. -/
theorem Fs.Own.addr_inj {f : Fs} (hown : f.Own p B) {x y : Nat} (hx : B (x / blkSize))
    (hy : B (y / blkSize)) (h : f.fileAddr p x = f.fileAddr p y) : x = y := by
  unfold Fs.fileAddr at h
  have hxm := Nat.mod_lt x (by decide : 0 < blkSize)
  have hym := Nat.mod_lt y (by decide : 0 < blkSize)
  have hno : f.blockNo p (x / blkSize) = f.blockNo p (y / blkSize) := by
    unfold blkSize at *
    omega
  have hdiv := hown.inj _ _ hx hy hno
  have hxe := Nat.div_add_mod x blkSize
  have hye := Nat.div_add_mod y blkSize
  rw [hno] at h
  rw [hdiv] at hxe
  omega

/-- The same places, written otherwise. -/
theorem Wrote.congr {addr : Nat → Nat} (h : Wrote s l s' l' k c pa addr) (addr' : Nat → Nat) (hk : k ≤ c)
    (ha : ∀ i, i < c → addr' i = addr i) : Wrote s l s' l' k c pa addr' :=
  ⟨h.free, h.sub, h.rest, h.npages, h.cr3, h.mem,
    fun i hi => by rw [ha i (by omega)]; exact h.bytes i hi,
    fun y hy => h.disk y fun i hi => by rw [← ha i hi]; exact hy i hi, h.file⟩

/-- One write and the next. -/
theorem Wrote.trans {s'' : FileSt} {l'' : List Nat} {k' c' : Nat} {addr : Nat → Nat}
    (h : Wrote s l s' l' c c pa addr)
    (h' : Wrote s' l' s'' l'' k' c' (fun i => pa (i + c)) fun i => addr (i + c))
    (hinj : ∀ i j, i < c → j < c' → addr i ≠ addr (j + c))
    (hout : ∀ i, i < c + k' → pa i / pageSize ∉ l) : Wrote s l s'' l'' (c + k') (c + c') pa addr := by
  refine ⟨h'.free, fun f hf => h.sub f (h'.sub f hf), ?_, h'.npages.trans h.npages,
    h'.cr3.trans h.cr3, fun x hx => (h'.mem x fun hx' => hx (h.sub _ hx')).trans (h.mem x hx),
    fun i hi => ?_, fun y hy => ?_, ?_⟩
  · rw [h'.rest, h.rest]
    rfl
  · by_cases hic : i < c
    · rw [h'.disk _ fun j hj => hinj i j hic hj]
      exact h.bytes i hic
    · have := h'.bytes (i - c) (by omega)
      rw [Nat.sub_add_cancel (by omega)] at this
      rw [this]
      exact h.mem _ (hout i hi)
  · rw [h'.disk y fun j hj => hy (j + c) (by omega), h.disk y fun j hj => hy j (by omega)]
  · rw [h'.file, h.file, int32_advance]

end Own

/-! ## Whole calls and others -/

section Run

variable {s : FileSt} {l : List Nat} {count o n buf : Nat} {pa : Nat → Nat} {B : Nat → Prop}

theorem Origin.first {s : Mm} {n c : Nat} (h : Origin s l buf n pa) (hc : c ≤ n) :
    Origin s l buf c pa := by
  have hrest : Origin s l (buf + 0) c fun i => pa (i + 0) :=
    h.rest (by omega) (fun _ hf => hf) rfl fun _ _ => rfl
  exact hrest

/-- A turn of `file_write`, as far as the number of the block. -/
theorem fileWriteLoop_entry (t : Nat) (diskno : Option Nat) {stop : Nat}
    (hl : FreeList s.fs.mm l) (hn : s.fs.mm.npages ≤ 2 ^ 19)
    (hp : Kept l s.file.inode inodeSize) (hlt : n < stop) (hpos : n < 2 ^ 31)
    (hb : s.fs.Reaches s.file.inode (n / blkSize))
    (hns : (fileWriteLoop count stop (t + 1) n diskno buf s).state.starved = false) :
    ∃ ptr f l', Took s.fs l f l' ∧ Entry f l' ptr (s.fs.blockNo s.file.inode (n / blkSize)) ∧
      fileWriteLoop count stop (t + 1) n diskno buf s =
        fileWriteAt count stop t n buf (some ptr) (FileSt.setFs f s) := by
  rw [fileWriteLoop_succ count stop t n buf diskno hlt hpos] at hns ⊢
  have hwalk := Act.Raises.of_bind
    (fun r : Int × Option Nat => fileWriteAt_starves count stop t n buf r.2) hns
  rw [fileFs, FileSt.starved, Act.zoom_state] at hwalk
  obtain ⟨ptr, f, l', hrun, htook, hent⟩ := walkBlock_run hl hn hp diskno 1 hb hwalk
  exact ⟨ptr, f, l', htook, hent, Act.bind_ok (fileFs_ok hrun)⟩

/-- A write after frames were taken. -/
theorem Wrote.after {s' : FileSt} {f : Fs} {l₁ l' : List Nat} {k c : Nat} {addr : Nat → Nat}
    (htook : Took s.fs l f l₁) (h : Wrote (FileSt.setFs f s) l₁ s' l' k c pa addr)
    (hout : ∀ i, i < k → pa i / pageSize ∉ l) : Wrote s l s' l' k c pa addr := by
  refine ⟨h.free, fun g hg => htook.sub g (h.sub g hg), ?_, h.npages.trans htook.npages,
    h.cr3.trans htook.cr3, fun x hx => (h.mem x fun hx' => hx (htook.sub _ hx')).trans
      (htook.mem x hx), fun i hi => (h.bytes i hi).trans (htook.mem _ (hout i hi)),
    fun y hy => (h.disk y hy).trans (congrFun htook.disk y), h.file⟩
  rw [h.rest]
  show (Fs.setMm s'.fs.mm f).setDisk s'.fs.disk = _
  rw [htook.rest]
  rfl

/-- STEP: a turn of `file_write` on a block that is there. -/
theorem fileWriteLoop_turn (t : Nat) (diskno : Option Nat) {stop k : Nat}
    (hl : FreeList s.fs.mm l) (hn : s.fs.mm.npages ≤ 2 ^ 19)
    (hp : Kept l s.file.inode inodeSize) (hlt : n < stop) (hpos : n + count < 2 ^ 31)
    (hb : s.fs.blockNo s.file.inode (n / blkSize) ≠ 0) (hk : k ≤ chunk n count)
    (horigin : Origin s.fs.mm l buf k pa)
    (hns : (fileWriteLoop count stop (t + 1) n diskno buf s).state.starved = false) :
    (k ≠ chunk n count ∧ ∃ s', fileWriteLoop count stop (t + 1) n diskno buf s = .fault s') ∨
    ∃ s' l' d, Wrote s l s' l' k (chunk n count) pa
        (fun i => blkSize * s.fs.blockNo s.file.inode (n / blkSize) + (n % blkSize + i)) ∧
      fileWriteLoop count stop (t + 1) n diskno buf s =
        fileWriteLoop count stop t (n + chunk n count : Nat) d (buf + chunk n count) s' := by
  obtain ⟨ptr, f, l₁, htook, hent, hrun⟩ :=
    fileWriteLoop_entry t diskno hl hn hp hlt (by omega) (.of_blockNo hb) hns
  have hload : fileFs (fsMm (load 2 ptr)) (FileSt.setFs f s) =
      .ok (s.fs.blockNo s.file.inode (n / blkSize)) (FileSt.setFs f s) := fileFs_ok hent.load
  rw [hrun] at hns ⊢
  unfold fileWriteAt at hns ⊢
  rw [Act.deref_bind_apply, Act.bind_ok hload, if_neg hb] at hns ⊢
  have horigin₁ : Origin f.mm l₁ buf k pa :=
    horigin.rest (c := 0) (by omega) htook.sub htook.cr3 htook.mem
  rcases fileWriteStore_run (s := FileSt.setFs f s) t (some ptr) htook.free
    (by show f.mm.npages ≤ _; rw [htook.npages]; exact hn) hent hk horigin₁ hpos hns with
    hfault | ⟨s', l', hw, hrun'⟩
  · exact .inl hfault
  · exact .inr ⟨s', l', some ptr, Wrote.after htook hw horigin.out, hrun'⟩

/-- RUN: what a call writes that is asked for `count` bytes at `o`, from `n` on. -/
theorem fileWriteLoop_run (t : Nat) (diskno : Option Nat) (hl : FreeList s.fs.mm l)
    (hn : s.fs.mm.npages ≤ 2 ^ 19) (hp : Kept l s.file.inode inodeSize) (hle : n ≤ count)
    (ht : count - n < t) (hpos : o + 2 * count < 2 ^ 30)
    (hB : ∀ i, n ≤ i → i < count → B ((o + i) / blkSize)) (hown : s.fs.Own s.file.inode B)
    (hint : int32 s.file.offset = s.file.offset) (horigin : Origin s.fs.mm l buf (count - n) pa)
    (hns : (fileWriteLoop count (o + count) t (o + n : Nat) diskno buf s).state.starved = false) :
    (count < movedFrom o count t n ∧
      ∃ s', fileWriteLoop count (o + count) t (o + n : Nat) diskno buf s = .fault s') ∨
    ∃ s' l', fileWriteLoop count (o + count) t (o + n : Nat) diskno buf s = .ok (count : Int) s' ∧
      Wrote s l s' l' (count - n) (movedFrom o count t n - n) pa
        fun i => s.fs.fileAddr s.file.inode (o + n + i) := by
  induction t generalizing s l n diskno buf pa with
  | zero => exact absurd ht (Nat.not_lt_zero _)
  | succ t ih =>
    by_cases hlt : n < count
    · have hcpos := chunk_pos (o := o) hlt
      have hccount : chunk (o + n) count ≤ count := Nat.min_le_right _ _
      have hBn := hB n (Nat.le_refl n) hlt
      obtain ⟨c, hc⟩ : ∃ c, c = chunk (o + n) count := ⟨_, rfl⟩
      have hroom : (o + n) % blkSize + c ≤ blkSize := by
        have := chunk_le (o + n) count
        have := Nat.mod_lt (o + n) (by decide : 0 < blkSize)
        omega
      have hturn := fileWriteLoop_turn (k := min c (count - n)) t diskno hl hn hp
        (by omega : o + n < o + count) (by omega) (hown.there _ hBn)
        (by rw [hc]; exact Nat.min_le_left _ _) (horigin.first (Nat.min_le_right _ _)) hns
      rw [movedFrom_succ hlt]
      rw [← hc] at hturn hcpos hccount ⊢
      have haddr : ∀ f : Fs, f.blockNo s.file.inode ((o + n) / blkSize) =
          s.fs.blockNo s.file.inode ((o + n) / blkSize) → ∀ i, i < c →
          blkSize * s.fs.blockNo s.file.inode ((o + n) / blkSize) + ((o + n) % blkSize + i) =
            f.fileAddr s.file.inode (o + n + i) := fun f hf i hi => by
        obtain ⟨h1, h2⟩ := chunk_block (hc ▸ hi : i < chunk (o + n) count)
        rw [Fs.fileAddr, h1, h2, hf]
      by_cases hmore : n + c ≤ count
      · rw [Nat.min_eq_left (by omega)] at hturn
        obtain ⟨s', l', d, hw, hrun⟩ := hturn.resolve_left fun h => h.1 rfl
        have hinode : s'.file.inode = s.file.inode := by rw [hw.file]
        have hown' := hw.own hp hown hBn hroom
        have hsame := fun {b'} => hw.blockNo hp hown hBn hroom b'
        rw [hrun] at hns ⊢
        rw [Nat.add_assoc] at hns ⊢
        have hrest := ih d hw.free (by rw [hw.npages]; exact hn)
          (by rw [hinode]; exact hp.mono hw.sub) hmore (by omega)
          (fun i hi hi' => hB i (by omega) hi') (by rw [hinode]; exact hown')
          (by rw [hw.file]; unfold int32; exact Int.bmod_bmod)
          (horigin.rest (by omega) hw.sub hw.cr3 hw.mem) hns
        refine hrest.imp (fun h => h) ?_
        rintro ⟨s'', l'', hrun', hw'⟩
        refine ⟨s'', l'', hrun', ?_⟩
        have hmoved : n + c ≤ movedFrom o count t (n + c) := le_movedFrom
        have hcount : count ≤ movedFrom o count t (n + c) := count_le_movedFrom (by omega)
        have hBm : ∀ i, i < movedFrom o count t (n + c) - (n + c) →
            B ((o + n + (i + c)) / blkSize) := by
          intro i hi
          obtain ⟨j, h3, h4, h5⟩ := movedFrom_block (by omega : n + c ≤ n + (i + c))
            (by omega : n + (i + c) < movedFrom o count t (n + c))
          rw [Nat.add_assoc, h5]
          exact hB j (by omega) h4
        have hBc : ∀ i, i < c → B ((o + n + i) / blkSize) := by
          intro i hi
          rw [(chunk_block (hc ▸ hi : i < chunk (o + n) count)).1]
          exact hBn
        have hnew := (hw.congr _ (Nat.le_refl c) fun i hi => (haddr s.fs rfl i hi).symm).trans
          (hw'.congr (fun i => s.fs.fileAddr s.file.inode (o + n + (i + c))) (by omega)
            fun i hi => by
              rw [Fs.fileAddr, Fs.fileAddr, hinode,
                show o + (n + c) + i = o + n + (i + c) by omega, hsame (hBm i hi)])
          (fun i j hi hj h => by
            have := hown.addr_inj (hBc i hi) (hBm j hj) h
            omega)
          (fun i hi => horigin.out i (by omega))
        rwa [show c + (count - (n + c)) = count - n by omega,
          show c + (movedFrom o count t (n + c) - (n + c)) = movedFrom o count t (n + c) - n by
            omega] at hnew
      · rw [Nat.min_eq_right (by omega)] at hturn
        rw [movedFrom_end (by omega)]
        rcases hturn with ⟨-, hfault⟩ | ⟨s', l', d, hw, hrun⟩
        · exact .inl ⟨by omega, hfault⟩
        · refine .inr ⟨s', l', ?_, ?_⟩
          · rw [hrun]
            cases t with
            | zero => omega
            | succ t =>
              rw [fileWriteLoop_end _ _ _ _ _ _ (by omega) (by omega), int32_nat (by omega)]
          · rw [Nat.add_sub_cancel_left]
            exact hw.congr _ (by omega) fun i hi => (haddr s.fs rfl i hi).symm
    · have heq : n = count := Nat.le_antisymm hle (Nat.not_lt.mp hlt)
      refine .inr ⟨s, l, ?_, ?_⟩
      · rw [fileWriteLoop_end _ _ _ _ _ _ (by omega) (by omega), int32_nat (by omega)]
      · rw [movedFrom_end hlt, heq, Nat.sub_self]
        refine ⟨hl, fun _ hf => hf, rfl, rfl, rfl, fun _ _ => rfl,
          fun i hi => absurd hi (Nat.not_lt_zero i), fun _ _ => rfl, ?_⟩
        rw [Nat.cast_zero, Int.add_zero, hint]

/-- A turn takes a frame more than what follows it. -/
theorem fileWriteStore_spends {stop t k pos ptr : Nat} {diskno : Option Nat}
    (h : Spends (fun s : FileSt => s.fs.mm) k (fileWriteLoop count stop t
      (int32 ((pos : Int) + chunk pos count)) diskno (buf + chunk pos count))) :
    Spends (fun s : FileSt => s.fs.mm) (1 + k)
      (fileWriteStore count stop t pos buf diskno ptr) :=
  Spends.next (Spends.fileFs (Spends.fsMm (Spends.load 2 ptr))) fun no =>
    Spends.bind (Spends.fileFs (Spends.bread no)) fun pbuf =>
    Spends.next (Spends.fileFs (Spends.fsMm (Spends.memcpy _ buf _))) fun _ =>
    Spends.next (Spends.fileFs (Spends.fsMm (Spends.load 2 ptr))) fun _ =>
    Spends.next (Spends.fileFs (Spends.diskOut pbuf _ _)) fun _ =>
    Spends.next (Spends.modify fun _ => rfl) fun _ => h

theorem fileWriteAt_spends {stop t k pos : Nat} {diskno : Option Nat}
    (h : Spends (fun s : FileSt => s.fs.mm) k (fileWriteLoop count stop t
      (int32 ((pos : Int) + chunk pos count)) diskno (buf + chunk pos count))) :
    Spends (fun s : FileSt => s.fs.mm) (1 + k) (fileWriteAt count stop t pos buf diskno) := by
  refine Spends.next (Spends.deref diskno) fun ptr =>
    Spends.next (Spends.fileFs (Spends.fsMm (Spends.load 2 ptr))) fun no => ?_
  show Spends _ _ (if _ then _ else _)
  split
  · refine Spends.next (Spends.fileFs Spends.getBlk) fun bno => ?_
    show Spends _ _ (if _ then _ else _)
    split
    · exact (Spends.pure _).mono (Nat.zero_le _)
    · exact Spends.next (Spends.fileFs (Spends.fsMm (Spends.store 2 ptr _))) fun _ =>
        fileWriteStore_spends h
  · exact fileWriteStore_spends h

/-- The blocks from `pos` to `stop`. -/
def spans (pos stop : Nat) : Nat :=
  if pos < stop then (stop - 1) / blkSize + 1 - pos / blkSize else 0

/-- The frames for the blocks from `pos` to `stop`: those from the tenth on take another. -/
def framesOver (pos stop : Nat) : Nat := spans pos stop + spans (max pos (10 * blkSize)) stop

/-- A turn leaves a block less. -/
theorem spans_chunk {stop : Nat} (hlt : n < stop) (hstop : stop ≤ n + count) :
    spans (n + chunk n count) stop + 1 ≤ spans n stop := by
  unfold spans chunk
  rw [if_pos hlt]
  unfold blkSize
  split <;> omega

theorem framesOver_chunk {stop : Nat} (hlt : n < stop) (hstop : stop ≤ n + count) :
    framesFor (n / blkSize) + framesOver (n + chunk n count) stop ≤ framesOver n stop := by
  have hblocks := spans_chunk hlt hstop
  unfold framesFor framesOver
  by_cases hb : n / blkSize < 10
  · -- the chunk ends before the tenth block
    have hsame : spans (max (n + chunk n count) (10 * blkSize)) stop ≤
        spans (max n (10 * blkSize)) stop := by
      have hmax : max (n + chunk n count) (10 * blkSize) = max n (10 * blkSize) := by
        have hchunk : chunk n count ≤ blkSize - n % blkSize := Nat.min_le_left _ _
        unfold blkSize at *
        omega
      rw [hmax]
    rw [if_pos hb]
    omega
  · have hmax : ∀ x, n ≤ x → max x (10 * blkSize) = x := by
      intro x hx
      unfold blkSize at *
      omega
    rw [if_neg hb, hmax _ (Nat.le_add_right _ _), hmax n (Nat.le_refl n)]
    omega

/-- Past the end nothing is taken. -/
theorem fileWriteLoop_end_spends {stop : Nat} (t : Nat) (diskno : Option Nat) (h : ¬ n < stop)
    (hpos : n < 2 ^ 31) :
    Spends (fun s : FileSt => s.fs.mm) 0 (fileWriteLoop count stop t n diskno buf) := by
  cases t with
  | zero => exact Spends.stop
  | succ t =>
    intro s
    rw [fileWriteLoop_end count stop t n buf diskno h hpos]
    exact Spends.of_same rfl rfl rfl rfl

/-- A call takes a frame for each block, and another for each that an indirect block names. -/
theorem fileWriteLoop_spends {stop : Nat} (t : Nat) (diskno : Option Nat)
    (hpos : stop + count < 2 ^ 31) (hn : n < 2 ^ 31) (hstop : stop ≤ n + count) :
    Spends (fun s : FileSt => s.fs.mm) (framesOver n stop)
      (fileWriteLoop count stop t n diskno buf) := by
  induction t generalizing n diskno buf with
  | zero => exact Spends.stop.mono (Nat.zero_le _)
  | succ t ih =>
    intro s
    by_cases hlt : n < stop
    · have hc' : chunk n count ≤ count := Nat.min_le_right _ _
      have hover := framesOver_chunk hlt hstop
      have hat : ∀ d, Spends (fun s : FileSt => s.fs.mm) (1 + framesOver (n + chunk n count) stop)
          (fileWriteAt count stop t n buf d) := fun d => by
        refine fileWriteAt_spends ?_
        rw [← Nat.cast_add, int32_nat (by omega)]
        exact ih d (by omega) (by omega)
      have hsum : framesFor (n / blkSize) - 1 + (1 + framesOver (n + chunk n count) stop) ≤
          framesOver n stop := by
        have hone := framesFor_split (n / blkSize)
        omega
      rw [fileWriteLoop_succ count stop t n buf diskno hlt hn]
      exact (Spends.bind (Spends.fileFs (walkBlock_spends s.file.inode _ diskno 1))
        fun r => hat r.2).mono hsum s
    · exact (fileWriteLoop_end_spends (t + 1) diskno hlt hn).mono (Nat.zero_le _) s

/-- What `file_write` comes to, on blocks of its own: it moves whole chunks, and
where that is more than it was asked for, the buffer may end before it is done. -/
theorem fileWrite_run (hl : FreeList s.fs.mm l) (hn : s.fs.mm.npages ≤ 2 ^ 19)
    (hp : Kept l s.file.inode inodeSize) (hint : int32 s.file.offset = s.file.offset)
    (ho : s.file.offset = o) (hpos : o + 2 * count < 2 ^ 30)
    (hB : ∀ i, i < count → B ((o + i) / blkSize)) (hown : s.fs.Own s.file.inode B)
    (horigin : Origin s.fs.mm l buf count pa)
    (hns : (fileWrite buf count s).state.starved = false) :
    (count < moved o count ∧ ∃ s', fileWrite buf count s = .fault s') ∨
    ∃ s' l', fileWrite buf count s = .ok (count : Int) s' ∧
      Wrote s l s' l' count (moved o count) pa fun i => s.fs.fileAddr s.file.inode (o + i) := by
  have hrun : fileWrite buf count s =
      fileWriteLoop count (o + count) (2 ^ 32) (o + 0 : Nat) none buf s := by
    have hzero : o + 0 = o := rfl
    unfold fileWrite
    rw [Act.gets_bind_apply, ho, ← Nat.cast_add, u32_nat (by omega), hzero]
  have hmoved : movedFrom o count (2 ^ 32) 0 = moved o count := by
    rw [moved]
    exact movedFrom_congr (by omega) (by omega)
  rw [hrun] at hns
  have hall := fileWriteLoop_run (2 ^ 32) none hl hn hp (Nat.zero_le _) (by omega) hpos
    (fun i _ hi => hB i hi) hown hint horigin hns
  rw [hmoved, ← hrun] at hall
  exact hall

/-- A call that moves more than it was asked for shows in the offset. -/
theorem Wrote.not_past {s' : FileSt} {l' l'' : List Nat} {addr addr' : Nat → Nat}
    (hw : Wrote s l s' l' count count pa addr)
    (hw' : Wrote s l s' l'' count (moved o count) pa addr') (ho : s.file.offset = o)
    (hpos : o + 2 * count < 2 ^ 30) : moved o count = count := by
  have hoff : int32 (s.file.offset + count) = int32 (s.file.offset + (moved o count : Nat)) :=
    congrArg File.offset (hw.file.symm.trans hw'.file)
  have hle : moved o count ≤ 2 * count := movedFrom_le (Nat.zero_le _)
  have hsmall : o + count < 2 ^ 31 ∧ o + moved o count < 2 ^ 31 := by
    clear hoff
    omega
  rw [ho, ← Nat.cast_add, ← Nat.cast_add, int32_nat hsmall.1, int32_nat hsmall.2] at hoff
  omega

/-- A write of no bytes does nothing. -/
theorem fileWrite_zero (buf : Nat) (s : FileSt) : fileWrite buf 0 s = .ok 0 s := by
  unfold fileWrite
  obtain ⟨t, ht⟩ : ∃ t, (2 : Nat) ^ 32 = t + 1 := ⟨2 ^ 32 - 1, by decide⟩
  rw [Act.gets_bind_apply, Nat.cast_zero, Int.add_zero, ht, fileWriteLoop,
    if_neg (Nat.lt_irrefl _)]
  rfl

/-- THE RANGE: where the blocks of `[offset, offset + count)` are direct and there,
`file_write` writes the buffer there and nothing else, just if the call is whole. -/
theorem file_write_range (hl : FreeList s.fs.mm l) (hn : s.fs.mm.npages ≤ 2 ^ 19)
    (hp : Kept l s.file.inode inodeSize) (hint : int32 s.file.offset = s.file.offset)
    (hblocks : ∀ i : Nat, i < count → ∃ x : Nat, s.file.offset + i = x ∧ x / blkSize < 10 ∧
      s.fs.blockNo s.file.inode (x / blkSize) ≠ 0)
    (hdistinct : ∀ b b', b < 10 → b' < 10 → s.fs.blockNo s.file.inode b ≠ 0 →
      s.fs.blockNo s.file.inode b = s.fs.blockNo s.file.inode b' → b = b')
    (horigin : Origin s.fs.mm l buf count pa)
    (hns : (fileWrite buf count s).state.starved = false) :
    (∃ s' l', fileWrite buf count s = .ok (count : Int) s' ∧
      Wrote s l s' l' count count pa
        fun i => s.fs.fileAddr s.file.inode (s.file.offset.toNat + i)) ↔
      Whole s.file.offset count := by
  rcases Nat.eq_zero_or_pos count with rfl | hcount
  · refine ⟨fun _ => .inl ?_, fun _ => ⟨s, l, fileWrite_zero buf s, hl, fun _ hf => hf, rfl, rfl, rfl,
      fun _ _ => rfl, fun i hi => absurd hi (Nat.not_lt_zero i), fun _ _ => rfl, ?_⟩⟩
    · have : s.file.offset % blkSize < blkSize := Int.emod_lt_of_pos _ (by decide)
      omega
    · rw [Nat.cast_zero, Int.add_zero, hint]
  · obtain ⟨o, ho, -⟩ := hblocks 0 hcount
    rw [Nat.cast_zero, Int.add_zero] at ho
    obtain ⟨x, hx, hlast, -⟩ := hblocks (count - 1) (by omega)
    have hpos : o + 2 * count < 2 ^ 30 := by
      unfold blkSize at hlast
      omega
    have hB : ∀ i, i < count → (o + i) / blkSize < 10 ∧
        s.fs.blockNo s.file.inode ((o + i) / blkSize) ≠ 0 := by
      intro i hi
      obtain ⟨y, hy, hlow, hno⟩ := hblocks i hi
      have : y = o + i := by omega
      exact this ▸ ⟨hlow, hno⟩
    have hown : s.fs.Own s.file.inode fun b => b < 10 ∧ s.fs.blockNo s.file.inode b ≠ 0 :=
      ⟨fun b hb => hb.2, fun b b' hb hb' heq => hdistinct b b' hb.1 hb'.1 hb.2 heq,
        fun b b' _ hb' hle => absurd hb'.1 (Nat.not_lt.mpr hle)⟩
    have hall := fileWrite_run hl hn hp hint ho hpos hB hown horigin hns
    rw [ho, whole_nat, ← moved_eq_iff, Int.toNat_natCast]
    constructor
    · rintro ⟨s', l', hok, hw⟩
      rcases hall with ⟨-, s₁, hfault⟩ | ⟨s₁, l₁, hok₁, hw₁⟩
      · rw [hok] at hfault
        cases hfault
      · rw [hok] at hok₁
        injection hok₁ with _ hs
        subst hs
        exact hw.not_past hw₁ ho hpos
    · intro heq
      rw [heq] at hall
      rcases hall with ⟨hlt, -⟩ | h
      · exact absurd hlt (Nat.lt_irrefl _)
      · exact h

end Run

/-! ## At the sample file -/

theorem sampleFile_origin {n : Nat} (hn : n ≤ pageSize) :
    Origin sampleFile.fs.mm [8, 9, 10, 11, 12, 13, 14, 15] (frameVa 3) n fun i => pageSize * 3 + i :=
  ⟨fun m _ i hi => Mm.kpa_frameVa (by decide) (by omega), (sampleFile_target hn).out⟩

theorem sampleFile_distinct (b b' : Nat) (hb : b < 10) (hb' : b' < 10)
    (hno : sampleFile.fs.blockNo sampleFile.file.inode b ≠ 0)
    (heq : sampleFile.fs.blockNo sampleFile.file.inode b =
      sampleFile.fs.blockNo sampleFile.file.inode b') : b = b' := by
  have hslot : ∀ i, sampleFile.fs.slot sampleFile.file.inode i =
      Mem.rd 2 sampleInode (pageSize * 1 + blockOff + 2 * i) := fun i => by
    have hsub := sampleFile_inode
    have hlo := sampleFile_kept.lo
    unfold Fs.slot blockSlot
    rw [show sampleFile.file.inode + blockOff + 2 * i - kbase =
      pageSize * 1 + blockOff + 2 * i by omega]
    rfl
  have hall : ∀ b, b < 10 → ∀ b', b' < 10 →
      Mem.rd 2 sampleInode (pageSize * 1 + blockOff + 2 * b) ≠ 0 →
      Mem.rd 2 sampleInode (pageSize * 1 + blockOff + 2 * b) =
        Mem.rd 2 sampleInode (pageSize * 1 + blockOff + 2 * b') → b = b' := by decide
  rw [Fs.blockNo, if_pos hb, hslot] at hno heq
  rw [Fs.blockNo, if_pos hb', hslot] at heq
  exact hall b hb b' hb' hno heq

theorem sampleFile_accepts {n : Nat} (hn : n ≤ 4) (hpos : 0 < n) :
    (fileWrite (frameVa 3) n sampleFile).state.starved = false := by
  have hspends : Spends (fun s : FileSt => s.fs.mm) (framesOver 4094 (4094 + n))
      (fileWriteLoop n (4094 + n) (2 ^ 32) (4094 : Nat) none (frameVa 3)) :=
    fileWriteLoop_spends _ none (by omega) (by omega) (by omega)
  have hroom : framesOver 4094 (4094 + n) ≤ 8 := by
    unfold framesOver spans blkSize
    split <;> split <;> omega
  have hrun : fileWrite (frameVa 3) n sampleFile =
      fileWriteLoop n (4094 + n) (2 ^ 32) (4094 : Nat) none (frameVa 3) sampleFile := by
    unfold fileWrite
    rw [Act.gets_bind_apply, show sampleFile.file.offset = ((4094 : Nat) : Int) from rfl,
      ← Nat.cast_add, u32_nat (by omega)]
  rw [hrun]
  exact (hspends sampleFile _ sampleFile_list (by decide) hroom rfl).1

/-- Three bytes at 4094: five are moved, and the offset goes with them. -/
theorem file_write_past : ¬ ∃ s' l', fileWrite (frameVa 3) 3 sampleFile = .ok ((3 : Nat) : Int) s' ∧
    Wrote sampleFile [8, 9, 10, 11, 12, 13, 14, 15] s' l' 3 3 (fun i => pageSize * 3 + i)
      fun i => sampleFile.fs.fileAddr sampleFile.file.inode (sampleFile.file.offset.toNat + i) := by
  rintro ⟨s', l', hok, hw⟩
  have ho : sampleFile.file.offset = (4094 : Nat) := rfl
  have hown : sampleFile.fs.Own sampleFile.file.inode
      fun b => b < 10 ∧ sampleFile.fs.blockNo sampleFile.file.inode b ≠ 0 :=
    ⟨fun b hb => hb.2, fun b b' hb hb' heq => sampleFile_distinct b b' hb.1 hb'.1 hb.2 heq,
      fun b b' _ hb' hle => absurd hb'.1 (Nat.not_lt.mpr hle)⟩
  rcases fileWrite_run (l := [8, 9, 10, 11, 12, 13, 14, 15]) sampleFile_list (by decide) sampleFile_kept (by decide) ho
    (by decide : 4094 + 2 * 3 < 2 ^ 30) (fun i hi => by
      obtain ⟨x, hx, -, hno⟩ := sampleFile_blocks (n := 3) (by decide) i hi
      have : x = 4094 + i := by omega
      subst this
      exact ⟨by unfold blkSize; omega, hno⟩) hown (sampleFile_origin (by decide))
    (sampleFile_accepts (by decide) (by decide)) with ⟨-, s₁, hfault⟩ | ⟨s₁, l₁, hok₁, hw₁⟩
  · rw [hok] at hfault
    cases hfault
  · rw [hok] at hok₁
    injection hok₁ with _ hs
    subst hs
    have := hw.not_past hw₁ ho (by decide)
    exact absurd (moved_eq_iff.mp this) (by decide)

/-- The range at two bytes, which end the first block. -/
theorem file_write_range_end :
    ∃ s' l', fileWrite (frameVa 3) 2 sampleFile = .ok ((2 : Nat) : Int) s' ∧
      Wrote sampleFile [8, 9, 10, 11, 12, 13, 14, 15] s' l' 2 2 (fun i => pageSize * 3 + i)
        fun i => sampleFile.fs.fileAddr sampleFile.file.inode
          (sampleFile.file.offset.toNat + i) :=
  (file_write_range sampleFile_list (by decide) sampleFile_kept (by decide)
    (fun i hi => by
      obtain ⟨x, hx, -, hno⟩ := sampleFile_blocks (n := 2) (by decide) i hi
      exact ⟨x, hx, by unfold blkSize; omega, hno⟩)
    sampleFile_distinct (sampleFile_origin (by decide))
    (sampleFile_accepts (by decide) (by decide))).mpr (by decide)

end Myos.Kernel
