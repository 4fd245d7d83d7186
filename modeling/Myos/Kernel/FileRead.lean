import Myos.Kernel.Blocks

/-!
# Reading a file

`file_read` against the bytes of a file. The loop goes from block to block and
clips a chunk to the rest of the block and to `count`, where `count - n` is
what is still wanted. A call is exact, then, when it ends inside its first
block or at the end of a block (`Whole`); any other call goes past the end of
what was asked for in its last chunk.

One turn of the loop is one lemma (`fileReadLoop_turn`), and the loop is had
from it by induction on what is still wanted.
-/

namespace Myos.Kernel

open Myos.Lib

/-! ## Arithmetic of a turn -/

/-- The chunk at a position: the rest of the block, and no more than `count`. -/
def chunk (pos count : Nat) : Nat := min (blkSize - pos % blkSize) count

/-- The calls that move as many bytes as they are asked for. -/
def Whole (offset : Int) (count : Nat) : Prop :=
  (count : Int) ≤ blkSize - offset % blkSize ∨ (blkSize : Int) ∣ offset + count

instance (offset : Int) (count : Nat) : Decidable (Whole offset count) :=
  inferInstanceAs (Decidable (_ ∨ _))

section Arith

variable {o n count : Nat}

theorem int32_nat {x : Nat} (h : x < 2 ^ 31) : int32 x = x :=
  int32_of_bounds (by omega) (by omega)

theorem u32_nat {x : Nat} (h : x < 2 ^ 32) : u32 x = x := by
  unfold u32
  omega

theorem tdiv_blkSize (x : Nat) : (x : Int).tdiv blkSize = (x / blkSize : Nat) :=
  (Int.ofNat_tdiv x blkSize).symm

theorem tmod_blkSize (x : Nat) : (x : Int).tmod blkSize = (x % blkSize : Nat) :=
  (Int.ofNat_tmod x blkSize).symm

theorem toNat_blkSize_sub (x : Nat) :
    ((blkSize : Int) - (x % blkSize : Nat)).toNat = blkSize - x % blkSize := by
  omega

theorem ptrAdd_frameVa {q x : Nat} (hq : q < 2 ^ 19) (hx : x < pageSize) :
    ptrAdd (frameVa q) x = frameVa q + x := by
  have hlt : frameVa q + x < 2 ^ 64 := by
    unfold frameVa kbase pageSize at *
    omega
  unfold ptrAdd
  omega

/-- Two advances of an offset are one. -/
theorem int32_advance (x : Int) (c d : Nat) :
    int32 (int32 (x + c) + d) = int32 (x + (c + d : Nat)) := by
  rw [int32_add, Nat.cast_add, Int.add_assoc]

theorem chunk_pos (h : n < count) : 0 < chunk (o + n) count := by
  unfold chunk blkSize
  omega

theorem chunk_le (o count : Nat) : chunk o count ≤ blkSize - o % blkSize := Nat.min_le_left _ _

/-- Positions of one chunk are in one block. -/
theorem chunk_block {i : Nat} (h : i < chunk o count) :
    (o + i) / blkSize = o / blkSize ∧ (o + i) % blkSize = o % blkSize + i := by
  unfold chunk blkSize at *
  omega

theorem whole_nat : Whole o count ↔ count ≤ blkSize - o % blkSize ∨ blkSize ∣ o + count := by
  have h1 : ((count : Int) ≤ blkSize - (o : Int) % blkSize) ↔ count ≤ blkSize - o % blkSize := by
    unfold blkSize
    omega
  have h2 : ((blkSize : Int) ∣ (o : Int) + count) ↔ blkSize ∣ o + count := by
    rw [← Nat.cast_add]
    exact Int.natCast_dvd_natCast
  unfold Whole
  rw [h1, h2]

/-- In a whole call the chunks come out even: a turn never goes past the end. -/
theorem chunk_fits (h : n = 0 ∧ count ≤ blkSize - o % blkSize ∨ blkSize ∣ o + count)
    (hn : n < count) : chunk (o + n) count ≤ count - n := by
  unfold chunk
  rcases h with ⟨rfl, hle⟩ | ⟨k, hk⟩
  · omega
  · unfold blkSize at *
    omega

/-- In any other call no turn ends where the call should. -/
theorem chunk_misses (h : ¬ (count ≤ blkSize - o % blkSize ∨ blkSize ∣ o + count)) (hn : n < count) :
    chunk (o + n) count ≠ count - n := by
  rw [not_or] at h
  obtain ⟨h1, h2⟩ := h
  unfold chunk
  unfold blkSize at *
  omega

end Arith

/-! ## Buffers -/

/-- The `n` addresses from `va` on lead to the bytes `pa`, and still do after
the code stored to places of `free`. -/
def Mm.Maps (s : Mm) (free : Nat → Prop) (va n : Nat) (pa : Nat → Nat) : Prop :=
  ∀ m : Mem, (∀ x, ¬ free x → m x = s.mem x) → ∀ i, i < n → (s.setMem m).kpa (va + i) = some (pa i)

/-- A buffer to store in: bytes of their own, in no free frame, that stay mapped
while they and the free frames are stored to. -/
structure Target (s : Mm) (l : List Nat) (buf n : Nat) (pa : Nat → Nat) : Prop where
  maps : s.Maps (fun x => x / pageSize ∈ l ∨ ∃ i, i < n ∧ x = pa i) buf n pa
  inj : ∀ i j, i < n → j < n → pa i = pa j → i = j
  out : ∀ i, i < n → pa i / pageSize ∉ l

/-- A buffer to load from: in no free frame, and mapped while these are stored to. -/
structure Origin (s : Mm) (l : List Nat) (buf n : Nat) (pa : Nat → Nat) : Prop where
  maps : s.Maps (fun x => x / pageSize ∈ l) buf n pa
  out : ∀ i, i < n → pa i / pageSize ∉ l

/-- The bytes `pa` are none of the `n` bytes of kernel memory from `va` on. -/
def Clear (va n : Nat) (pa : Nat → Nat) (k : Nat) : Prop :=
  ∀ i, i < k → pa i < va - kbase ∨ va - kbase + n ≤ pa i

/-- A translation depends on memory and on `cr3`. -/
theorem Mm.kpa_congr {s s' : Mm} {va : Nat} (hm : s'.mem = s.mem) (hc : s'.cr3 = s.cr3) :
    s'.kpa va = s.kpa va := by
  rw [Mm.kpa, Mm.kpa, hm, hc]

theorem Mm.Maps.weaken {s s' : Mm} {free free' : Nat → Prop} {va n o k : Nat} {pa : Nat → Nat}
    (h : s.Maps free va n pa) (hok : o + k ≤ n) (hc : s'.cr3 = s.cr3)
    (hfree : ∀ x, free' x → free x) (hm : ∀ x, ¬ free x → s'.mem x = s.mem x) :
    s'.Maps free' (va + o) k fun i => pa (i + o) := fun m hmem i hi => by
  have := h m (fun x hx => (hmem x fun hx' => hx (hfree x hx')).trans (hm x hx)) (i + o) (by omega)
  rw [Nat.add_assoc, Nat.add_comm o, ← this]
  exact Mm.kpa_congr rfl hc

theorem Target.rest {s s' : Mm} {l l' : List Nat} {buf n c k : Nat} {pa : Nat → Nat}
    (h : Target s l buf n pa) (hck : c + k ≤ n) (hl : ∀ f, f ∈ l' → f ∈ l) (hc : s'.cr3 = s.cr3)
    (hm : ∀ x, x / pageSize ∉ l → (∀ i, i < c → x ≠ pa i) → s'.mem x = s.mem x) :
    Target s' l' (buf + c) k fun i => pa (i + c) := by
  refine ⟨h.maps.weaken hck hc ?_ fun x hx => ?_, fun i j hi hj hij => ?_, fun i hi hx => ?_⟩
  · rintro x (hx | ⟨i, hi, rfl⟩)
    · exact .inl (hl _ hx)
    · exact .inr ⟨i + c, by omega, rfl⟩
  · exact hm x (fun h' => hx (.inl h')) fun i hi h' => hx (.inr ⟨i, by omega, h'⟩)
  · have := h.inj (i + c) (j + c) (by omega) (by omega) hij
    omega
  · exact h.out (i + c) (by omega) (hl _ hx)

/-- The first bytes of a buffer are one. -/
theorem Target.first {s : Mm} {l : List Nat} {buf n c : Nat} {pa : Nat → Nat}
    (h : Target s l buf n pa) (hc : c ≤ n) : Target s l buf c pa := by
  have hrest : Target s l (buf + 0) c fun i => pa (i + 0) :=
    h.rest (by omega) (fun _ hf => hf) rfl fun _ _ _ => rfl
  exact hrest

theorem Origin.rest {s s' : Mm} {l l' : List Nat} {buf n c k : Nat} {pa : Nat → Nat}
    (h : Origin s l buf n pa) (hck : c + k ≤ n) (hl : ∀ f, f ∈ l' → f ∈ l) (hc : s'.cr3 = s.cr3)
    (hm : ∀ x, x / pageSize ∉ l → s'.mem x = s.mem x) :
    Origin s' l' (buf + c) k fun i => pa (i + c) :=
  ⟨h.maps.weaken hck hc (fun _ hx => hl _ hx) hm,
    fun i hi hx => h.out (i + c) (by omega) (hl _ hx)⟩

/-- The map of an inode depends on the disk and on the inode's own bytes. -/
theorem Fs.blockNo_congr {s s' : Fs} {p : Nat} (hp : kbase ≤ p) (hd : s'.disk = s.disk)
    (hm : ∀ x, p - kbase ≤ x → x < p - kbase + inodeSize → s'.mm.mem x = s.mm.mem x) (b : Nat) :
    s'.blockNo p b = s.blockNo p b := by
  have hslot : ∀ i, i ≤ 10 → s'.slot p i = s.slot p i := fun i hi =>
    Mem.rd_congr fun x h1 h2 => hm x (by unfold blockSlot blockOff at h1; omega)
      (by unfold blockSlot blockOff inodeSize at *; omega)
  unfold Fs.blockNo Fs.indirect
  rw [hd, hslot 10 (Nat.le_refl 10)]
  by_cases hb : b < 10
  · rw [if_pos hb, if_pos hb, hslot b (Nat.le_of_lt hb)]
  · rw [if_neg hb, if_neg hb]

/-! ## Reading -/

section Reading

theorem fileReadLoop_starves (count : Nat) (offset : Int) (t n : Nat) (diskno : Option Nat)
    (buf : Nat) :
    Act.Within (Act.Raises FileSt.starved) (fileReadLoop count offset t n diskno buf) := by
  induction t generalizing n diskno buf with
  | zero => exact Act.Within.stop Act.Raises.refl
  | succ t ih =>
    unfold fileReadLoop
    split
    · refine Act.Raises.bind (Act.Raises.gets _) fun inode =>
        Act.Raises.bind (fileFs_starves (walkBlock_starves inode _ diskno 0)) fun r =>
        Act.Raises.bind (Act.Raises.deref r.2) fun ptr =>
        Act.Raises.bind (fileFs_starves (fsMm_starves (Starves.load 2 ptr))) fun no => ?_
      show Act.Within (Act.Raises FileSt.starved) (if _ then _ else _)
      split
      · exact Act.Raises.bind (fileFs_starves (bread_starves no)) fun blk =>
          Act.Raises.bind (fileFs_starves (fsMm_starves (Starves.memcpy buf _ _))) fun _ =>
          Act.Raises.bind (Act.Raises.modify fun _ => rfl) fun _ => ih _ r.2 _
      · exact Act.Raises.pure _
    · exact Act.Raises.pure _

/-- The rest of a turn of `file_read`, once the block is at `blk`. -/
def fileReadFrom (count : Nat) (offset : Int) (t n pos buf : Nat) (diskno : Option Nat)
    (blk : Nat) : Act FileSt Int := do
  fileFs (fsMm (memcpy buf (ptrAdd blk (pos % blkSize : Nat)) (chunk pos count)))
  Act.modify (FileSt.advance (chunk pos count))
  fileReadLoop count offset t ((n + chunk pos count) % 2 ^ 32) diskno (buf + chunk pos count)

theorem fileReadFrom_starves (count : Nat) (offset : Int) (t n pos buf : Nat)
    (diskno : Option Nat) (blk : Nat) : Act.Within (Act.Raises FileSt.starved)
      (fileReadFrom count offset t n pos buf diskno blk) :=
  Act.Raises.bind (fileFs_starves (fsMm_starves (Starves.memcpy buf _ _))) fun _ =>
    Act.Raises.bind (Act.Raises.modify fun _ => rfl) fun _ =>
      fileReadLoop_starves count offset t _ diskno _

/-- The rest of it, once `walk_block` returned. -/
def fileReadAt (count : Nat) (offset : Int) (t n pos buf : Nat) (diskno : Option Nat) :
    Act FileSt Int := do
  let ptr ← Act.deref diskno
  let no ← fileFs (fsMm (load 2 ptr))
  if no ≠ 0 then do fileReadFrom count offset t n pos buf diskno (← fileFs (bread no))
  else return -1

theorem fileReadAt_starves (count : Nat) (offset : Int) (t n pos buf : Nat) (diskno : Option Nat) :
    Act.Within (Act.Raises FileSt.starved) (fileReadAt count offset t n pos buf diskno) :=
  Act.Raises.bind (Act.Raises.deref diskno) fun ptr =>
    Act.Raises.bind (fileFs_starves (fsMm_starves (Starves.load 2 ptr))) fun no => by
      show Act.Within (Act.Raises FileSt.starved) (if _ then _ else _)
      split
      · exact Act.Raises.bind (fileFs_starves (bread_starves no)) fun blk =>
          fileReadFrom_starves count offset t n pos buf diskno blk
      · exact Act.Raises.pure _

theorem fileFs_ok {α : Type} {x : Act Fs α} {s : FileSt} {a : α} {f : Fs} (h : x s.fs = .ok a f) :
    fileFs x s = .ok a (FileSt.setFs f s) := Act.zoom_ok h

variable {s : FileSt} {l : List Nat} {count o n buf : Nat} {pa : Nat → Nat}

/-- A turn of `file_read`. -/
theorem fileReadLoop_succ (t : Nat) (diskno : Option Nat) (hlt : n < count)
    (hpos : o + n < 2 ^ 31) : fileReadLoop count o (t + 1) n diskno buf s =
      (fileFs (walkBlock s.file.inode ((o + n) / blkSize) diskno 0) >>= fun r =>
        fileReadAt count o t n (o + n) buf r.2) s := by
  have hfilepos : int32 ((o : Int) + n) = (o + n : Nat) := by
    rw [← Nat.cast_add, int32_nat hpos]
  have hdiv : (o + n) / blkSize < 2 ^ 32 :=
    Nat.lt_of_le_of_lt (Nat.div_le_self _ _) (by omega)
  rw [fileReadLoop, if_pos hlt, Act.gets_bind_apply]
  simp only [hfilepos, tdiv_blkSize, u32_nat hdiv, tmod_blkSize, toNat_blkSize_sub]
  rfl

/-- `c` bytes, `data`, were read to the bytes `pa`. -/
structure Reads (s : FileSt) (l : List Nat) (s' : FileSt) (l' : List Nat) (c : Nat)
    (pa : Nat → Nat) (data : Nat → UInt8) : Prop where
  free : FreeList s'.fs.mm l'
  sub : ∀ f, f ∈ l' → f ∈ l
  rest : s'.fs = Fs.setMm s'.fs.mm s.fs
  npages : s'.fs.mm.npages = s.fs.mm.npages
  cr3 : s'.fs.mm.cr3 = s.fs.mm.cr3
  bytes : ∀ i, i < c → s'.fs.mm.mem (pa i) = data i
  /-- Nothing else changed but free frames. -/
  mem : ∀ x, x / pageSize ∉ l → (∀ i, i < c → x ≠ pa i) → s'.fs.mm.mem x = s.fs.mm.mem x
  file : s'.file = { s.file with offset := int32 (s.file.offset + c) }

/-- The bytes of the open file, from `pos` on. -/
def FileSt.bytesFrom (s : FileSt) (pos : Nat) : Nat → UInt8 := fun i =>
  s.fs.fileByte s.file.inode (pos + i)

/-- The map is the same after a read to bytes that are none of the inode's. -/
theorem Reads.blockNo {s' : FileSt} {l' : List Nat} {c : Nat} {data : Nat → UInt8}
    (h : Reads s l s' l' c pa data) (hp : Kept l s.file.inode inodeSize)
    (hclear : Clear s.file.inode inodeSize pa c) (b : Nat) :
    s'.fs.blockNo s.file.inode b = s.fs.blockNo s.file.inode b := by
  refine Fs.blockNo_congr hp.lo (by rw [h.rest]; rfl) (fun x h1 h2 => ?_) b
  refine h.mem x (hp.out x h1 h2) fun i hi hx => ?_
  have := hclear i hi
  omega

/-- A read after frames were taken. -/
theorem Reads.after {s' : FileSt} {f : Fs} {l₁ l' : List Nat} {c : Nat} {data : Nat → UInt8}
    (htook : Took s.fs l f l₁) (h : Reads (FileSt.setFs f s) l₁ s' l' c pa data) :
    Reads s l s' l' c pa data := by
  refine ⟨h.free, fun g hg => htook.sub g (h.sub g hg), ?_, h.npages.trans htook.npages,
    h.cr3.trans htook.cr3, h.bytes, fun x hx hpa => ?_, h.file⟩
  · rw [h.rest]
    show Fs.setMm s'.fs.mm f = _
    rw [htook.rest]
    rfl
  · exact (h.mem x (fun hx' => hx (htook.sub _ hx')) hpa).trans (htook.mem x hx)

/-- One read of the file and the next. -/
theorem Reads.trans {s' s'' : FileSt} {l' l'' : List Nat} {c d pos : Nat}
    (h : Reads s l s' l' c pa (s.bytesFrom pos))
    (h' : Reads s' l' s'' l'' d (fun i => pa (i + c)) (s'.bytesFrom (pos + c)))
    (htarget : Target s.fs.mm l buf (c + d) pa) (hp : Kept l s.file.inode inodeSize)
    (hclear : Clear s.file.inode inodeSize pa (c + d)) :
    Reads s l s'' l'' (c + d) pa (s.bytesFrom pos) := by
  have hmap := h.blockNo hp fun i hi => hclear i (by omega)
  have hdisk : s'.fs.disk = s.fs.disk := by rw [h.rest]; rfl
  have hfile : s'.file.inode = s.file.inode := by rw [h.file]
  refine ⟨h'.free, fun f hf => h.sub f (h'.sub f hf), ?_, h'.npages.trans h.npages,
    h'.cr3.trans h.cr3, fun i hi => ?_, fun x hx hpa => ?_, ?_⟩
  · rw [h'.rest, h.rest]
    rfl
  · by_cases hc : i < c
    · rw [h'.mem _ (fun hx => htarget.out i hi (h.sub _ hx)) fun j hj hij => ?_, h.bytes i hc]
      have := htarget.inj i (j + c) hi (by omega) hij
      omega
    · have := h'.bytes (i - c) (by omega)
      rw [Nat.sub_add_cancel (by omega), FileSt.bytesFrom,
        show pos + c + (i - c) = pos + i by omega, hfile] at this
      rw [this, FileSt.bytesFrom, Fs.fileByte, Fs.fileByte, Fs.fileAddr, Fs.fileAddr, hmap, hdisk]
  · rw [h'.mem x (fun h' => hx (h.sub _ h')) fun i hi => hpa (i + c) (by omega),
      h.mem x hx fun i hi => hpa i (by omega)]
  · rw [h'.file, h.file, int32_advance]

/-- A turn of `file_read`, from the number of the block to the block in memory. -/
theorem fileReadAt_block {offset : Int} {pos no ptr : Nat} (t : Nat) (hl : FreeList s.fs.mm l)
    (hn : s.fs.mm.npages ≤ 2 ^ 19) (hload : fileFs (fsMm (load 2 ptr)) s = .ok no s)
    (hno : no ≠ 0)
    (hns : (fileReadAt count offset t n pos buf (some ptr) s).state.starved = false) :
    ∃ q l' f, l = q :: l' ∧ Took s.fs l f l' ∧ q < 2 ^ 19 ∧
      (∀ i, i < blkSize → f.mm.mem (pageSize * q + i) = s.fs.disk (blkSize * no + i)) ∧
      fileReadAt count offset t n pos buf (some ptr) s =
        fileReadFrom count offset t n pos buf (some ptr) (frameVa q) (FileSt.setFs f s) := by
  unfold fileReadAt at hns ⊢
  rw [Act.deref_bind_apply, Act.bind_ok hload, if_pos hno] at hns ⊢
  have hbread := Act.Raises.of_bind
    (fun blk => fileReadFrom_starves count offset t n pos buf (some ptr) blk) hns
  rw [fileFs, FileSt.starved, Act.zoom_state] at hbread
  obtain ⟨q, l', f, rfl, hrun, htook, hq, -, hbytes⟩ := bread_run hl hn hbread
  exact ⟨q, l', f, rfl, htook, hq, hbytes, Act.bind_ok (fileFs_ok hrun)⟩

/-- A turn of `file_read` from the number of the block on: the chunk is read. -/
theorem fileReadAt_run {offset : Int} {pos no ptr : Nat} (t : Nat) (hl : FreeList s.fs.mm l)
    (hn : s.fs.mm.npages ≤ 2 ^ 19) (hload : fileFs (fsMm (load 2 ptr)) s = .ok no s)
    (hno : no ≠ 0) (hcount : n + count < 2 ^ 32)
    (htarget : Target s.fs.mm l buf (chunk pos count) pa)
    (hns : (fileReadAt count offset t n pos buf (some ptr) s).state.starved = false) :
    ∃ s' l', Reads s l s' l' (chunk pos count) pa
        (fun i => s.fs.disk (blkSize * no + (pos % blkSize + i))) ∧
      fileReadAt count offset t n pos buf (some ptr) s =
        fileReadLoop count offset t (n + chunk pos count) (some ptr) (buf + chunk pos count) s' := by
  obtain ⟨q, l', f, rfl, htook, hq, hbytes, hrun⟩ := fileReadAt_block t hl hn hload hno hns
  obtain ⟨c, hc⟩ : ∃ c, c = chunk pos count := ⟨_, rfl⟩
  obtain ⟨d, hd⟩ : ∃ d, d = pos % blkSize := ⟨_, rfl⟩
  rw [← hc] at htarget ⊢
  rw [← hd]
  have hdlt : d < pageSize := by
    rw [hd]
    exact Nat.mod_lt _ (by decide)
  have hcle : d + c ≤ blkSize := by
    have := chunk_le pos count
    unfold pageSize at hdlt
    unfold blkSize at *
    omega
  have hapart : ∀ i j, i < c → j < c → pa i ≠ pageSize * q + d + j := by
    intro i j hi hj h
    refine htarget.out i hi ?_
    rw [h, show (pageSize * q + d + j) / pageSize = q by unfold pageSize blkSize at *; omega]
    exact List.mem_cons_self
  obtain ⟨m, hcopy, hin, hout⟩ := memcpy_scatter (s := f.mm) (n := c) buf (frameVa q + d) pa
    (fun i => pageSize * q + d + i)
    (fun m hm i hi => by
      refine ⟨?_, ?_⟩
      · rw [← htarget.maps m (fun x hx => ?_) i hi]
        · exact Mm.kpa_congr rfl htook.cr3
        · refine (hm x fun i hi h => hx (.inr ⟨i, hi, h⟩)).trans ?_
          exact htook.mem x fun h => hx (.inl h)
      · rw [Nat.add_assoc, Nat.add_assoc]
        refine Mm.kpa_frameVa (s := f.mm.setMem m) hq ?_
        unfold blkSize pageSize at *
        omega)
    htarget.inj hapart
  obtain ⟨s', hs'⟩ : ∃ s' : FileSt, s' = FileSt.advance c
      (FileSt.setFs (Fs.setMm (f.mm.setMem m) f) s) := ⟨_, rfl⟩
  have hrest : f = Fs.setMm f.mm s.fs := htook.rest
  refine ⟨s', l', ⟨?_, htook.sub, ?_, ?_, ?_, fun i hi => ?_, fun x hx hpa => ?_, ?_⟩, ?_⟩
  · rw [hs']
    exact htook.free.congr rfl rfl rfl
  · rw [hs', hrest]
    rfl
  · rw [hs']
    exact htook.npages
  · rw [hs']
    exact htook.cr3
  · rw [hs']
    refine (hin i hi).trans ?_
    rw [Nat.add_assoc, hbytes _ (by omega)]
  · rw [hs']
    exact (hout x hpa).trans (htook.mem x hx)
  · rw [hs']
    rfl
  · have hstep : fileFs (fsMm (memcpy buf (frameVa q + d) c))
        (FileSt.setFs f s) = .ok () (FileSt.setFs (Fs.setMm (f.mm.setMem m) f) s) :=
      fileFs_ok (fsMm_ok hcopy)
    have hmod : (n + c) % 2 ^ 32 = n + c := by
      have : c ≤ count := by rw [hc]; exact Nat.min_le_right _ _
      omega
    rw [hrun, fileReadFrom, ← hc, ← hd, ptrAdd_frameVa hq hdlt, Act.bind_ok hstep,
      Act.modify_bind_apply, hmod, ← hs']

/-- A turn of `file_read`, as far as the number of the block. -/
theorem fileReadLoop_entry (t : Nat) (diskno : Option Nat) (hl : FreeList s.fs.mm l)
    (hn : s.fs.mm.npages ≤ 2 ^ 19) (hp : Kept l s.file.inode inodeSize) (hlt : n < count)
    (hpos : o + n < 2 ^ 31)
    (hb : s.fs.Reaches s.file.inode ((o + n) / blkSize))
    (hns : (fileReadLoop count o (t + 1) n diskno buf s).state.starved = false) :
    ∃ ptr f l', Took s.fs l f l' ∧
      Entry f l' ptr (s.fs.blockNo s.file.inode ((o + n) / blkSize)) ∧
      fileReadLoop count o (t + 1) n diskno buf s =
        fileReadAt count o t n (o + n) buf (some ptr) (FileSt.setFs f s) := by
  rw [fileReadLoop_succ t diskno hlt hpos] at hns ⊢
  have hwalk := Act.Raises.of_bind
    (fun r : Int × Option Nat => fileReadAt_starves count o t n (o + n) buf r.2) hns
  rw [fileFs, FileSt.starved, Act.zoom_state] at hwalk
  obtain ⟨ptr, f, l', hrun, htook, hent⟩ := walkBlock_run hl hn hp diskno 0 hb hwalk
  exact ⟨ptr, f, l', htook, hent, Act.bind_ok (fileFs_ok hrun)⟩

/-- STEP: a turn of `file_read` reads a chunk. -/
theorem fileReadLoop_turn (t : Nat) (diskno : Option Nat) (hl : FreeList s.fs.mm l)
    (hn : s.fs.mm.npages ≤ 2 ^ 19) (hp : Kept l s.file.inode inodeSize) (hlt : n < count)
    (hpos : o + n + count < 2 ^ 31) (hb : s.fs.blockNo s.file.inode ((o + n) / blkSize) ≠ 0)
    (htarget : Target s.fs.mm l buf (chunk (o + n) count) pa)
    (hns : (fileReadLoop count o (t + 1) n diskno buf s).state.starved = false) :
    ∃ s' l' d, Reads s l s' l' (chunk (o + n) count) pa (s.bytesFrom (o + n)) ∧
      fileReadLoop count o (t + 1) n diskno buf s =
        fileReadLoop count o t (n + chunk (o + n) count) d (buf + chunk (o + n) count) s' := by
  obtain ⟨ptr, f, l₁, htook, hent, hrun⟩ :=
    fileReadLoop_entry t diskno hl hn hp hlt (by omega) (.of_blockNo hb) hns
  rw [hrun] at hns
  have htarget₁ : Target f.mm l₁ buf (chunk (o + n) count) pa :=
    htarget.rest (c := 0) (by omega) htook.sub htook.cr3 fun x hx _ => htook.mem x hx
  obtain ⟨s', l', hread, hrun'⟩ := fileReadAt_run (s := FileSt.setFs f s) t htook.free
    (by show f.mm.npages ≤ _; rw [htook.npages]; exact hn) (fileFs_ok hent.load) hb (by omega)
    htarget₁ hns
  refine ⟨s', l', some ptr, ?_, hrun.trans hrun'⟩
  have hread' := Reads.after htook hread
  refine ⟨hread'.free, hread'.sub, hread'.rest, hread'.npages, hread'.cr3, fun i hi => ?_,
    hread'.mem, hread'.file⟩
  obtain ⟨h1, h2⟩ := chunk_block hi
  rw [hread'.bytes i hi, FileSt.bytesFrom, Fs.fileByte, Fs.fileAddr, h1, h2]
  exact congrFun htook.disk _

/-- Nothing read yet. -/
theorem Reads.refl (hl : FreeList s.fs.mm l) (hint : int32 s.file.offset = s.file.offset)
    (data : Nat → UInt8) : Reads s l s l 0 pa data := by
  refine ⟨hl, fun _ hf => hf, rfl, rfl, rfl, fun i hi => absurd hi (Nat.not_lt_zero i),
    fun _ _ _ => rfl, ?_⟩
  rw [Nat.cast_zero, Int.add_zero, hint]

/-- The loop ends once there is nothing left. -/
theorem fileReadLoop_end (t : Nat) (offset : Int) (diskno : Option Nat) (h : ¬ n < count) :
    fileReadLoop count offset (t + 1) n diskno buf s = .ok (int32 n) s := by
  rw [fileReadLoop, if_neg h]
  rfl

/-- RUN: a whole call reads what is left, from `n` on. -/
theorem fileReadLoop_run (t : Nat) (diskno : Option Nat) (hl : FreeList s.fs.mm l)
    (hn : s.fs.mm.npages ≤ 2 ^ 19) (hp : Kept l s.file.inode inodeSize) (hle : n ≤ count)
    (ht : count - n < t) (hpos : o + count < 2 ^ 30)
    (hw : n = count ∨ n = 0 ∧ count ≤ blkSize - o % blkSize ∨ blkSize ∣ o + count)
    (hb : ∀ i, n ≤ i → i < count → s.fs.blockNo s.file.inode ((o + i) / blkSize) ≠ 0)
    (hint : int32 s.file.offset = s.file.offset) (htarget : Target s.fs.mm l buf (count - n) pa)
    (hclear : Clear s.file.inode inodeSize pa (count - n))
    (hns : (fileReadLoop count o t n diskno buf s).state.starved = false) :
    ∃ s' l', fileReadLoop count o t n diskno buf s = .ok (count : Int) s' ∧
      Reads s l s' l' (count - n) pa (s.bytesFrom (o + n)) := by
  induction t generalizing s l n diskno buf pa with
  | zero => exact absurd ht (Nat.not_lt_zero _)
  | succ t ih =>
    by_cases hlt : n < count
    · have hfit := chunk_fits (hw.resolve_left (Nat.ne_of_lt hlt)) hlt
      have hcpos := chunk_pos (o := o) hlt
      obtain ⟨s', l', d, hread, hrun⟩ := fileReadLoop_turn t diskno hl hn hp hlt (by omega)
        (hb n (Nat.le_refl n) hlt) (htarget.first (by omega)) hns
      obtain ⟨c, hc⟩ : ∃ c, c = chunk (o + n) count := ⟨_, rfl⟩
      rw [← hc] at hfit hcpos hread hrun
      have hinode : s'.file.inode = s.file.inode := by rw [hread.file]
      have hmap := hread.blockNo hp fun i hi => hclear i (by omega)
      have hsplit : count - n = c + (count - (n + c)) := by omega
      rw [hrun] at hns ⊢
      obtain ⟨s'', l'', hrun', hread'⟩ := ih d hread.free (by rw [hread.npages]; exact hn)
        (by rw [hinode]; exact hp.mono hread.sub) (by omega) (by omega)
        (by
          rcases hw with h | ⟨rfl, h⟩ | h
          · omega
          · refine .inl ?_
            rw [hc, Nat.zero_add, Nat.add_zero, chunk, Nat.min_eq_right h]
          · exact .inr (.inr h))
        (fun i hi hi' => by rw [hinode, hmap]; exact hb i (by omega) hi')
        (by rw [hread.file]; unfold int32; exact Int.bmod_bmod)
        (htarget.rest (by omega) hread.sub hread.cr3 hread.mem)
        (fun i hi => by rw [hinode]; exact hclear (i + c) (by omega)) hns
      refine ⟨s'', l'', hrun', ?_⟩
      rw [hsplit] at htarget hclear ⊢
      rw [← Nat.add_assoc] at hread'
      exact hread.trans hread' htarget hp hclear
    · have heq : n = count := Nat.le_antisymm hle (Nat.not_lt.mp hlt)
      rw [fileReadLoop_end t o diskno hlt, heq, int32_nat (by omega), Nat.sub_self]
      exact ⟨s, l, rfl, Reads.refl hl hint _⟩

/-- A chunk past the end of what was asked for ends the call, with another value. -/
theorem fileReadFrom_past (t : Nat) (diskno : Option Nat) (blk : Nat)
    (hpast : count < n + chunk (o + n) count) (hpos : n + count < 2 ^ 31) (s' : FileSt) :
    fileReadFrom count o (t + 1) n (o + n) buf diskno blk s ≠ .ok (count : Int) s' := by
  intro h
  obtain ⟨⟨⟩, s₁, -, h⟩ := Act.bind_eq_ok.mp h
  rw [Act.modify_bind_apply] at h
  have hc : chunk (o + n) count ≤ count := Nat.min_le_right _ _
  rw [Nat.mod_eq_of_lt (by omega), fileReadLoop_end t o diskno (by omega),
    int32_nat (by omega)] at h
  injection h with hval
  omega

/-- RUN: a call that is not whole does not return what it was asked for. -/
theorem fileReadLoop_misses (t : Nat) (diskno : Option Nat) (hl : FreeList s.fs.mm l)
    (hn : s.fs.mm.npages ≤ 2 ^ 19) (hp : Kept l s.file.inode inodeSize) (hlt : n < count)
    (ht : count - n < t) (hpos : o + count < 2 ^ 30)
    (hw : ¬ (count ≤ blkSize - o % blkSize ∨ blkSize ∣ o + count))
    (hb : ∀ i, n ≤ i → i < count → s.fs.blockNo s.file.inode ((o + i) / blkSize) ≠ 0)
    (htarget : Target s.fs.mm l buf (count - n) pa)
    (hclear : Clear s.file.inode inodeSize pa (count - n))
    (hns : (fileReadLoop count o t n diskno buf s).state.starved = false) (s₀ : FileSt) :
    fileReadLoop count o t n diskno buf s ≠ .ok (count : Int) s₀ := by
  induction t generalizing s l n diskno buf pa with
  | zero => exact absurd ht (Nat.not_lt_zero _)
  | succ t ih =>
    have hmiss := chunk_misses hw hlt
    have hcpos := chunk_pos (o := o) hlt
    rcases Nat.lt_or_gt_of_ne hmiss with hless | hmore
    · obtain ⟨s', l', d, hread, hrun⟩ := fileReadLoop_turn t diskno hl hn hp hlt (by omega)
        (hb n (Nat.le_refl n) hlt) (htarget.first (by omega)) hns
      obtain ⟨c, hc⟩ : ∃ c, c = chunk (o + n) count := ⟨_, rfl⟩
      rw [← hc] at hless hcpos hread hrun
      have hinode : s'.file.inode = s.file.inode := by rw [hread.file]
      have hmap := hread.blockNo hp fun i hi => hclear i (by omega)
      rw [hrun] at hns ⊢
      exact ih d hread.free (by rw [hread.npages]; exact hn)
        (by rw [hinode]; exact hp.mono hread.sub) (by omega) (by omega)
        (fun i hi hi' => by rw [hinode, hmap]; exact hb i (by omega) hi')
        (htarget.rest (by omega) hread.sub hread.cr3 hread.mem)
        (fun i hi => by rw [hinode]; exact hclear (i + c) (by omega)) hns
    · have hbn := hb n (Nat.le_refl n) hlt
      obtain ⟨ptr, f, l₁, htook, hent, hrun⟩ :=
        fileReadLoop_entry t diskno hl hn hp hlt (by omega) (.of_blockNo hbn) hns
      rw [hrun] at hns ⊢
      obtain ⟨q, l', f', -, -, -, -, hrun'⟩ := fileReadAt_block (s := FileSt.setFs f s) t htook.free
        (by show f.mm.npages ≤ _; rw [htook.npages]; exact hn) (fileFs_ok hent.load) hbn hns
      rw [hrun']
      cases t with
      | zero => omega
      | succ t => exact fileReadFrom_past t (some ptr) _ (by omega) (by omega) s₀

/-- THE SLICE: where the blocks of `[offset, offset + count)` are there, `file_read`
returns `count`, with exactly these bytes in the buffer, just if the call is whole. -/
theorem file_read_slice {offset : Int} (hl : FreeList s.fs.mm l) (hn : s.fs.mm.npages ≤ 2 ^ 19)
    (hp : Kept l s.file.inode inodeSize) (hint : int32 s.file.offset = s.file.offset)
    (hblocks : ∀ i : Nat, i < count → ∃ x : Nat, offset + i = x ∧ x / blkSize < 2058 ∧
      s.fs.blockNo s.file.inode (x / blkSize) ≠ 0)
    (htarget : Target s.fs.mm l buf count pa) (hclear : Clear s.file.inode inodeSize pa count)
    (hns : (fileRead buf count offset s).state.starved = false) :
    (∃ s' l', fileRead buf count offset s = .ok (count : Int) s' ∧
      Reads s l s' l' count pa (s.bytesFrom offset.toNat)) ↔ Whole offset count := by
  cases count with
  | zero =>
    have hread : fileRead buf 0 offset s = .ok ((0 : Nat) : Int) s :=
      fileReadLoop_end _ offset none (Nat.lt_irrefl 0)
    refine ⟨fun _ => .inl ?_, fun _ => ⟨s, l, hread, Reads.refl hl hint _⟩⟩
    have : offset % blkSize < blkSize := Int.emod_lt_of_pos _ (by decide)
    omega
  | succ k =>
    obtain ⟨o, ho, -⟩ := hblocks 0 (Nat.succ_pos k)
    rw [Nat.cast_zero, Int.add_zero] at ho
    subst ho
    obtain ⟨x, hx, hlast, -⟩ := hblocks k (Nat.lt_succ_self k)
    have hpos : o + (k + 1) < 2 ^ 30 := by
      unfold blkSize at hlast
      omega
    have hb : ∀ i, 0 ≤ i → i < k + 1 → s.fs.blockNo s.file.inode ((o + i) / blkSize) ≠ 0 := by
      intro i _ hi
      obtain ⟨y, hy, -, hno⟩ := hblocks i hi
      have : y = o + i := by omega
      exact this ▸ hno
    rw [whole_nat, Int.toNat_natCast]
    constructor
    · rintro ⟨s', l', hrun, -⟩
      by_contra hw
      exact fileReadLoop_misses (2 ^ 32) none hl hn hp (Nat.succ_pos k) (by omega) hpos hw hb
        htarget hclear hns s' hrun
    · intro hw
      exact fileReadLoop_run (2 ^ 32) none hl hn hp (Nat.zero_le _) (by omega) hpos
        (.inr (hw.imp (fun h => ⟨rfl, h⟩) id)) hb hint htarget hclear hns

/-- How many bytes a call for a block at most moves: what it is asked for, if it ends
inside its first block, and otherwise the rest of this block more. -/
def span (o count : Nat) : Nat :=
  if count ≤ blkSize - o % blkSize then count else blkSize - o % blkSize + count

/-- It is one chunk, or the rest of a block and a chunk more. -/
theorem span_cases (o : Nat) {count : Nat} (hcount : count ≤ blkSize) :
    span o count = count ∧ chunk (o + 0) count = count ∨
      ∃ c, 0 < c ∧ c < count ∧ span o count = c + count ∧ chunk (o + 0) count = c ∧
        chunk (o + c) count = count := by
  unfold span chunk
  by_cases hone : count ≤ blkSize - o % blkSize
  · exact .inl ⟨if_pos hone, Nat.min_eq_right hone⟩
  · refine .inr ⟨blkSize - o % blkSize, ?_, Nat.not_le.mp hone, if_neg hone, ?_, ?_⟩
    all_goals unfold blkSize at *; omega

/-- A call for a block at most, whole or not, reads what it moves. -/
theorem fileRead_span (hl : FreeList s.fs.mm l) (hn : s.fs.mm.npages ≤ 2 ^ 19)
    (hp : Kept l s.file.inode inodeSize) (hlt : 0 < count) (hcount : count ≤ blkSize)
    (hpos : o + count < 2 ^ 30)
    (hb : ∀ i, i < count → s.fs.blockNo s.file.inode ((o + i) / blkSize) ≠ 0)
    (htarget : Target s.fs.mm l buf (span o count) pa)
    (hclear : Clear s.file.inode inodeSize pa (span o count))
    (hns : (fileRead buf count o s).state.starved = false) :
    ∃ s' l', fileRead buf count o s = .ok (span o count : Int) s' ∧
      Reads s l s' l' (span o count) pa (s.bytesFrom o) := by
  obtain ⟨t, ht⟩ : ∃ t, t + 1 + 1 + 1 = 2 ^ 32 := ⟨2 ^ 32 - 3, by decide⟩
  rw [fileRead, ← ht] at hns ⊢
  rcases span_cases o hcount with ⟨hspan, hchunk⟩ | ⟨c, hc, hlt', hspan, hchunk, hnext⟩
  · rw [hspan] at htarget hclear ⊢
    obtain ⟨s₁, l₁, d, hread, hrun⟩ := fileReadLoop_turn (t + 1 + 1) none hl hn hp hlt
      (by omega) (hb 0 hlt) (by rw [hchunk]; exact htarget) hns
    rw [hchunk] at hread hrun
    rw [Nat.zero_add] at hrun
    refine ⟨s₁, l₁, ?_, hread⟩
    rw [hrun, fileReadLoop_end _ o d (Nat.lt_irrefl count), int32_nat (by omega)]
  · rw [hspan] at htarget hclear ⊢
    obtain ⟨s₁, l₁, d, hread, hrun⟩ := fileReadLoop_turn (t + 1 + 1) none hl hn hp hlt
      (by omega) (hb 0 hlt) (by rw [hchunk]; exact htarget.first (Nat.le_add_right c count)) hns
    rw [hchunk] at hread hrun
    rw [hrun] at hns ⊢
    have hinode : s₁.file.inode = s.file.inode := by rw [hread.file]
    have hmap := hread.blockNo hp fun i hi =>
      hclear i (Nat.lt_of_lt_of_le hi (Nat.le_add_right c count))
    have htarget₁ : Target s₁.fs.mm l₁ (buf + c) count fun i => pa (i + c) :=
      htarget.rest (Nat.le_refl _) hread.sub hread.cr3 hread.mem
    rw [Nat.zero_add] at hns ⊢
    obtain ⟨s₂, l₂, d', hread', hrun'⟩ := fileReadLoop_turn (t + 1) d hread.free
      (by rw [hread.npages]; exact hn) (by rw [hinode]; exact hp.mono hread.sub) hlt'
      (by omega) (by rw [hinode, hmap]; exact hb c hlt') (by rw [hnext]; exact htarget₁) hns
    rw [hnext] at hread' hrun'
    refine ⟨s₂, l₂, ?_, hread.trans hread' htarget hp hclear⟩
    rw [hrun', fileReadLoop_end _ o d' (by omega), int32_nat (by omega)]

/-- A turn takes a frame more than what follows it. -/
theorem fileReadAt_spends {offset : Int} {t k pos : Nat} {diskno : Option Nat}
    (h : Spends (fun s : FileSt => s.fs.mm) k (fileReadLoop count offset t
      ((n + chunk pos count) % 2 ^ 32) diskno (buf + chunk pos count))) :
    Spends (fun s : FileSt => s.fs.mm) (1 + k) (fileReadAt count offset t n pos buf diskno) := by
  refine Spends.next (Spends.deref diskno) fun ptr =>
    Spends.next (Spends.fileFs (Spends.fsMm (Spends.load 2 ptr))) fun no => ?_
  show Spends _ _ (if _ then _ else _)
  split
  · exact Spends.bind (Spends.fileFs (Spends.bread no)) fun blk =>
      Spends.next (Spends.fileFs (Spends.fsMm (Spends.memcpy buf _ _))) fun _ =>
      Spends.next (Spends.modify fun _ => rfl) fun _ => h
  · exact (Spends.pure _).mono (Nat.zero_le _)

/-- Past the end nothing is taken. -/
theorem fileReadLoop_end_spends (t : Nat) (offset : Int) (diskno : Option Nat) (h : ¬ n < count) :
    Spends (fun s : FileSt => s.fs.mm) 0 (fileReadLoop count offset t n diskno buf) := by
  cases t with
  | zero => exact Spends.stop
  | succ t =>
    intro s
    rw [fileReadLoop_end t offset diskno h]
    exact Spends.of_same rfl rfl rfl rfl

/-- A byte read takes two frames at most. -/
theorem fileReadLoop_spends {offset : Int} (t : Nat) (diskno : Option Nat) (hc : count < 2 ^ 31) :
    Spends (fun s : FileSt => s.fs.mm) (2 * (count - n))
      (fileReadLoop count offset t n diskno buf) := by
  induction t generalizing n diskno buf with
  | zero => exact Spends.stop.mono (Nat.zero_le _)
  | succ t ih =>
    by_cases hlt : n < count
    · have hsum : 2 * (count - n) = 1 + (1 + 2 * (count - n - 1)) := by omega
      -- a turn reads a byte at least, whatever the position is
      have hrest : ∀ (c d buf), 0 < c → c ≤ count → Spends (fun s : FileSt => s.fs.mm)
          (2 * (count - n - 1)) (fileReadLoop count offset t ((n + c) % 2 ^ 32) d buf) := by
        intro c d buf h1 h2
        rw [Nat.mod_eq_of_lt (by omega)]
        exact (ih d).mono (by omega)
      have hpos : ∀ pos : Int, 0 < (blkSize - pos.tmod blkSize).toNat := fun pos => by
        have htmod := Int.tmod_lt_of_pos pos (by decide : (0 : Int) < blkSize)
        omega
      rw [hsum, fileReadLoop, if_pos hlt]
      refine Spends.next (Spends.gets _) fun inode =>
        Spends.bind (Spends.fileFs (Spends.walkBlock inode _ diskno 0)) fun r =>
        Spends.next (Spends.deref r.2) fun ptr =>
        Spends.next (Spends.fileFs (Spends.fsMm (Spends.load 2 ptr))) fun no => ?_
      show Spends _ _ (if _ then _ else _)
      split
      · exact Spends.bind (Spends.fileFs (Spends.bread no)) fun blk =>
          Spends.next (Spends.fileFs (Spends.fsMm (Spends.memcpy buf _ _))) fun _ =>
          Spends.next (Spends.modify fun _ => rfl) fun _ =>
            hrest _ r.2 _ (Nat.lt_min.mpr ⟨hpos _, by omega⟩) (Nat.min_le_right _ _)
      · exact (Spends.pure _).mono (Nat.zero_le _)
    · exact (fileReadLoop_end_spends (t + 1) offset diskno hlt).mono (Nat.zero_le _)

/-- A call that ends inside its first block takes two frames at most. -/
theorem fileRead_one_spends (hpos : o + count < 2 ^ 31) (hone : count ≤ blkSize - o % blkSize) :
    Spends (fun s : FileSt => s.fs.mm) 2 (fileRead buf count o) := by
  intro s
  by_cases hlt : 0 < count
  · have hchunk : chunk (o + 0) count = count := Nat.min_eq_right hone
    have hat : ∀ d, Spends (fun s : FileSt => s.fs.mm) (1 + 0)
        (fileReadAt count o (2 ^ 32 - 1) 0 (o + 0) buf d) := fun d => by
      refine fileReadAt_spends ?_
      rw [hchunk, Nat.zero_add, Nat.mod_eq_of_lt (by omega)]
      exact fileReadLoop_end_spends _ o d (Nat.lt_irrefl count)
    rw [fileRead, show (2 : Nat) ^ 32 = 2 ^ 32 - 1 + 1 by decide,
      fileReadLoop_succ (2 ^ 32 - 1) none hlt (by omega : o + 0 < 2 ^ 31)]
    exact Spends.bind (Spends.fileFs (Spends.walkBlock s.file.inode _ none 0))
      (fun r => hat r.2) s
  · exact (fileReadLoop_end_spends (2 ^ 32) o none hlt).mono (Nat.zero_le _) s

end Reading

/-! ## A file to start from -/

/-- Frame 1 holds an inode whose first two blocks are the disk blocks 20 and 21. -/
def sampleInode : Mem :=
  Mem.wr 2 (Mem.wr 2 (fun _ => 0) (pageSize * 1 + blockOff) 20) (pageSize * 1 + blockOff + 2) 21

/-- Sixteen frames, those from 8 on free; the inode's file is open at position 4094. -/
def sampleFile : FileSt where
  fs := {
    mm := {
      mem := sampleInode
      pages := fun i => if i < 8 then { count := 1 } else
        { link := if i + 1 < 16 then some (i + 1) else none }
      phead := some 8
      npages := 16
      kusedMem := 0
      pagesVa := 0
      cr3 := 0
      starved := false }
    disk := fun x => UInt8.ofNat x
    sb := 0
    blkBitmap := 0
    inoBitmap := 0
    inoTable := frameVa 1 }
  file := { refcount := 1, offset := 4094, inode := frameVa 1, type := .file }

theorem sampleFile_list : FreeList sampleFile.fs.mm [8, 9, 10, 11, 12, 13, 14, 15] := by
  refine ⟨.cons (.cons (.cons (.cons (.cons (.cons (.cons (.cons .nil))))))), fun f => ?_⟩
  have hcount : sampleFile.fs.mm.count f = if f < 8 then 1 else 0 := by
    unfold Mm.count sampleFile
    dsimp only
    split <;> rfl
  have hn : sampleFile.fs.mm.npages = 16 := rfl
  rw [hcount, hn]
  simp only [List.mem_cons, List.not_mem_nil, or_false]
  split <;> omega

theorem sampleFile_inode : sampleFile.file.inode - kbase = pageSize * 1 := by
  unfold sampleFile frameVa
  dsimp only
  exact Nat.add_sub_cancel_left _ _

theorem sampleFile_kept :
    Kept [8, 9, 10, 11, 12, 13, 14, 15] sampleFile.file.inode inodeSize := by
  have hsub : sampleFile.file.inode - kbase = pageSize * 1 := sampleFile_inode
  refine ⟨Nat.le_add_right _ _, by rw [hsub]; decide, fun x h1 h2 => ?_⟩
  rw [hsub] at h1 h2
  simp only [List.mem_cons, List.not_mem_nil, or_false]
  unfold pageSize inodeSize at *
  omega

theorem sampleFile_slot : sampleFile.fs.slot sampleFile.file.inode 0 = 20 ∧
    sampleFile.fs.slot sampleFile.file.inode 1 = 21 := by
  have hsub : ∀ i, blockSlot sampleFile.file.inode i - kbase = pageSize * 1 + blockOff + 2 * i := by
    intro i
    unfold blockSlot
    rw [show sampleFile.file.inode = kbase + pageSize * 1 from rfl]
    omega
  unfold Fs.slot
  rw [hsub, hsub]
  decide

/-- The kernel's own page at frame 3 is a buffer. -/
theorem sampleFile_target {n : Nat} (hn : n ≤ pageSize) :
    Target sampleFile.fs.mm [8, 9, 10, 11, 12, 13, 14, 15] (frameVa 3) n fun i => pageSize * 3 + i := by
  refine ⟨fun m _ i hi => Mm.kpa_frameVa (by decide) (by omega), fun i j _ _ h => by omega,
    fun i hi => ?_⟩
  simp only [List.mem_cons, List.not_mem_nil, or_false]
  unfold pageSize at *
  omega

theorem sampleFile_clear {n : Nat} :
    Clear sampleFile.file.inode inodeSize (fun i => pageSize * 3 + i) n := by
  intro i _
  have hsub : sampleFile.file.inode - kbase = pageSize * 1 := sampleFile_inode
  show pageSize * 3 + i < _ ∨ _ ≤ pageSize * 3 + i
  rw [hsub]
  unfold pageSize inodeSize
  omega

theorem sampleFile_blocks {n : Nat} (hn : n ≤ pageSize) (i : Nat) (hi : i < n) : ∃ x : Nat,
    (4094 : Int) + i = x ∧ x / blkSize < 2058 ∧
      sampleFile.fs.blockNo sampleFile.file.inode (x / blkSize) ≠ 0 := by
  refine ⟨4094 + i, by omega, by unfold blkSize pageSize at *; omega, ?_⟩
  obtain ⟨h0, h1⟩ := sampleFile_slot
  have hb : (4094 + i) / blkSize = 0 ∨ (4094 + i) / blkSize = 1 := by
    unfold blkSize pageSize at *
    omega
  rcases hb with hb | hb
  · rw [hb, Fs.blockNo, if_pos (by decide), h0]
    decide
  · rw [hb, Fs.blockNo, if_pos (by decide), h1]
    decide

theorem sampleFile_serves {n : Nat} (hn : n ≤ 4) :
    (fileRead (frameVa 3) n 4094 sampleFile).state.starved = false := by
  have hspends : Spends (fun s : FileSt => s.fs.mm) (2 * (n - 0))
      (fileReadLoop n ((4094 : Nat) : Int) (2 ^ 32) 0 none (frameVa 3)) :=
    fileReadLoop_spends _ none (by omega)
  exact (hspends sampleFile _ sampleFile_list (by decide)
    (by show 2 * (n - 0) ≤ 8; omega) rfl).1

/-- Three bytes from 4094 on: two of the first block and three of the next. -/
theorem file_read_past : ¬ ∃ s' l', fileRead (frameVa 3) 3 4094 sampleFile = .ok ((3 : Nat) : Int) s' ∧
    Reads sampleFile [8, 9, 10, 11, 12, 13, 14, 15] s' l' 3 (fun i => pageSize * 3 + i)
      (sampleFile.bytesFrom 4094) := by
  rintro ⟨s', l', hrun, -⟩
  refine fileReadLoop_misses (o := 4094) (2 ^ 32) none sampleFile_list (by decide)
    sampleFile_kept (by decide) (by omega) (by omega) (by decide) (fun i _ hi => ?_)
    (sampleFile_target (by decide)) sampleFile_clear (sampleFile_serves (by decide)) s' hrun
  obtain ⟨x, hx, -, hno⟩ := sampleFile_blocks (n := 3) (by decide) i hi
  have : x = 4094 + i := by omega
  exact this ▸ hno

/-- The slice at two bytes, which end the first block. -/
theorem file_read_slice_end :
    ∃ s' l', fileRead (frameVa 3) 2 4094 sampleFile = .ok ((2 : Nat) : Int) s' ∧
      Reads sampleFile [8, 9, 10, 11, 12, 13, 14, 15] s' l' 2 (fun i => pageSize * 3 + i)
        (sampleFile.bytesFrom 4094) :=
  (file_read_slice sampleFile_list (by decide) sampleFile_kept (by decide)
    (sampleFile_blocks (by decide)) (sampleFile_target (by decide)) sampleFile_clear
    (sampleFile_serves (by decide))).mpr (by decide)

end Myos.Kernel
