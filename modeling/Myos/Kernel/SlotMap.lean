import Myos.Kernel.Leaks
import Myos.Kernel.Mounted

/-!
# The slots of an inode

The number of a block of a file is in one of the ten slots of the inode, or in one of the
2048 entries of its block of numbers (`slotOf`). `walk_block` hands out the place of the
number or a negative value for every block that has a slot; for the others it returns
nought and leaves the pointer alone. Its callers do not look at what it returned, so after a
negative value they follow whatever the pointer is (`mapRight_iff`).
-/

namespace Myos.Kernel

open Myos.Lib

/-- The slots of an inode: its own, and the entries of its block of numbers. -/
inductive Slot where
  | direct (i : Fin 10)
  | entry (k : Fin 2048)

/-- The slot of a block. -/
def slotOf (fileno : Nat) : Option Slot :=
  if h : fileno < 10 then some (.direct ⟨fileno, h⟩)
  else if h : fileno < 2058 then some (.entry ⟨fileno - 10, by omega⟩)
  else none

/-- What `walk_block` may end in: a negative value, or nought and the place of the slot of this
block. -/
inductive Slotted {σ : Type} (At : Slot → σ → Nat → Prop) (fileno : Nat) :
    Res σ (Int × Option Nat) → Prop
  | refused {r : Int} {d : Option Nat} {s : σ} : r < 0 → Slotted At fileno (.ok (r, d) s)
  | slot {q : Slot} {ptr : Nat} {s : σ} : slotOf fileno = some q → At q s ptr →
      Slotted At fileno (.ok (0, some ptr) s)

section Slots

variable {σ : Type} {At : Slot → σ → Nat → Prop} {b b' : Nat} {q : Slot} {d : Option Nat} {s : σ}

theorem slotOf_direct (h : b < 10) : slotOf b = some (.direct ⟨b, h⟩) := dif_pos h

theorem slotOf_entry (h : ¬ b < 10) (h' : b < 2058) :
    slotOf b = some (.entry ⟨b - 10, by omega⟩) := by
  rw [slotOf, dif_neg h, dif_pos h']

/-- Blocks behind the 2058th have none. -/
theorem slotOf_eq_none : slotOf b = none ↔ 2058 ≤ b := by
  by_cases h : b < 10
  · rw [slotOf_direct h]
    exact iff_of_false (by simp) (by omega)
  · by_cases h' : b < 2058
    · rw [slotOf_entry h h']
      exact iff_of_false (by simp) (by omega)
    · rw [slotOf, dif_neg h, dif_neg h']
      exact iff_of_true rfl (by omega)

/-- Two blocks have different ones. -/
theorem slotOf_inj (h : slotOf b = some q) (h' : slotOf b' = some q) : b = b' := by
  unfold slotOf at h h'
  split at h
  · split at h'
    · cases h
      injection h' with h'
      injection h' with h'
      exact (Fin.mk.inj h').symm
    · split at h'
      · cases h
        cases h'
      · cases h'
  · split at h
    · split at h'
      · cases h
        cases h'
      · split at h'
        · cases h
          injection h' with h'
          injection h' with h'
          have hval := Fin.mk.inj h'
          omega
        · cases h'
    · cases h

/-- A block without a slot is refused. -/
theorem Slotted.lt (h : Slotted At b (.ok (0, d) s)) : b < 2058 := by
  by_contra hge
  cases h with
  | refused hr => exact absurd hr (by decide)
  | slot hq _ =>
    rw [slotOf_eq_none.mpr (Nat.not_lt.mp hge)] at hq
    cases hq

end Slots

/-! ## `walk_block` of the kernel -/

/-- Where a slot of the inode is: in the inode, or in a copy of the block of numbers. -/
def Fs.SlotAt (p : Nat) : Slot → Fs → Nat → Prop
  | .direct i, _, ptr => ptr = blockSlot p i
  | .entry k, s, ptr => ∃ f, ptr = frameVa f + 2 * k ∧
      ∀ x < blkSize, s.mm.mem (pageSize * f + x) = s.disk (blkSize * s.slot p 10 + x)

/-- What `walk_block` is for, at one block of the inode of a file, with the pointer `d` to begin with:
the place of its slot and of no other, or a negative value, and then the callers read and write
nothing. -/
structure FileSt.MapRight (s : FileSt) (fileno : Nat) (d : Option Nat) : Prop where
  walked : ∀ alloc, Slotted (Fs.SlotAt s.file.inode) fileno
    (walkBlock s.file.inode fileno d alloc s.fs)
  distinct : ∀ fileno' < 2058, fileno' ≠ fileno → ∀ alloc alloc' d' ptr ptr' s₁ s₂,
    walkBlock s.file.inode fileno d alloc s.fs = .ok (0, some ptr) s₁ →
    walkBlock s.file.inode fileno' d' alloc' s.fs = .ok (0, some ptr') s₂ →
      ptr + 2 ≤ ptr' ∨ ptr' + 2 ≤ ptr
  /-- A turn of `file_read`. -/
  reads : ∀ (count : Nat) (offset : Int) (t n buf : Nat) r d' fs, n < count →
    u32 ((int32 (offset + n)).tdiv blkSize) = fileno →
    walkBlock s.file.inode fileno d 0 s.fs = .ok (r, d') fs → r < 0 →
    (fileReadLoop count offset (t + 1) n d buf s).state.fs = fs
  /-- A turn of `file_write`. -/
  writes : ∀ (count stop t : Nat) (i : Int) (buf : Nat) r d' fs, u32 i < stop →
    u32 (i.tdiv blkSize) = fileno →
    walkBlock s.file.inode fileno d 1 s.fs = .ok (r, d') fs → r < 0 →
    (fileWriteLoop count stop (t + 1) i d buf s).state.fs = fs

/-- What is read through the pointer, if anything can be, is nought. -/
def Mm.Harmless (s : Mm) (ptr : Nat) : Prop := ∀ v, s.Has 2 ptr v → v = 0

/-- Where there is no block of numbers, nothing is at address nought; and where none can be had
either, nothing is where the pointer was left. -/
def FileSt.PointersSafe (s : FileSt) (fileno : Nat) (d : Option Nat) : Prop :=
  10 ≤ fileno → s.fs.slot s.file.inode 10 = 0 → s.fs.mm.Harmless 0 ∧
    ((∀ no, s.fs.blkFree no = false) → ∀ ptr, d = some ptr → s.fs.mm.Harmless ptr)

section Walk

variable {s : FileSt} {f f₀ : Fs} {ft fb i b : Nat} {l : List Nat} {d : Option Nat}

/-- More frames were taken, so this is another state. -/
theorem Mm.TakesMore.ne {m m' : Mm} (h : m.TakesMore m') (hl : FreeList m l)
    (hn : m.npages ≤ 2 ^ 19) (hne : l ≠ []) : m' ≠ m := by
  rintro rfl
  obtain ⟨-, k, hl'⟩ := h l hl hn
  have hlen := congrArg List.length (hl.chain.unique hl'.chain)
  have hpos := List.length_pos_of_ne_nil hne
  rw [List.length_drop] at hlen
  omega

/-- What happens at a block of the indirect part. -/
inductive EntryWalk (f : Fs) (p b : Nat) (l : List Nat) (d : Option Nat) (alloc : Nat) :
    Res Fs (Int × Option Nat) → Prop
  | copied {q : Nat} {f' : Fs} : l.head? = some q →
      (f.slot p 10 ≠ 0 ∨ alloc = 1 ∧ ∃ no, f.blkFree no = true) →
      (∀ x < blkSize, f'.mm.mem (pageSize * q + x) = f'.disk (blkSize * f'.slot p 10 + x)) →
      EntryWalk f p b l d alloc (.ok (0, some (frameVa q + 2 * (b - 10))) f')
  | missing : alloc ≠ 1 → f.slot p 10 = 0 → EntryWalk f p b l d alloc (.ok (-1, some 0) f)
  | full : alloc = 1 → f.slot p 10 = 0 → (∀ no, f.blkFree no = false) →
      EntryWalk f p b l d alloc (.ok (-1, d) f)

/-- The block of numbers is copied to the first free frame. -/
theorem Mounted.copy (h : Mounted f ft fb l) (hi : i < inodesInTable) (hne : l ≠ []) (b : Nat)
    (alloc : Nat) {p : Nat} (hthere : f₀.slot p 10 ≠ 0 ∨ alloc = 1 ∧ ∃ no, f₀.blkFree no = true)
    (hp : f.inode i = p) : EntryWalk f₀ p b l d alloc
      ((bread (f.slot p 10) >>= fun blk =>
        pure ((0 : Int), some (blk + 2 * (b - 10)))) f) := by
  obtain ⟨q, l', rfl⟩ := List.exists_cons_of_ne_nil hne
  subst hp
  obtain ⟨f', hread, htook, -, -, -, hbytes⟩ :=
    bread_ok (f.slot (f.inode i) 10) h.free h.npages
  rw [Act.bind_ok hread]
  refine .copied rfl hthere fun x hx => ?_
  rw [hbytes x hx, htook.disk, htook.slot (h.kept_inode hi) (Nat.le_refl 10)]

/-- `walk_block` of the indirect part. -/
theorem Mounted.entryWalk (h : Mounted f ft fb l) (hi : i < inodesInTable) (hne : l ≠ [])
    (hb : ¬ b < 10) (hb' : b < 2058) (d : Option Nat) (alloc : Nat) :
    EntryWalk f (f.inode i) b l d alloc (walkBlock (f.inode i) b d alloc f) := by
  have hkept := h.kept_inode hi
  by_cases h10 : f.slot (f.inode i) 10 = 0
  · have hlevel : (b - 10) / 2048 + 10 = 10 := by omega
    have hmod : (b - 10) % 2048 = b - 10 := by omega
    have hload : ∀ f' : Fs, f'.inode i = f.inode i →
        fsMm (load 2 (blockSlot (f.inode i) 10)) f' = .ok (f'.slot (f.inode i) 10) f' :=
      fun f' _ => (⟨hkept.slot (Nat.le_refl 10), rfl⟩ : Entry f' l (blockSlot (f.inode i) 10)
        (f'.slot (f.inode i) 10)).load
    unfold walkBlock
    rw [if_neg hb, if_pos (show b < 1024 * 2 + 10 from hb'), hlevel, hmod]
    rw [Act.bind_ok (hload f rfl), if_pos h10]
    by_cases halloc : alloc = 1
    · rw [if_pos halloc, Act.gets_bind_apply]
      rcases h.getFreeNo_run with ⟨hfind, hfull⟩ | ⟨no, hlt, hfree, hfind⟩
      · rw [Act.bind_ok (fsMm_ok hfind), if_pos (by decide)]
        exact .full halloc h10 hfull
      · have hneg : ¬ (no : Int) < 0 := by omega
        obtain ⟨f₁, hf₁⟩ : ∃ f₁, f₁ = Fs.setMm (f.mm.setMem (Mem.wr 2 f.mm.mem
          (blockSlot (f.inode i) 10 - kbase) no)) f := ⟨_, rfl⟩
        have hstore : fsMm (store 2 (blockSlot (f.inode i) 10) no) f = .ok () f₁ := by
          rw [hf₁]
          exact fsMm_ok ((hkept.slot (Nat.le_refl 10)).store (by decide) 2 no)
        have h₁ : Mounted f₁ ft fb l := by
          rw [hf₁]
          exact h.setMem _
        have hbitmap : f₁.blkBitmap = f.blkBitmap := by rw [h₁.bitmap, h.bitmap]
        have htable : (f₁.taken no).inode i = f.inode i := by
          rw [Fs.inode, Fs.inode, Fs.taken_inoTable, h₁.table, h.table]
        have hset := setBitmap_run (s := f₁.mm) h₁.kept_bitmap hlt
        have h₂ : Mounted (f₁.taken no) ft fb l := h₁.setMem _
        have hcopy := @Mounted.copy _ f _ _ _ _ d h₂ hi hne b alloc _ (.inr ⟨halloc, no, hfree⟩) htable
        have hagain := hload (f₁.taken no) htable
        rw [Act.bind_ok (fsMm_ok hfind), if_neg hneg, Int.toNat_natCast, Fs.setMm_self,
          Act.bind_ok hstore, ← hbitmap, Act.bind_ok (fsMm_ok hset)]
        exact (congrArg _ (Act.bind_ok hagain)).mpr hcopy
    · rw [if_neg halloc]
      exact .missing halloc h10
  · rw [walkBlock_indirect d alloc hb hb' hkept h10]
    exact h.copy hi hne b alloc (.inl h10) rfl

/-! ## The callers -/

/-- Code that reads a block has taken a frame. -/
theorem FileSt.read_ne {α : Type} {no : Nat} {g : Nat → Act FileSt α}
    (hg : ∀ blk, Takes (fun s : FileSt => s.fs.mm) (g blk)) (hl : FreeList s.fs.mm l)
    (hn : s.fs.mm.npages ≤ 2 ^ 19) (hne : l ≠ []) :
    ((fileFs (bread no) >>= g) s).state.fs ≠ s.fs := by
  obtain ⟨q, l', rfl⟩ := List.exists_cons_of_ne_nil hne
  obtain ⟨f', hread, -⟩ := bread_ok no hl hn
  have hmore : s.fs.mm.TakesMore f'.mm := TakesMore.bread no s.fs _ _ hread
  rw [Act.bind_ok (fileFs_ok hread)]
  have hrest := hg (frameVa q) (FileSt.setFs f' s)
  intro hsame
  exact (TakesMore.before hmore hrest).ne hl hn hne (congrArg Fs.mm hsame)

/-- A load through a pointer stops or finds what is there. -/
theorem file_load_cases (s : FileSt) (n va : Nat) :
    (fileFs (fsMm (load n va)) s = .fault s ∧ ∀ v, ¬ s.fs.mm.Has n va v) ∨
      ∃ v, s.fs.mm.Has n va v ∧ fileFs (fsMm (load n va)) s = .ok v s := by
  cases hload : load n va s.fs.mm with
  | fault m =>
    refine .inl ⟨?_, fun v hv => ?_⟩
    · have hsame : m = s.fs.mm := by
        unfold load at hload
        split at hload
        · cases hload
        · cases hload
          rfl
      rw [hsame] at hload
      exact Act.zoom_fault (Act.zoom_fault hload)
    · rw [Mm.Has, hload] at hv
      cases hv
  | ok v m =>
    rw [load_eq_ok hload] at hload
    exact .inr ⟨v, hload, fileFs_ok (fsMm_ok hload)⟩

/-- A turn of `file_read` that follows a pointer reads a block just if a number is there. -/
theorem fileRead_follows {count n t buf ptr : Nat} {offset r : Int} (hlt : n < count)
    (hwalk : walkBlock s.file.inode (u32 ((int32 (offset + n)).tdiv blkSize)) d 0 s.fs =
      .ok (r, some ptr) s.fs) (hl : FreeList s.fs.mm l) (hn : s.fs.mm.npages ≤ 2 ^ 19) (hne : l ≠ []) :
    (fileReadLoop count offset (t + 1) n d buf s).state.fs = s.fs ↔ s.fs.mm.Harmless ptr := by
  have hturn : fileFs (walkBlock s.file.inode (u32 ((int32 (offset + n)).tdiv blkSize)) d 0) s =
      .ok (r, some ptr) s := fileFs_ok hwalk
  rw [fileReadLoop, if_pos hlt, Act.gets_bind_apply, Act.bind_ok hturn]
  simp only []
  rw [Act.deref_bind_apply]
  rcases file_load_cases s 2 ptr with ⟨hstop, hno⟩ | ⟨v, hv, hload⟩
  · rw [Act.bind_fault hstop]
    exact iff_of_true rfl fun v hv => absurd hv (hno v)
  · rw [Act.bind_ok hload]
    by_cases hz : v = 0
    · rw [if_neg (not_not.mpr hz)]
      refine iff_of_true rfl fun w hw => ?_
      rw [hw.unique hv, hz]
    · rw [if_pos hz]
      refine iff_of_false (FileSt.read_ne (fun blk => ?_) hl hn hne) fun h => hz (h v hv)
      exact Takes.bind (Takes.fileFs (Takes.fsMm (Takes.memcpy buf _ _))) fun _ =>
        Takes.bind (Takes.modify fun _ => rfl) fun _ => Takes.fileReadLoop _ _ _ _ _ _

/-- A turn of `file_write` that no block is free for reads a block just if a number is where it
looks. -/
theorem fileWrite_follows {count stop t buf : Nat} {j r : Int} (hlt : u32 j < stop)
    (hwalk : walkBlock s.file.inode (u32 (j.tdiv blkSize)) d 1 s.fs = .ok (r, d) s.fs)
    (h : Mounted s.fs ft fb l) (hfull : ∀ no, s.fs.blkFree no = false) (hne : l ≠ []) :
    (fileWriteLoop count stop (t + 1) j d buf s).state.fs = s.fs ↔
      ∀ ptr, d = some ptr → s.fs.mm.Harmless ptr := by
  have hturn : fileFs (walkBlock s.file.inode (u32 (j.tdiv blkSize)) d 1) s = .ok (r, d) s :=
    fileFs_ok hwalk
  have hgetBlk : fileFs getBlk s = .ok (-1) s := by
    rcases h.getBlk_run with ⟨hrun, -⟩ | ⟨no, hfree, -⟩
    · exact fileFs_ok hrun
    · rw [hfull no] at hfree
      cases hfree
  rw [fileWriteLoop_step, if_pos hlt, Act.gets_bind_apply, Act.bind_ok hturn, writeTurn]
  cases d with
  | none => exact iff_of_true rfl fun ptr hptr => by cases hptr
  | some ptr =>
    rw [Act.deref_bind_apply]
    have hall : (∀ ptr', some ptr = some ptr' → s.fs.mm.Harmless ptr') ↔ s.fs.mm.Harmless ptr :=
      ⟨fun hp => hp ptr rfl, fun hp ptr' he => by
        cases he
        exact hp⟩
    rw [hall]
    rcases file_load_cases s 2 ptr with ⟨hstop, hno⟩ | ⟨v, hv, hload⟩
    · rw [Act.bind_fault hstop]
      exact iff_of_true rfl fun v hv => absurd hv (hno v)
    · rw [Act.bind_ok hload]
      by_cases hz : v = 0
      · simp only [hz, if_true]
        rw [Act.bind_ok hgetBlk, if_pos (by decide)]
        refine iff_of_true rfl fun w hw => ?_
        rw [hw.unique hv, hz]
      · simp only [hz, if_false]
        rw [writeBack, Act.bind_ok hload]
        refine iff_of_false (FileSt.read_ne (fun pbuf => ?_) h.free h.npages hne)
          fun hharm => hz (hharm v hv)
        exact Takes.bind (Takes.fileFs (Takes.fsMm (Takes.memcpy _ buf _))) fun _ =>
          Takes.bind (Takes.fileFs (Takes.fsMm (Takes.load 2 ptr))) fun _ =>
          Takes.bind (Takes.fileFs (Takes.diskOut pbuf _ _)) fun _ =>
          Takes.bind (Takes.modify fun _ => rfl) fun _ => Takes.fileWriteLoop _ _ _ _ _ _

/-- What `walk_block` returns for a block behind the last. -/
theorem walkBlock_behind (p alloc : Nat) (hb : 2058 ≤ b) :
    walkBlock p b d alloc f = .ok (0, d) f := by
  rw [walkBlock, if_neg (by omega), if_neg (by omega)]
  rfl

/-- The place that is handed out for a block: in the inode, or in the first free frame. -/
theorem Mounted.place (h : Mounted f ft fb l) (hi : i < inodesInTable) (hne : l ≠ [])
    (hb : b < 2058) {alloc ptr : Nat} {f' : Fs}
    (hwalk : walkBlock (f.inode i) b d alloc f = .ok (0, some ptr) f') :
    b < 10 ∧ ptr = blockSlot (f.inode i) b ∨
      10 ≤ b ∧ ∃ q, l.head? = some q ∧ ptr = frameVa q + 2 * (b - 10) := by
  by_cases hlow : b < 10
  · rw [walkBlock_direct d alloc hlow] at hwalk
    cases hwalk
    exact .inl ⟨hlow, rfl⟩
  · have hentry := h.entryWalk hi hne hlow hb d alloc
    rw [hwalk] at hentry
    cases hentry with
    | copied hq _ _ => exact .inr ⟨Nat.not_lt.mp hlow, _, hq, rfl⟩

/-- Two blocks of an inode have places that do not meet. -/
theorem Mounted.places_apart (h : Mounted f ft fb l) (hi : i < inodesInTable) (hne : l ≠ [])
    {b' alloc alloc' ptr ptr' : Nat} {d' : Option Nat} {f₁ f₂ : Fs} (hb : b < 2058)
    (hb' : b' < 2058) (hbb : b' ≠ b)
    (hwalk : walkBlock (f.inode i) b d alloc f = .ok (0, some ptr) f₁)
    (hwalk' : walkBlock (f.inode i) b' d' alloc' f = .ok (0, some ptr') f₂) :
    ptr + 2 ≤ ptr' ∨ ptr' + 2 ≤ ptr := by
  have htable : ∀ k < 10, blockSlot (f.inode i) k =
      kbase + (pageSize * ft + (inodeSize * i + blockOff + 2 * k)) := fun k _ => by
    unfold Fs.inode blockSlot
    rw [h.table, frameVa]
    omega
  have hframe : ∀ q, l.head? = some q → q ≠ ft := by
    rintro q hq rfl
    exact h.table_out (List.mem_of_mem_head? hq)
  have hin : inodeSize * i + blockOff + 20 ≤ pageSize := by
    unfold inodesInTable at hi
    unfold inodeSize blockOff pageSize
    omega
  rcases h.place hi hne hb hwalk with ⟨hlow, rfl⟩ | ⟨hge, q, hq, rfl⟩
  · rcases h.place hi hne hb' hwalk' with ⟨hlow', rfl⟩ | ⟨hge', q, hq, rfl⟩
    · unfold blockSlot
      omega
    · have hne' := hframe q hq
      rw [htable b hlow, frameVa]
      unfold pageSize at *
      omega
  · rcases h.place hi hne hb' hwalk' with ⟨hlow', rfl⟩ | ⟨hge', q', hq', rfl⟩
    · have hne' := hframe q hq
      rw [htable b' hlow', frameVa]
      unfold pageSize at *
      omega
    · rw [hq] at hq'
      cases hq'
      omega

/-- A position in a block. -/
theorem block_position (hb : b < 2058) :
    int32 ((blkSize * b : Nat) + (0 : Nat)) = (blkSize * b : Nat) ∧
      u32 (((blkSize * b : Nat) : Int).tdiv blkSize) = b := by
  have hlt : blkSize * b < 2 ^ 31 := by
    unfold blkSize
    omega
  refine ⟨?_, ?_⟩
  · rw [Int.natCast_zero, Int.add_zero]
    exact int32_nat hlt
  · rw [tdiv_blkSize, Nat.mul_div_cancel_left b (by decide)]
    exact u32_nat (by omega)

/-- KERNEL: `walk_block` and its callers do what they are for at a block just if it has a slot and
no pointer that they follow leads anywhere. -/
theorem FileSt.mapRight_iff (h : Mounted s.fs ft fb l) (hp : s.file.inode = s.fs.inode i)
    (hi : i < inodesInTable) (hne : l ≠ []) :
    s.MapRight b d ↔ b < 2058 ∧ s.PointersSafe b d := by
  have hl := h.free
  have hn := h.npages
  constructor
  · intro hright
    have hb : b < 2058 := by
      by_contra hge
      have hwalked := hright.walked 0
      rw [walkBlock_behind _ 0 (Nat.not_lt.mp hge)] at hwalked
      exact hge hwalked.lt
    refine ⟨hb, fun hlow h10 => ?_⟩
    rw [hp] at h10
    obtain ⟨hpos, hblock⟩ := block_position hb
    have hnone := walkBlock_none d (Nat.not_lt.mpr hlow) hb (h.kept_inode hi) h10
    rw [← hp] at hnone
    refine ⟨?_, fun hfull => ?_⟩
    · have hfileno : u32 ((int32 (((blkSize * b : Nat) : Int) + (0 : Nat))).tdiv blkSize) = b := by
        rw [hpos, hblock]
      have hturn := hright.reads 1 (blkSize * b : Nat) 0 0 0 _ _ _ Nat.one_pos hfileno hnone (by decide)
      rw [← hfileno] at hnone
      exact (fileRead_follows Nat.one_pos hnone hl hn hne).mp hturn
    · have hentry := h.entryWalk hi hne (Nat.not_lt.mpr hlow) hb d 1
      rw [← hp] at hentry
      cases hwalk : walkBlock s.file.inode b d 1 s.fs with
      | fault f' =>
        rw [hwalk] at hentry
        cases hentry
      | ok o f' =>
        rw [hwalk] at hentry
        cases hentry with
        | copied _ hthere _ =>
          exfalso
          rw [hp] at hthere
          rcases hthere with hne10 | ⟨-, no, hfree⟩
          · exact hne10 h10
          · rw [hfull no] at hfree
            cases hfree
        | missing hone _ => exact absurd rfl hone
        | full _ _ _ =>
          have hstop : u32 ((blkSize * b : Nat) : Int) < 2 ^ 32 := by
            unfold u32
            omega
          have hturn := hright.writes 0 (2 ^ 32) 0 (blkSize * b : Nat) 0 _ _ _ hstop hblock hwalk
            (by decide)
          rw [← hblock] at hwalk
          exact (fileWrite_follows hstop hwalk h hfull hne).mp hturn
  · rintro ⟨hb, hsafe⟩
    refine ⟨fun alloc => ?_, fun b' hb' hbb alloc alloc' d' ptr ptr' s₁ s₂ hwalk hwalk' => ?_,
      fun count offset t n buf r d' fs hlt hfileno hwalk hr => ?_,
      fun count stop t j buf r d' fs hlt hfileno hwalk hr => ?_⟩
    · by_cases hlow : b < 10
      · rw [walkBlock_direct d alloc hlow]
        exact .slot (slotOf_direct hlow) rfl
      · have hentry := h.entryWalk hi hne hlow hb d alloc
        rw [← hp] at hentry
        cases hwalk : walkBlock s.file.inode b d alloc s.fs with
        | fault f' =>
          rw [hwalk] at hentry
          cases hentry
        | ok o f' =>
          rw [hwalk] at hentry
          cases hentry with
          | copied hq _ hbytes => exact .slot (slotOf_entry hlow hb) ⟨_, rfl, hbytes⟩
          | missing _ _ => exact .refused (by decide)
          | full _ _ _ => exact .refused (by decide)
    · rw [hp] at hwalk hwalk'
      exact h.places_apart hi hne hb hb' hbb hwalk hwalk'
    · by_cases hlow : b < 10
      · rw [walkBlock_direct d 0 hlow] at hwalk
        cases hwalk
        exact absurd hr (by decide)
      · have hentry := h.entryWalk hi hne hlow hb d 0
        rw [← hp, hwalk] at hentry
        cases hentry with
        | copied _ _ _ => exact absurd hr (by decide)
        | missing _ h10 =>
          rw [← hfileno] at hwalk
          exact (fileRead_follows hlt hwalk hl hn hne).mpr (hsafe (Nat.not_lt.mp hlow) h10).1
        | full hone _ _ => exact absurd hone (by decide)
    · by_cases hlow : b < 10
      · rw [walkBlock_direct d 1 hlow] at hwalk
        cases hwalk
        exact absurd hr (by decide)
      · have hentry := h.entryWalk hi hne hlow hb d 1
        rw [← hp, hwalk] at hentry
        cases hentry with
        | copied _ _ _ => exact absurd hr (by decide)
        | missing hone _ => exact absurd rfl hone
        | full _ h10 hfull =>
          rw [← hfileno] at hwalk
          exact (fileWrite_follows hlt hwalk h hfull hne).mpr ((hsafe (Nat.not_lt.mp hlow) h10).2 hfull)

end Walk

end Myos.Kernel
