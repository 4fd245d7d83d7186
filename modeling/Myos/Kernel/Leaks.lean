import Myos.Kernel.Failing
import Myos.Kernel.FileWrite
import Myos.Kernel.Headers

/-!
# The frames of file operations

`bread` takes a frame for every block and nothing gives one back: the list of
free frames loses its first ones (`Takes`). A call that returns has left the
list as it was just if it read no block, or if the list was empty to begin with.

Which calls read no block is a matter of the first block they look for. The
search of a directory goes on behind a slot that is nought; `file_read` and
`file_write` return there, the latter only if no block is free.
-/

namespace Myos.Kernel

open Myos.Lib

/-! ## Code that takes frames -/

/-- The first frames of the list are taken, and none is given back. -/
def Mm.Takes (s s' : Mm) : Prop :=
  ∀ l, FreeList s l → s.npages ≤ 2 ^ 19 → s'.npages = s.npages ∧ ∃ k, FreeList s' (l.drop k)

/-- The same of code, over a state that has memory. -/
def Takes {σ α : Type} (mm : σ → Mm) (x : Act σ α) : Prop :=
  Act.Within (fun s s' => (mm s).Takes (mm s')) x

/-- The part of a turn of `file_write` that has a block: `ptr` is its place, and `c`
the bytes it moves. -/
def writeBack (count stop t c ptr buf : Nat) (i : Int) (diskno : Option Nat) : Act FileSt Int := do
  let no ← fileFs (fsMm (load 2 ptr))
  let pbuf ← fileFs (bread no)
  fileFs (fsMm (memcpy (ptrAdd pbuf (i.tmod blkSize)) buf c))
  let no ← fileFs (fsMm (load 2 ptr))
  fileFs (writeblk pbuf (no * 8) 8)
  Act.modify (FileSt.advance c)
  fileWriteLoop count stop t (int32 (i + c)) diskno (buf + c)

/-- The part of a turn of `file_write` behind `walk_block`. -/
def writeTurn (count stop t buf : Nat) (i : Int) (diskno : Option Nat) : Act FileSt Int := do
  let ptr ← Act.deref diskno
  let no ← fileFs (fsMm (load 2 ptr))
  let c := min (blkSize - i.tmod blkSize).toNat count
  if no = 0 then do
    let bno ← fileFs getBlk
    if bno < 0 then return -1
    else do
      fileFs (fsMm (store 2 ptr bno.toNat))
      writeBack count stop t c ptr buf i diskno
  else writeBack count stop t c ptr buf i diskno

/-- A turn of `file_write`. -/
theorem fileWriteLoop_step (count stop t : Nat) (i : Int) (diskno : Option Nat) (buf : Nat) :
    fileWriteLoop count stop (t + 1) i diskno buf =
      if u32 i < stop then
        Act.gets (fun s : FileSt => s.file.inode) >>= fun inode =>
        fileFs (walkBlock inode (u32 (i.tdiv blkSize)) diskno 1) >>= fun r =>
        writeTurn count stop t buf i r.2
      else pure (int32 count) := rfl

namespace Takes

variable {σ τ α β : Type} {mm : σ → Mm}

theorem of_same {s s' : Mm} (hp : s'.pages = s.pages) (hh : s'.phead = s.phead)
    (hn : s'.npages = s.npages) : s.Takes s' :=
  fun _ hl _ => ⟨hn, 0, hl.congr hp hh hn⟩

theorem trans {a b c : Mm} (h : a.Takes b) (h' : b.Takes c) : a.Takes c := fun l hl hle => by
  obtain ⟨hn, k, hl'⟩ := h l hl hle
  obtain ⟨hn', k', hl''⟩ := h' _ hl' (hn ▸ hle)
  rw [List.drop_drop] at hl''
  exact ⟨hn'.trans hn, k + k', hl''⟩

theorem pure (a : α) : Takes mm (Pure.pure a : Act σ α) := fun _ => of_same rfl rfl rfl

theorem gets (f : σ → α) : Takes mm (Act.gets f) := fun _ => of_same rfl rfl rfl

theorem modify {f : σ → σ} (h : ∀ s, mm (f s) = mm s) : Takes mm (Act.modify f) := fun s => by
  show (mm s).Takes (mm (f s))
  rw [h]
  exact of_same rfl rfl rfl

theorem deref (o : Option α) : Takes mm (Act.deref o) := by
  cases o with
  | none => exact fun _ => of_same rfl rfl rfl
  | some a => exact pure a

theorem stop : Takes mm (Act.stop : Act σ α) := fun _ => of_same rfl rfl rfl

theorem bind {x : Act σ α} {f : α → Act σ β} (hx : Takes mm x) (hf : ∀ a, Takes mm (f a)) :
    Takes mm (x >>= f) := Act.Within.bind (r := fun s s' => (mm s).Takes (mm s'))
  (fun h₁ h₂ => trans h₁ h₂) hx hf

/-- Code of a part that has the memory, run on the whole. -/
theorem zoom {get : τ → σ} {put : σ → τ → τ} {mm' : τ → Mm} (hget : ∀ t, mm (get t) = mm' t)
    (hput : ∀ s t, mm' (put s t) = mm s) {x : Act σ α} (h : Takes mm x) :
    Takes mm' (Act.zoom get put x) := fun t => by
  show (mm' t).Takes (mm' (Act.zoom get put x t).state)
  rw [Act.zoom_state, hput, ← hget]
  exact h (get t)

theorem fsMm {x : Act Mm α} (h : Takes id x) : Takes Fs.mm (fsMm x) :=
  zoom (fun _ => rfl) (fun _ _ => rfl) h

theorem fileFs {x : Act Fs α} (h : Takes Fs.mm x) :
    Takes (fun s : FileSt => s.fs.mm) (fileFs x) :=
  zoom (fun _ => rfl) (fun _ _ => rfl) h

theorem load (n va : Nat) : Takes id (load n va) := fun s => by
  unfold Myos.Kernel.load
  cases s.kpa va <;> exact of_same rfl rfl rfl

theorem store (n va v : Nat) : Takes id (store n va v) := fun s => by
  unfold Myos.Kernel.store
  cases s.kpa va <;> exact of_same rfl rfl rfl

theorem memcpy (dest src n : Nat) : Takes id (memcpy dest src n) := fun s => by
  obtain ⟨m, hm⟩ := memcpy_state dest src n s
  rw [hm]
  exact of_same rfl rfl rfl

theorem allocPage (flags : Nat) : Takes id (allocPage flags) := fun s l hl hle => by
  cases hp : s.phead with
  | none =>
    rw [allocPage_none hp, Res.state_ok]
    exact ⟨rfl, 0, hl.congr rfl rfl rfl⟩
  | some p =>
    obtain ⟨l', rfl, hlt, -, -⟩ := hl.phead_some hp
    rw [allocPage_some hp (hlt.trans_le hle), Res.state_ok]
    exact ⟨Mm.taken_npages s flags p, 1, hl.taken⟩

theorem diskIn (dest pos n : Nat) : Takes Fs.mm (diskIn dest pos n) := fun s => by
  obtain ⟨m, hm⟩ := Calm.diskIn_state dest pos n s
  rw [hm]
  exact of_same rfl rfl rfl

theorem diskOut (src pos n : Nat) : Takes Fs.mm (diskOut src pos n) := by
  induction n generalizing src pos with
  | zero => exact pure ()
  | succ n ih =>
    exact bind (fsMm (load 1 src)) fun b => bind (modify fun _ => rfl) fun _ =>
      ih (src + 1) (pos + 1)

theorem bread (no : Nat) : Takes Fs.mm (bread no) :=
  bind (fsMm (allocPage 0)) fun _ => bind (gets _) fun buf => bind (diskIn buf _ _) fun _ => pure buf

theorem isBlkempty (bitmap no : Nat) : Takes id (isBlkempty bitmap no) :=
  bind (load 4 _) fun _ => pure _

theorem getFreeNoLoop (bitmap n blkno : Nat) : Takes id (getFreeNoLoop bitmap n blkno) := by
  induction n generalizing blkno with
  | zero => exact pure _
  | succ n ih =>
    refine bind (isBlkempty bitmap blkno) fun e => ?_
    show Takes id (if _ then _ else _)
    split
    · exact pure _
    · exact ih _

theorem setBitmap (bitmap no : Nat) : Takes id (setBitmap bitmap no) :=
  bind (load 4 _) fun _ => store 4 _ _

theorem getBlk : Takes Fs.mm getBlk := by
  refine bind (gets _) fun bitmap => bind (fsMm (getFreeNoLoop bitmap _ 0)) fun bno => ?_
  show Takes Fs.mm (if _ then _ else _)
  split
  · exact pure _
  · exact bind (fsMm (setBitmap bitmap _)) fun _ => pure _

theorem walkBlock (p fileno : Nat) (diskno : Option Nat) (alloc : Nat) :
    Takes Fs.mm (walkBlock p fileno diskno alloc) := by
  have hbelow : ∀ slot off, Takes Fs.mm (do
      let blk ← Myos.Kernel.bread (← Myos.Kernel.fsMm (Myos.Kernel.load 2 slot))
      return ((0 : Int), some (blk + off))) := fun slot off =>
    bind (fsMm (load 2 slot)) fun no => bind (bread no) fun blk => pure _
  unfold Myos.Kernel.walkBlock
  split
  · exact pure _
  · split
    · refine bind (fsMm (load 2 _)) fun no => ?_
      split
      · split
        · refine bind (gets _) fun bitmap => bind (fsMm (getFreeNoLoop bitmap _ 0)) fun bno => ?_
          split
          · exact pure _
          · exact bind (fsMm (store 2 _ _)) fun _ => bind (fsMm (setBitmap bitmap _)) fun _ =>
              hbelow _ _
        · exact pure _
      · exact hbelow _ _
    · exact pure _

/-- A read of a block takes frames, and so does code that does no more. -/
theorem reading : Fs.Reading fun s s' => s.mm.Takes s'.mm :=
  ⟨fun _ => of_same rfl rfl rfl, trans, bread⟩

theorem fileReadLoop (count : Nat) (offset : Int) (t n : Nat) (diskno : Option Nat) (buf : Nat) :
    Takes (fun s : FileSt => s.fs.mm) (fileReadLoop count offset t n diskno buf) := by
  induction t generalizing n diskno buf with
  | zero => exact stop
  | succ t ih =>
    unfold Myos.Kernel.fileReadLoop
    split
    · refine bind (gets _) fun inode => bind (fileFs (walkBlock inode _ diskno 0)) fun r =>
        bind (deref r.2) fun ptr => bind (fileFs (fsMm (load 2 ptr))) fun no => ?_
      show Takes _ (if _ then _ else _)
      split
      · exact bind (fileFs (bread no)) fun blk =>
          bind (fileFs (fsMm (memcpy buf _ _))) fun _ => bind (modify fun _ => rfl) fun _ => ih _ r.2 _
      · exact pure _
    · exact pure _

theorem writeBack {count stop t c ptr buf : Nat} {i : Int} {diskno : Option Nat}
    (h : Takes (fun s : FileSt => s.fs.mm)
      (fileWriteLoop count stop t (int32 (i + c)) diskno (buf + c))) :
    Takes (fun s : FileSt => s.fs.mm) (writeBack count stop t c ptr buf i diskno) :=
  bind (fileFs (fsMm (load 2 ptr))) fun no => bind (fileFs (bread no)) fun pbuf =>
    bind (fileFs (fsMm (memcpy _ buf c))) fun _ => bind (fileFs (fsMm (load 2 ptr))) fun _ =>
      bind (fileFs (diskOut pbuf _ _)) fun _ => bind (modify fun _ => rfl) fun _ => h

theorem writeTurn {count stop t buf : Nat} {i : Int} {diskno : Option Nat}
    (h : ∀ c : Nat, Takes (fun s : FileSt => s.fs.mm)
      (fileWriteLoop count stop t (int32 (i + c)) diskno (buf + c))) :
    Takes (fun s : FileSt => s.fs.mm) (writeTurn count stop t buf i diskno) := by
  refine bind (deref diskno) fun ptr => bind (fileFs (fsMm (load 2 ptr))) fun no => ?_
  dsimp only
  split
  · refine bind (fileFs getBlk) fun bno => ?_
    split
    · exact pure _
    · exact bind (fileFs (fsMm (store 2 ptr _))) fun _ => writeBack (h _)
  · exact writeBack (h _)

theorem fileWriteLoop (count stop t : Nat) (i : Int) (diskno : Option Nat) (buf : Nat) :
    Takes (fun s : FileSt => s.fs.mm) (fileWriteLoop count stop t i diskno buf) := by
  induction t generalizing i diskno buf with
  | zero => exact Takes.stop
  | succ t ih =>
    rw [fileWriteLoop_step]
    split
    · exact bind (gets _) fun inode => bind (fileFs (walkBlock inode _ diskno 1)) fun r =>
        writeTurn fun c => ih _ r.2 _
    · exact pure _

end Takes

/-! ## Code that reads a block -/

/-- A frame is taken at least, if there is one. -/
def Mm.TakesMore (s s' : Mm) : Prop :=
  ∀ l, FreeList s l → s.npages ≤ 2 ^ 19 → s'.npages = s.npages ∧ ∃ k, FreeList s' (l.drop (k + 1))

/-- The same of code that returns, from the state it starts in. -/
def TakesMore {σ α : Type} (mm : σ → Mm) (x : Act σ α) (s : σ) : Prop :=
  ∀ a s', x s = .ok a s' → (mm s).TakesMore (mm s')

namespace TakesMore

variable {σ τ α β : Type} {mm : σ → Mm} {s : σ}

theorem before {a b c : Mm} (h : a.TakesMore b) (h' : b.Takes c) : a.TakesMore c :=
  fun l hl hle => by
    obtain ⟨hn, k, hl'⟩ := h l hl hle
    obtain ⟨hn', k', hl''⟩ := h' _ hl' (hn ▸ hle)
    rw [List.drop_drop] at hl''
    exact ⟨hn'.trans hn, k + k', by rw [Nat.add_right_comm]; exact hl''⟩

theorem after {a b c : Mm} (h : a.Takes b) (h' : b.TakesMore c) : a.TakesMore c :=
  fun l hl hle => by
    obtain ⟨hn, k, hl'⟩ := h l hl hle
    obtain ⟨hn', k', hl''⟩ := h' _ hl' (hn ▸ hle)
    rw [List.drop_drop] at hl''
    exact ⟨hn'.trans hn, k + k', hl''⟩

/-- The first part reads a block. -/
theorem bind {x : Act σ α} {f : α → Act σ β} (hx : TakesMore mm x s) (hf : ∀ a, Takes mm (f a)) :
    TakesMore mm (x >>= f) s := fun b s' hrun => by
  obtain ⟨a, s₁, hxs, hrest⟩ := Act.bind_eq_ok.mp hrun
  have hrest' := hf a s₁
  rw [hrest, Res.state_ok] at hrest'
  exact before (hx a s₁ hxs) hrest'

/-- A later part does. -/
theorem next {x : Act σ α} {f : α → Act σ β} (hx : Takes mm x)
    (hf : ∀ a s₁, TakesMore mm (f a) s₁) : TakesMore mm (x >>= f) s := fun b s' hrun => by
  obtain ⟨a, s₁, hxs, hrest⟩ := Act.bind_eq_ok.mp hrun
  have hx' := hx s
  rw [hxs, Res.state_ok] at hx'
  exact after hx' (hf a s₁ b s' hrest)

theorem fileFs {s : FileSt} {x : Act Fs α} (h : TakesMore Fs.mm x s.fs) :
    TakesMore (fun s : FileSt => s.fs.mm) (fileFs x) s := fun a s' hrun => by
  obtain ⟨f, hxs, rfl⟩ := Act.zoom_eq_ok.mp hrun
  exact h a f hxs

theorem bread (no : Nat) (s : Fs) : TakesMore Fs.mm (bread no) s := fun a s' hrun l hl hle => by
  unfold Myos.Kernel.bread at hrun
  obtain ⟨pp, s₁, halloc, hrest⟩ := Act.bind_eq_ok.mp hrun
  have htakes : Takes Fs.mm (Act.gets (fun s : Fs => s.mm.page2va pp) >>= fun buf =>
      readblk buf (8 * no) 8 >>= fun _ => Pure.pure buf) :=
    Takes.bind (Takes.gets _) fun buf => Takes.bind (Takes.diskIn buf _ _) fun _ => Takes.pure buf
  have hafter := htakes s₁
  rw [hrest, Res.state_ok] at hafter
  obtain ⟨m, hm, rfl⟩ := Act.zoom_eq_ok.mp halloc
  refine TakesMore.before (fun l hl hle => ?_) hafter l hl hle
  cases hp : s.mm.phead with
  | none =>
    rw [allocPage_none hp] at hm
    injection hm with _ hm
    rw [← hm, hl.phead_none hp]
    refine ⟨rfl, 0, ?_⟩
    rw [List.drop_nil, ← hl.phead_none hp]
    exact hl.congr rfl rfl rfl
  | some p =>
    obtain ⟨l', rfl, hlt, -, -⟩ := hl.phead_some hp
    rw [allocPage_some hp (hlt.trans_le hle)] at hm
    injection hm with _ hm
    rw [← hm]
    exact ⟨Mm.taken_npages s.mm 0 p, 0, hl.taken⟩

end TakesMore

/-- The frames that are free are those that were. -/
def Mm.SameFree (s s' : Mm) : Prop := ∀ f, s'.Free f ↔ s.Free f

/-- What is taken is missing. -/
theorem Mm.TakesMore.sameFree {s s' : Mm} {l : List Nat} (h : s.TakesMore s') (hl : FreeList s l)
    (hn : s.npages ≤ 2 ^ 19) : s.SameFree s' ↔ l = [] := by
  obtain ⟨-, k, hl'⟩ := h l hl hn
  constructor
  · intro hsame
    cases l with
    | nil => rfl
    | cons q l =>
      have hq : q ∈ l.drop k :=
        (hl'.mem q).mpr ((hsame q).mpr ((hl.mem q).mp List.mem_cons_self))
      exact absurd (List.mem_of_mem_drop hq) (List.nodup_cons.mp hl.nodup).1
  · rintro rfl f
    rw [List.drop_nil] at hl'
    exact (hl'.mem f).symm.trans (hl.mem f)

/-! ## `walk_path` -/

section Calls

variable {l : List Nat}

/-- A search of a directory with blocks takes a frame. -/
theorem walkPath_frames {s s' : Fs} {fname : Nat} {o : Int × Option Nat}
    (hrun : walkPath fname s = .ok o s') :
    s.Bare ∧ s' = s ∨ ¬ s.Bare ∧ s.mm.TakesMore s'.mm := by
  by_cases hbare : s.Bare
  · obtain ⟨r, -, hrun'⟩ := walkPath_bare hbare fname
    rw [hrun'] at hrun
    injection hrun with _ hs
    exact .inl ⟨hbare, hs.symm⟩
  · refine .inr ⟨hbare, ?_⟩
    rw [walkPath, Act.gets_bind_apply] at hrun
    obtain ⟨size, s₁, hload, hrest⟩ := Act.bind_eq_ok.mp hrun
    obtain ⟨rfl, hsize⟩ := fsMm_load_eq_ok hload
    obtain hnone | ⟨no, f, hread, hf⟩ := walkPathLoop_looks (Nat.zero_le 10) hrest
    · exact absurd ⟨size, hsize, fun b h2 h3 => hnone b (Nat.zero_le b) (by omega) h3⟩ hbare
    · rw [hread] at hrest
      exact TakesMore.bind (TakesMore.bread no _) (fun blk => hf _ Takes.reading blk) _ _ hrest

/-! ## `file_read` -/

/-- The place where `walk_block` without allocation points for a block holds nought. -/
def FileSt.Missing (s : FileSt) (b : Nat) : Prop :=
  b < 10 ∧ s.fs.mm.Has 2 (blockSlot s.file.inode b) 0 ∨
    (10 ≤ b ∧ b < 1024 * 2 + 10) ∧ s.fs.mm.Has 2 (blockSlot s.file.inode 10) 0 ∧ s.fs.mm.Has 2 0 0

/-- A number is at one place only once. -/
theorem Mm.Has.unique {s : Mm} {n va v v' : Nat} (h : s.Has n va v) (h' : s.Has n va v') :
    v = v' := by
  rw [Mm.Has, h] at h'
  injection h'

/-- A number that code of a file reads. -/
theorem file_load_eq_ok {s s' : FileSt} {n va v : Nat}
    (h : fileFs (fsMm (load n va)) s = .ok v s') : s' = s ∧ s.fs.mm.Has n va v := by
  obtain ⟨f, hf, rfl⟩ := Act.zoom_eq_ok.mp h
  obtain ⟨rfl, hv⟩ := fsMm_load_eq_ok hf
  exact ⟨rfl, hv⟩

theorem blockSlot_ten {b : Nat} (h : 10 ≤ b ∧ b < 1024 * 2 + 10) (p : Nat) :
    blockSlot p ((b - 10) / 2048 + 10) = blockSlot p 10 := by
  rw [show (b - 10) / 2048 = 0 by omega]

/-- The first turn of `file_read`: the rest, once there is a block, takes frames. -/
theorem fileReadTurn_frames {s s' : FileSt} {b : Nat} {r : Int}
    {f : Nat → Option Nat → Nat → Act FileSt Int}
    (hf : ∀ no d blk, Takes (fun s : FileSt => s.fs.mm) (f no d blk))
    (hrun : (fileFs (walkBlock s.file.inode b none 0) >>= fun o => Act.deref o.2 >>= fun ptr =>
      fileFs (fsMm (load 2 ptr)) >>= fun no =>
        if no ≠ 0 then fileFs (bread no) >>= f no o.2 else pure (-1)) s = .ok r s') :
    s.Missing b ∧ s'.fs.mm = s.fs.mm ∨ ¬ s.Missing b ∧ s.fs.mm.TakesMore s'.fs.mm := by
  have hrest : ∀ (d : Option Nat) no, Takes (fun s : FileSt => s.fs.mm)
      (if no ≠ 0 then fileFs (bread no) >>= f no d else pure (-1)) := fun d no => by
    split
    · exact Takes.bind (Takes.fileFs (Takes.bread no)) (hf no d)
    · exact Takes.pure _
  obtain ⟨o, s₁, hwalk, hnext⟩ := Act.bind_eq_ok.mp hrun
  obtain ⟨fs, hfs, rfl⟩ := Act.zoom_eq_ok.mp hwalk
  -- what is at the place is nought, or a block that is read
  have hturn : ∀ (d : Option Nat) ptr, (fileFs (fsMm (load 2 ptr)) >>= fun no =>
      if no ≠ 0 then fileFs (bread no) >>= f no d else pure (-1)) s = .ok r s' →
      s.fs.mm.Has 2 ptr 0 ∧ s' = s ∨
        (∃ no, no ≠ 0 ∧ s.fs.mm.Has 2 ptr no) ∧ s.fs.mm.TakesMore s'.fs.mm := fun d ptr h => by
    obtain ⟨no, s₁, hload, hlast⟩ := Act.bind_eq_ok.mp h
    obtain ⟨rfl, hno⟩ := file_load_eq_ok hload
    by_cases hz : no = 0
    · subst hz
      rw [if_neg fun h => h rfl] at hlast
      injection hlast with _ hs
      exact .inl ⟨hno, hs.symm⟩
    · rw [if_pos hz] at hlast
      exact .inr ⟨⟨no, hz, hno⟩, TakesMore.bind (TakesMore.fileFs (TakesMore.bread no _))
        (hf no d) _ _ hlast⟩
  by_cases hlow : b < 10
  · rw [walkBlock_direct none 0 hlow] at hfs
    injection hfs with ho hfs
    subst ho hfs
    refine (hturn _ _ hnext).imp (fun ⟨hno, hs⟩ => ⟨.inl ⟨hlow, hno⟩, by rw [hs]⟩)
      fun ⟨⟨no, hz, hno⟩, hmore⟩ => ⟨?_, hmore⟩
    rintro (⟨-, hmiss⟩ | ⟨⟨hge, -⟩, -⟩)
    · exact hz (hno.unique hmiss)
    · exact absurd hlow (Nat.not_lt.mpr hge)
  · unfold walkBlock at hfs
    rw [if_neg hlow] at hfs
    by_cases hmid : b < 1024 * 2 + 10
    · have hb := And.intro (Nat.not_lt.mp hlow) hmid
      rw [if_pos hmid, blockSlot_ten hb] at hfs
      obtain ⟨no, s₁, hload, hbelow⟩ := Act.bind_eq_ok.mp hfs
      obtain ⟨rfl, hno⟩ := fsMm_load_eq_ok hload
      by_cases hz : no = 0
      · subst hz
        rw [if_pos rfl, if_neg (by decide)] at hbelow
        injection hbelow with ho hs
        subst ho hs
        refine (hturn _ _ hnext).imp (fun ⟨hno', hs⟩ => ⟨.inr ⟨hb, hno, hno'⟩, by rw [hs]⟩)
          fun ⟨⟨no, hz, hno'⟩, hmore⟩ => ⟨?_, hmore⟩
        rintro (⟨hlt, -⟩ | ⟨-, -, hmiss⟩)
        · exact hlow hlt
        · exact hz (hno'.unique hmiss)
      · rw [if_neg hz] at hbelow
        have hmore := TakesMore.next (Takes.fsMm (Takes.load 2 (blockSlot s.file.inode 10)))
          (fun no s => TakesMore.bind (TakesMore.bread no s) fun blk => Takes.pure _) _ _ hbelow
        have hafter := Takes.bind (Takes.deref o.2) (fun ptr =>
          Takes.bind (Takes.fileFs (Takes.fsMm (Takes.load 2 ptr))) (hrest o.2)) (FileSt.setFs fs s)
        rw [hnext, Res.state_ok] at hafter
        refine .inr ⟨?_, TakesMore.before hmore hafter⟩
        rintro (⟨hlt, -⟩ | ⟨-, hmiss, -⟩)
        · exact hlow hlt
        · exact hz (hno.unique hmiss)
    · rw [if_neg hmid] at hfs
      injection hfs with ho hfs
      subst ho hfs
      cases hnext

/-- A call that has something to read takes a frame, unless the block is missing. -/
theorem fileRead_frames {s s' : FileSt} {buf count : Nat} {offset r : Int}
    (hrun : fileRead buf count offset s = .ok r s') :
    (count = 0 ∨ s.Missing (u32 ((int32 offset).tdiv blkSize))) ∧ s'.fs.mm = s.fs.mm ∨
      ¬ (count = 0 ∨ s.Missing (u32 ((int32 offset).tdiv blkSize))) ∧
        s.fs.mm.TakesMore s'.fs.mm := by
  obtain ⟨t, ht⟩ : ∃ t, t + 1 = 2 ^ 32 := ⟨2 ^ 32 - 1, by decide⟩
  rw [fileRead, ← ht, fileReadLoop] at hrun
  by_cases hlt : 0 < count
  · rw [if_pos hlt, Act.gets_bind_apply, Int.natCast_zero, Int.add_zero] at hrun
    obtain ⟨c, hc⟩ : ∃ c, c = min (blkSize - (int32 offset).tmod blkSize).toNat count := ⟨_, rfl⟩
    have hturn := fileReadTurn_frames
      (f := fun _ d blk => fileFs (fsMm (memcpy buf (ptrAdd blk ((int32 offset).tmod blkSize)) c)) >>=
        fun _ => Act.modify (FileSt.advance c) >>= fun _ =>
          fileReadLoop count offset t ((0 + c) % 2 ^ 32) d (buf + c))
      (fun _ d blk => Takes.bind (Takes.fileFs (Takes.fsMm (Takes.memcpy buf _ _))) fun _ =>
        Takes.bind (Takes.modify fun _ => rfl) fun _ => Takes.fileReadLoop _ _ _ _ d _)
      (by rw [hc]; exact hrun)
    rcases hturn with hturn | hturn
    · exact .inl ⟨.inr hturn.1, hturn.2⟩
    · refine .inr ⟨?_, hturn.2⟩
      rintro (hz | h)
      · exact Nat.ne_of_gt hlt hz
      · exact hturn.1 h
  · rw [if_neg hlt] at hrun
    injection hrun with _ hs
    exact .inl ⟨.inl (Nat.eq_zero_of_not_pos hlt), by rw [hs]⟩

/-! ## `file_write` -/

/-- No block is free. -/
def Fs.Full (s : Fs) : Prop :=
  ∀ no, no < blkSize * 8 → ∃ w, s.mm.Has 4 (s.blkBitmap + 4 * (no / bitLength)) w ∧
    w &&& (1 <<< (no % bitLength)) = 0

/-- `get_free_no` returns a negative value just if no bit is set. -/
theorem getFreeNoLoop_eq_ok {s s' : Mm} {bitmap n blkno : Nat} {r : Int}
    (hrun : getFreeNoLoop bitmap n blkno s = .ok r s') : s' = s ∧ (r < 0 ↔ ∀ no, blkno ≤ no →
      no < blkno + n → ∃ w, s.Has 4 (bitmap + 4 * (no / bitLength)) w ∧
        w &&& (1 <<< (no % bitLength)) = 0) := by
  induction n generalizing blkno with
  | zero =>
    injection hrun with hr hs
    exact ⟨hs.symm, fun _ no h1 h2 => by omega, fun _ => by rw [← hr]; decide⟩
  | succ n ih =>
    rw [getFreeNoLoop] at hrun
    obtain ⟨e, s₁, hempty, hrest⟩ := Act.bind_eq_ok.mp hrun
    obtain ⟨w, s₂, hload, he⟩ := Act.bind_eq_ok.mp hempty
    have hs₂ := load_eq_ok hload
    subst hs₂
    injection he with he hs
    subst hs he
    by_cases hz : w &&& (1 <<< (blkno % bitLength)) = 0
    · rw [if_neg fun h => h hz] at hrest
      obtain ⟨hs, hall⟩ := ih hrest
      refine ⟨hs, hall.trans ⟨fun h no h1 h2 => ?_, fun h no h1 h2 => h no (by omega) (by omega)⟩⟩
      rcases Nat.eq_or_lt_of_le h1 with rfl | hlt
      · exact ⟨w, hload, hz⟩
      · exact h no hlt (by omega)
    · rw [if_pos hz] at hrest
      injection hrest with hr hs
      refine ⟨hs.symm, fun h => ?_, fun h => ?_⟩
      · rw [← hr] at h
        exact absurd h (by omega)
      · obtain ⟨w', hw', hz'⟩ := h blkno (Nat.le_refl _) (by omega)
        rw [Mm.Has.unique hw' hload] at hz'
        exact absurd hz' hz

/-- `get_blk`: a negative value just if no block is free. -/
theorem getBlk_eq_ok {s s' : Fs} {r : Int} (hrun : getBlk s = .ok r s') :
    r < 0 ∧ s.Full ∧ s' = s ∨ ¬ r < 0 ∧ ¬ s.Full := by
  unfold getBlk at hrun
  rw [Act.gets_bind_apply] at hrun
  obtain ⟨bno, s₁, hfree, hrest⟩ := Act.bind_eq_ok.mp hrun
  obtain ⟨m, hm, rfl⟩ := Act.zoom_eq_ok.mp hfree
  obtain ⟨rfl, hall⟩ := getFreeNoLoop_eq_ok hm
  have hfull : s.Full ↔ bno < 0 := by
    refine Iff.trans ⟨fun h no _ h2 => h no (by rwa [Nat.zero_add] at h2), fun h no h2 =>
      h no (Nat.zero_le no) (by rwa [Nat.zero_add])⟩ hall.symm
  by_cases hneg : bno < 0
  · rw [if_pos hneg] at hrest
    injection hrest with hr hs
    exact .inl ⟨by rw [← hr]; decide, hfull.mpr hneg, hs.symm⟩
  · rw [if_neg hneg] at hrest
    obtain ⟨⟨⟩, s₂, -, hend⟩ := Act.bind_eq_ok.mp hrest
    injection hend with hr _
    exact .inr ⟨by rw [← hr]; exact hneg, fun h => hneg (hfull.mp h)⟩

theorem writeBack_more {count stop t c ptr buf : Nat} {i : Int} {diskno : Option Nat} (s : FileSt) :
    TakesMore (fun s : FileSt => s.fs.mm) (writeBack count stop t c ptr buf i diskno) s :=
  TakesMore.next (Takes.fileFs (Takes.fsMm (Takes.load 2 ptr))) fun no s =>
    TakesMore.bind (TakesMore.fileFs (TakesMore.bread no s.fs)) fun pbuf =>
      Takes.bind (Takes.fileFs (Takes.fsMm (Takes.memcpy _ buf c))) fun _ =>
      Takes.bind (Takes.fileFs (Takes.fsMm (Takes.load 2 ptr))) fun _ =>
      Takes.bind (Takes.fileFs (Takes.diskOut pbuf _ _)) fun _ =>
      Takes.bind (Takes.modify fun _ => rfl) fun _ => Takes.fileWriteLoop _ _ _ _ _ _

/-- The first block that is to be written is missing, and none is free to take its place. -/
def FileSt.Stuck (s : FileSt) (b : Nat) : Prop :=
  b < 10 ∧ s.fs.mm.Has 2 (blockSlot s.file.inode b) 0 ∧ s.fs.Full

/-- A block of the indirect part takes a frame, or the code follows no pointer. -/
theorem walkBlock_indirect_more {s s' : Fs} {p b : Nat} {o : Int × Option Nat} (hb : ¬ b < 10)
    (hrun : walkBlock p b none 1 s = .ok o s') : o.2 = none ∨ s.mm.TakesMore s'.mm := by
  have hbelow : ∀ (slot : Nat) (s : Fs), TakesMore Fs.mm (do
      let blk ← bread (← fsMm (load 2 slot))
      return ((0 : Int), some (blk + 2 * ((b - 10) % 2048)))) s := fun slot s =>
    TakesMore.next (Takes.fsMm (Takes.load 2 slot)) fun no s =>
      TakesMore.bind (TakesMore.bread no s) fun blk => Takes.pure _
  unfold walkBlock at hrun
  rw [if_neg hb] at hrun
  split at hrun
  · obtain ⟨no, s₁, hload, hrest⟩ := Act.bind_eq_ok.mp hrun
    obtain ⟨rfl, hno⟩ := fsMm_load_eq_ok hload
    by_cases hz : no = 0
    · rw [if_pos hz, if_pos rfl, Act.gets_bind_apply] at hrest
      obtain ⟨bno, s₂, hfree, halloc⟩ := Act.bind_eq_ok.mp hrest
      obtain ⟨m, hm, rfl⟩ := Act.zoom_eq_ok.mp hfree
      obtain ⟨rfl, -⟩ := getFreeNoLoop_eq_ok hm
      by_cases hneg : bno < 0
      · rw [if_pos hneg] at halloc
        injection halloc with ho _
        exact .inl (by rw [← ho])
      · rw [if_neg hneg] at halloc
        exact .inr (TakesMore.next (Takes.fsMm (Takes.store 2 _ _)) (fun _ s =>
          TakesMore.next (Takes.fsMm (Takes.setBitmap _ _)) fun _ s => hbelow _ s) _ _ halloc)
    · rw [if_neg hz] at hrest
      exact .inr (hbelow _ _ _ _ hrest)
  · injection hrun with ho _
    exact .inl (by rw [← ho])

/-- A call that has something to write takes a frame, unless it is stuck. -/
theorem fileWrite_frames {s s' : FileSt} {buf count : Nat} {r : Int}
    (hrun : fileWrite buf count s = .ok r s') :
    (¬ u32 s.file.offset < u32 (s.file.offset + count) ∨
      s.Stuck (u32 (s.file.offset.tdiv blkSize))) ∧ s'.fs.mm = s.fs.mm ∨
    ¬ (¬ u32 s.file.offset < u32 (s.file.offset + count) ∨
      s.Stuck (u32 (s.file.offset.tdiv blkSize))) ∧ s.fs.mm.TakesMore s'.fs.mm := by
  obtain ⟨t, ht⟩ : ∃ t, t + 1 = 2 ^ 32 := ⟨2 ^ 32 - 1, by decide⟩
  obtain ⟨b, hb⟩ : ∃ b, b = u32 (s.file.offset.tdiv blkSize) := ⟨_, rfl⟩
  rw [fileWrite, Act.gets_bind_apply, ← ht, fileWriteLoop_step] at hrun
  rw [← hb]
  by_cases hlt : u32 s.file.offset < u32 (s.file.offset + count)
  · rw [if_pos hlt, Act.gets_bind_apply, ← hb] at hrun
    obtain ⟨o, s₁, hwalk, hturn⟩ := Act.bind_eq_ok.mp hrun
    obtain ⟨fs, hfs, rfl⟩ := Act.zoom_eq_ok.mp hwalk
    by_cases hlow : b < 10
    · rw [walkBlock_direct none 1 hlow] at hfs
      injection hfs with ho hfs
      subst ho hfs
      rw [writeTurn, Act.deref_bind_apply] at hturn
      obtain ⟨no, s₂, hload, hrest⟩ := Act.bind_eq_ok.mp hturn
      obtain ⟨rfl, hno⟩ := file_load_eq_ok hload
      have hno' : s.fs.mm.Has 2 (blockSlot s.file.inode b) no := hno
      by_cases hz : no = 0
      · rw [if_pos hz] at hrest
        obtain ⟨bno, s₃, hblk, hend⟩ := Act.bind_eq_ok.mp hrest
        obtain ⟨fs, hfs, rfl⟩ := Act.zoom_eq_ok.mp hblk
        obtain ⟨hneg, hfull, rfl⟩ | ⟨hneg, hfull⟩ := getBlk_eq_ok hfs
        · rw [if_pos hneg] at hend
          injection hend with _ hs
          exact .inl ⟨.inr ⟨hlow, hz ▸ hno', hfull⟩, by rw [← hs]; rfl⟩
        · rw [if_neg hneg] at hend
          refine .inr ⟨?_, ?_⟩
          · rintro (h | ⟨-, -, h⟩)
            · exact h hlt
            · exact hfull h
          · have htakes := (Takes.getBlk s.fs : s.fs.mm.Takes (getBlk s.fs).state.mm)
            have hfs' : getBlk s.fs = .ok bno fs := hfs
            rw [hfs', Res.state_ok] at htakes
            exact TakesMore.after htakes (TakesMore.next (Takes.fileFs (Takes.fsMm
              (Takes.store 2 _ _))) (fun _ s => writeBack_more s) _ _ hend)
      · rw [if_neg hz] at hrest
        refine .inr ⟨?_, writeBack_more _ _ _ hrest⟩
        rintro (h | ⟨-, h, -⟩)
        · exact h hlt
        · exact hz (hno'.unique h)
    · refine .inr ⟨?_, ?_⟩
      · rintro (h | ⟨h, -⟩)
        · exact h hlt
        · exact hlow h
      · obtain hnone | hmore := walkBlock_indirect_more hlow hfs
        · rw [hnone] at hturn
          cases hturn
        · have hafter := Takes.writeTurn (fun c : Nat =>
            Takes.fileWriteLoop count (u32 (s.file.offset + count)) t (int32 (s.file.offset + c)) o.2
              (buf + c)) (FileSt.setFs fs s)
          rw [hturn, Res.state_ok] at hafter
          exact TakesMore.before hmore hafter
  · rw [if_neg hlt] at hrun
    injection hrun with _ hs
    exact .inl ⟨.inl hlt, by rw [hs]⟩

/-- A call that leaves the list as it was read no block, if there was a frame. -/
theorem Mm.sameFree_iff {s s' : Mm} {P : Prop} (hl : FreeList s l) (hn : s.npages ≤ 2 ^ 19)
    (h : P ∧ s' = s ∨ ¬ P ∧ s.TakesMore s') : s.SameFree s' ↔ l = [] ∨ P := by
  rcases h with ⟨hp, rfl⟩ | ⟨hp, hmore⟩
  · exact ⟨fun _ => .inr hp, fun _ _ => Iff.rfl⟩
  · rw [hmore.sameFree hl hn]
    exact ⟨.inl, fun h => h.resolve_right hp⟩

/-- LEAK: a call of `walk_path`, `file_read` or `file_write` that returns leaves the
frames that are free as they were just if none was, or it reads no block: the
directory has none, there is nothing to read or the first block is missing, there
is nothing to write or the first block is missing and none is free. -/
theorem file_calls_keep_frames :
    (∀ (s s' : Fs) (fname : Nat) (o : Int × Option Nat), FreeList s.mm l → s.mm.npages ≤ 2 ^ 19 →
      walkPath fname s = .ok o s' → (s.mm.SameFree s'.mm ↔ l = [] ∨ s.Bare)) ∧
    (∀ (s s' : FileSt) (buf count : Nat) (offset r : Int), FreeList s.fs.mm l →
      s.fs.mm.npages ≤ 2 ^ 19 → fileRead buf count offset s = .ok r s' →
      (s.fs.mm.SameFree s'.fs.mm ↔
        l = [] ∨ count = 0 ∨ s.Missing (u32 ((int32 offset).tdiv blkSize)))) ∧
    ∀ (s s' : FileSt) (buf count : Nat) (r : Int), FreeList s.fs.mm l →
      s.fs.mm.npages ≤ 2 ^ 19 → fileWrite buf count s = .ok r s' →
      (s.fs.mm.SameFree s'.fs.mm ↔
        l = [] ∨ ¬ u32 s.file.offset < u32 (s.file.offset + count) ∨
          s.Stuck (u32 (s.file.offset.tdiv blkSize))) := by
  refine ⟨fun s s' fname o hl hn hrun => ?_, fun s s' buf count offset r hl hn hrun =>
    Mm.sameFree_iff hl hn (fileRead_frames hrun), fun s s' buf count r hl hn hrun =>
    Mm.sameFree_iff hl hn (fileWrite_frames hrun)⟩
  refine Mm.sameFree_iff hl hn ((walkPath_frames hrun).imp_left fun ⟨hbare, hs⟩ => ⟨hbare, ?_⟩)
  rw [hs]

end Calls

/-! ## A search that takes a frame -/

section Sample

/-- The search of a directory of one block takes a frame. -/
theorem walk_path_takes : ¬ ∀ (s s' : Fs) (l : List Nat) (fname : Nat) (o : Int × Option Nat),
    FreeList s.mm l → s.mm.npages ≤ 2 ^ 19 → walkPath fname s = .ok o s' →
    s.mm.SameFree s'.mm := by
  intro h
  obtain ⟨f, htook, -, hwalk⟩ := sampleFs_find (c := fun _ => 0)
  have hsame := h _ f _ _ _ sampleFs_list sampleFs_npages hwalk 8
  have hfree := (sampleFs_list (c := fun _ => 0)).mem 8
  have hfree' := htook.free.mem 8
  exact absurd (hfree'.mpr (hsame.mpr (hfree.mp (by decide)))) (by decide)

/-- It is no directory without blocks. -/
theorem file_calls_keep_frames_block : ∃ f,
    walkPath (frameVa 4) (sampleFs fun _ => 0) = .ok (0, some (frameVa 1 + inodeSize * 1)) f ∧
      ((sampleFs fun _ => 0).mm.SameFree f.mm ↔
        [8, 9, 10, 11, 12, 13, 14, 15] = [] ∨ (sampleFs fun _ => 0).Bare) := by
  obtain ⟨f, -, -, hwalk⟩ := sampleFs_find (c := fun _ => 0)
  exact ⟨f, hwalk, file_calls_keep_frames.1 _ _ _ _ sampleFs_list sampleFs_npages hwalk⟩

end Sample

end Myos.Kernel
