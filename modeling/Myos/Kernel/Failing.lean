import Myos.Kernel.CopyOnWrite
import Myos.Kernel.Descriptors
import Myos.Kernel.Exit
import Myos.Kernel.Headers

/-!
# A `sys_execve` that fails

`sys_execve` takes the pages of the caller away before it looks at the file,
and does not look at what `file_open` returned. Whether a call that returns
left the caller as it was is then a matter of two things: that there was no
page to take away, and that no block was read, since each block that is read
keeps a frame for good.

`Calm` is what the code of the file system does to memory as long as
`alloc_page` finds a frame: it fills frames that were free, stores to the buffer
it was given, and lets go of nothing.
-/

namespace Myos.Kernel

open Myos.Lib

/-- The rest of a turn of `walk_path`, once `walk_block` returned. -/
def walkPathAt (p fname n i j : Nat) (r : Int) (diskno : Option Nat) :
    Act Fs (Int × Option Nat) :=
  if r < 0 then return (-2, none)
  else do
    let ptr ← Act.deref diskno
    let no ← fsMm (load 2 ptr)
    if no ≠ 0 then do
      let pdir ← bread no
      match ← walkEntries fname (blkSize / directSize - j) pdir with
      | some inode => return (0, some inode)
      | none => walkPathLoop p fname n (i + 1) (max j (blkSize / directSize)) diskno
    else walkPathLoop p fname n (i + 1) j diskno

/-- A turn of `walk_path`. -/
theorem walkPathLoop_succ (p fname n i j : Nat) (diskno : Option Nat) :
    walkPathLoop p fname (n + 1) i j diskno =
      walkBlock p i diskno 0 >>= fun r => walkPathAt p fname n i j r.1 r.2 := rfl

/-! ## Code that does no more than read blocks -/

/-- What a read of a block keeps, and one after another. -/
structure Fs.Reading (r : Fs → Fs → Prop) : Prop where
  refl : ∀ s, r s s
  trans : ∀ {a b c}, r a b → r b c → r a c
  bread : ∀ no, Act.Within r (bread no)

namespace Fs.Reading

variable {r : Fs → Fs → Prop}

theorem pure {α : Type} (h : Reading r) (a : α) : Act.Within r (Pure.pure a : Act Fs α) :=
  Act.Within.pure h.refl a

theorem bind {α β : Type} (h : Reading r) {x : Act Fs α} {f : α → Act Fs β}
    (hx : Act.Within r x) (hf : ∀ a, Act.Within r (f a)) : Act.Within r (x >>= f) :=
  Act.Within.bind (r := r) (fun h₁ h₂ => h.trans h₁ h₂) hx hf

theorem deref {α : Type} (h : Reading r) (o : Option α) : Act.Within r (Act.deref o) := by
  cases o with
  | none => exact fun s => h.refl s
  | some a => exact h.pure a

/-- Code of memory that stays where it is. -/
theorem fsMm {α : Type} (h : Reading r) {x : Act Mm α} (hx : Act.Within (fun s s' => s' = s) x) :
    Act.Within r (fsMm x) := fun s => by
  rw [Myos.Kernel.fsMm, Act.zoom_state, hx s.mm, Fs.setMm_self]
  exact h.refl s

theorem load (h : Reading r) (n va : Nat) : Act.Within r (Myos.Kernel.fsMm (load n va)) :=
  h.fsMm fun s => by
    unfold Myos.Kernel.load
    cases s.kpa va <;> rfl

theorem strcmpLoop_stays (n s1 s2 : Nat) :
    Act.Within (fun s s' => s' = s) (strcmpLoop n s1 s2) := by
  have hload : ∀ va, Act.Within (fun s s' => s' = s) (Myos.Kernel.load 1 va) := fun va s => by
    unfold Myos.Kernel.load
    cases s.kpa va <;> rfl
  have hbind : ∀ {α β : Type} {x : Act Mm α} {f : α → Act Mm β},
      Act.Within (fun s s' => s' = s) x → (∀ a, Act.Within (fun s s' => s' = s) (f a)) →
      Act.Within (fun s s' => s' = s) (x >>= f) := fun hx hf =>
    Act.Within.bind (r := fun s s' => s' = s) (fun h₁ h₂ => h₂.trans h₁) hx hf
  induction n generalizing s1 s2 with
  | zero => exact Act.Within.stop fun _ => rfl
  | succ n ih =>
    refine hbind (hload s1) fun a => hbind (hload s2) fun b => ?_
    split
    · split
      · exact ih _ _
      · exact fun _ => rfl
    · exact fun _ => rfl

theorem walkEntries (h : Reading r) (fname n pdir : Nat) :
    Act.Within r (walkEntries fname n pdir) := by
  induction n generalizing pdir with
  | zero => exact h.pure _
  | succ n ih =>
    refine h.bind (h.fsMm (strcmpLoop_stays _ _ _)) fun c => ?_
    split
    · exact h.bind (h.load 2 _) fun ino => h.bind (Act.Within.gets h.refl _) fun table => h.pure _
    · exact ih _

theorem walkBlock (h : Reading r) (p fileno : Nat) (diskno : Option Nat) :
    Act.Within r (walkBlock p fileno diskno 0) := by
  unfold Myos.Kernel.walkBlock
  split
  · exact h.pure _
  · split
    · refine h.bind (h.load 2 _) fun no => ?_
      split
      · rw [if_neg (by decide)]
        exact h.pure _
      · exact h.bind (h.load 2 _) fun no => h.bind (h.bread no) fun blk => h.pure _
    · exact h.pure _

theorem walkPathAt (h : Reading r) (p fname n i j : Nat) (c : Int) (diskno : Option Nat)
    (hrest : ∀ j d, Act.Within r (walkPathLoop p fname n (i + 1) j d)) :
    Act.Within r (walkPathAt p fname n i j c diskno) := by
  unfold Myos.Kernel.walkPathAt
  split
  · exact h.pure _
  · refine h.bind (h.deref diskno) fun ptr => h.bind (h.load 2 ptr) fun no => ?_
    split
    · refine h.bind (h.bread no) fun pdir => h.bind (h.walkEntries fname _ pdir) fun o => ?_
      cases o with
      | none => exact hrest _ _
      | some inode => exact h.pure _
    · exact hrest _ _

theorem walkPathLoop (h : Reading r) (p fname n i j : Nat) (diskno : Option Nat) :
    Act.Within r (walkPathLoop p fname n i j diskno) := by
  induction n generalizing i j diskno with
  | zero => exact h.pure _
  | succ n ih =>
    rw [walkPathLoop_succ]
    exact h.bind (h.walkBlock p i diskno) fun c =>
      h.walkPathAt p fname n i j c.1 c.2 fun j d => ih _ j d

theorem walkPath (h : Reading r) (fname : Nat) : Act.Within r (walkPath fname) :=
  h.bind (Act.Within.gets h.refl _) fun _ => h.bind (h.load 4 _) fun _ =>
    h.walkPathLoop _ fname _ 0 0 none

end Fs.Reading

/-! ## Code that stores to free frames and to a buffer -/

/-- Only frames that were free, those in `l`, and the bytes of `B` changed. -/
def Mm.Filled (B : Nat → Prop) (l : List Nat) (s s' : Mm) : Prop :=
  ∃ l', FreeList s' l' ∧ (∀ f, f ∈ l' → f ∈ l) ∧ s'.npages = s.npages ∧ s'.cr3 = s.cr3 ∧
    (∀ x, x / pageSize ∉ l → ¬ B x → s'.mem x = s.mem x) ∧
    ∀ f, f ∉ l → s'.count f = s.count f

/-- So it is unless a call of `alloc_page` found the list empty. -/
structure Mm.Calm (B : Nat → Prop) (s s' : Mm) : Prop where
  starves : s.Starves s'
  served : s'.starved = false → ∀ l, FreeList s l → s.npages ≤ 2 ^ 19 → Filled B l s s'

theorem Mm.Filled.setMem {B : Nat → Prop} {s : Mm} {m : Mem} {l : List Nat} (hl : FreeList s l)
    (h : ∀ x, ¬ B x → m x = s.mem x) : Filled B l s (s.setMem m) :=
  ⟨l, hl.congr rfl rfl rfl, fun _ hf => hf, rfl, rfl, fun x _ hx => h x hx, fun _ _ => rfl⟩

namespace Mm.Calm

variable {B : Nat → Prop} {a b c : Mm}

theorem refl (s : Mm) : s.Calm B s :=
  ⟨Starves.refl s, fun _ l hl _ => ⟨l, hl, fun _ hf => hf, rfl, rfl, fun _ _ _ => rfl,
    fun _ _ => rfl⟩⟩

theorem unstarved (h : a.Calm B b) (hns : b.starved = false) : a.starved = false := by
  by_contra hne
  have hup := h.starves (Bool.eq_true_of_not_eq_false hne)
  rw [hns] at hup
  cases hup

theorem trans (h : a.Calm B b) (h' : b.Calm B c) : a.Calm B c := by
  refine ⟨Starves.trans h.starves h'.starves, fun hc l hl hn => ?_⟩
  have hb := h'.unstarved hc
  obtain ⟨l₁, hl₁, hsub, hn₁, hcr3, hmem, hcount⟩ := h.served hb l hl hn
  obtain ⟨l₂, hl₂, hsub', hn₂, hcr3', hmem', hcount'⟩ := h'.served hc l₁ hl₁ (hn₁ ▸ hn)
  exact ⟨l₂, hl₂, fun f hf => hsub f (hsub' f hf), hn₂.trans hn₁, hcr3'.trans hcr3,
    fun x hx hB => (hmem' x (fun hx' => hx (hsub _ hx')) hB).trans (hmem x hx hB),
    fun f hf => (hcount' f fun hf' => hf (hsub f hf')).trans (hcount f hf)⟩

/-- A store to the buffer. -/
theorem setMem {s : Mm} {m : Mem} (h : ∀ x, ¬ B x → m x = s.mem x) : s.Calm B (s.setMem m) :=
  ⟨fun h => h, fun _ _ hl _ => Filled.setMem hl h⟩

end Mm.Calm

/-- The same of code, over a state that has memory. -/
def Calm {σ α : Type} (B : Nat → Prop) (mm : σ → Mm) (x : Act σ α) : Prop :=
  Act.Within (fun s s' => (mm s).Calm B (mm s')) x

namespace Calm

variable {σ τ α β : Type} {B : Nat → Prop} {mm : σ → Mm}

theorem pure (a : α) : Calm B mm (Pure.pure a : Act σ α) := fun s => Mm.Calm.refl (mm s)

theorem gets (f : σ → α) : Calm B mm (Act.gets f) := fun s => Mm.Calm.refl (mm s)

theorem modify {f : σ → σ} (h : ∀ s, mm (f s) = mm s) : Calm B mm (Act.modify f) := fun s => by
  show (mm s).Calm B (mm (f s))
  rw [h]
  exact Mm.Calm.refl (mm s)

theorem deref (o : Option α) : Calm B mm (Act.deref o) := by
  cases o with
  | none => exact fun s => Mm.Calm.refl (mm s)
  | some a => exact pure a

theorem stop : Calm B mm (Act.stop : Act σ α) := fun s => Mm.Calm.refl (mm s)

theorem bind {x : Act σ α} {f : α → Act σ β} (hx : Calm B mm x) (hf : ∀ a, Calm B mm (f a)) :
    Calm B mm (x >>= f) := Act.Within.bind (fun h h' => h.trans h') hx hf

/-- Code of a part that has the memory, run on the whole. -/
theorem zoom {get : τ → σ} {put : σ → τ → τ} {mm' : τ → Mm} (hget : ∀ t, mm (get t) = mm' t)
    (hput : ∀ s t, mm' (put s t) = mm s) {x : Act σ α} (h : Calm B mm x) :
    Calm B mm' (Act.zoom get put x) := fun t => by
  show (mm' t).Calm B (mm' (Act.zoom get put x t).state)
  rw [Act.zoom_state, hput, ← hget]
  exact h (get t)

theorem fsMm {x : Act Mm α} (h : Calm B id x) : Calm B Fs.mm (fsMm x) :=
  zoom (fun _ => rfl) (fun _ _ => rfl) h

theorem fileFs {x : Act Fs α} (h : Calm B Fs.mm x) :
    Calm B (fun s : FileSt => s.fs.mm) (fileFs x) :=
  zoom (fun _ => rfl) (fun _ _ => rfl) h

theorem load (n va : Nat) : Calm B id (load n va) := fun s => by
  unfold Myos.Kernel.load
  cases s.kpa va <;> exact Mm.Calm.refl s

/-- A copy to a buffer in the direct map. -/
theorem memcpy {pa n : Nat} (src : Nat) (hpa : pa + n ≤ 2 ^ 31)
    (hB : ∀ x, pa ≤ x → x < pa + n → B x) : Calm B id (memcpy (kbase + pa) src n) := fun s => by
  obtain ⟨m, hm, hout⟩ := memcpy_direct_state src s hpa
  show s.Calm B (Myos.Kernel.memcpy (kbase + pa) src n s).state
  rw [hm]
  exact Mm.Calm.setMem fun x hx => hout x (by
    by_contra hin
    exact hx (hB x (by omega) (by omega)))

/-- Wherever a read of the disk ends, it changed memory only. -/
theorem diskIn_state (dest pos n : Nat) (s : Fs) :
    ∃ m : Mem, (diskIn dest pos n s).state = Fs.setMm (s.mm.setMem m) s := by
  induction n generalizing dest pos s with
  | zero => exact ⟨s.mm.mem, rfl⟩
  | succ n ih =>
    unfold diskIn
    rw [Act.gets_bind_apply]
    cases hd : s.mm.kpa dest with
    | none =>
      have hstore : store 1 dest (s.disk pos).toNat s.mm = .fault s.mm := by rw [store, hd]
      have hstore' : Myos.Kernel.fsMm (store 1 dest (s.disk pos).toNat) s = .fault s :=
        Act.zoom_fault hstore
      rw [Act.bind_fault hstore']
      exact ⟨s.mm.mem, rfl⟩
    | some pd =>
      rw [Act.bind_ok (fsMm_ok (store_ok hd))]
      exact ih (dest + 1) (pos + 1) _

/-- A block read stores to the frame it takes. -/
theorem bread (no : Nat) : Calm B Fs.mm (bread no) := by
  intro s
  refine ⟨bread_starves no s, fun hns l hl hn => ?_⟩
  obtain ⟨q, l', s', rfl, hrun, htook, -, -, -⟩ := bread_run hl hn hns
  rw [hrun, Res.state_ok]
  refine ⟨l', htook.free, htook.sub, htook.npages, htook.cr3, fun x hx _ => htook.mem x hx,
    fun f hf => ?_⟩
  have hq : q < 2 ^ 19 := ((hl.mem q).mp List.mem_cons_self).1.trans_le hn
  have hfq : f ≠ q := fun h => hf (h ▸ List.mem_cons_self)
  have halloc := fsMm_ok (allocPage_some hl.chain.of_cons.1 hq : allocPage 0 s.mm = _)
  unfold Myos.Kernel.bread at hrun
  rw [Act.bind_ok halloc, Act.gets_bind_apply] at hrun
  obtain ⟨⟨⟩, s₁, hread, hend⟩ := Act.bind_eq_ok.mp hrun
  injection hend with _ hs
  obtain ⟨m, hm⟩ := diskIn_state (Mm.page2va (Fs.setMm (s.mm.taken 0 q) s).mm (some q))
    (512 * (8 * no)) (512 * 8) (Fs.setMm (s.mm.taken 0 q) s)
  rw [readblk] at hread
  rw [hread, Res.state_ok] at hm
  rw [← hs, hm, Fs.setMm_mm, Mm.setMem_count, Fs.setMm_mm, Mm.taken_count, if_neg hfq]

/-- A read of a block is calm, and so is code that does no more. -/
theorem reading (B : Nat → Prop) : Fs.Reading fun s s' => s.mm.Calm B s'.mm :=
  ⟨fun s => Mm.Calm.refl s.mm, fun h h' => h.trans h', fun no => bread no⟩

theorem walkBlock (p fileno : Nat) (diskno : Option Nat) : Calm B Fs.mm (walkBlock p fileno diskno 0) :=
  (reading B).walkBlock p fileno diskno

theorem walkPath (fname : Nat) : Calm B Fs.mm (walkPath fname) := (reading B).walkPath fname

theorem fileOpen (fname : Nat) : Calm B (fun s : FileSt => s.fs.mm) (fileOpen fname) := by
  refine bind (fileFs (walkPath fname)) fun r => ?_
  dsimp only
  split
  · exact pure _
  · exact bind (deref r.2) fun inode => bind (modify fun _ => rfl) fun _ => pure _

theorem fileReadLoop_end (count : Nat) (offset : Int) (t n : Nat) (d : Option Nat) (buf : Nat)
    (h : ¬ n < count) :
    Calm B (fun s : FileSt => s.fs.mm) (fileReadLoop count offset t n d buf) := fun s => by
  cases t with
  | zero => exact Mm.Calm.refl s.fs.mm
  | succ t =>
    rw [Myos.Kernel.fileReadLoop_end t offset d h]
    exact Mm.Calm.refl s.fs.mm

section One

variable {count o pa pos : Nat}

/-- The only turn of `file_read`, once the block was read. -/
theorem fileReadFrom_one (hcount : count < 2 ^ 32) (hchunk : chunk pos count = count)
    (hpa : pa + count ≤ 2 ^ 31) (hB : ∀ x, pa ≤ x → x < pa + count → B x) (t : Nat)
    (d : Option Nat) (blk : Nat) :
    Calm B (fun s : FileSt => s.fs.mm) (fileReadFrom count o t 0 pos (kbase + pa) d blk) := by
  unfold fileReadFrom
  rw [hchunk, Nat.zero_add, Nat.mod_eq_of_lt hcount]
  exact bind (fileFs (fsMm (memcpy _ hpa hB))) fun _ => bind (modify fun _ => rfl) fun _ =>
    fileReadLoop_end _ _ _ _ _ _ (Nat.lt_irrefl count)

/-- A turn of `file_read` with what follows it. -/
theorem fileReadLoop_turn {n t : Nat} (hlt : n < count) (hpos : o + n < 2 ^ 31)
    (hpa : pa + chunk (o + n) count ≤ 2 ^ 31)
    (hB : ∀ x, pa ≤ x → x < pa + chunk (o + n) count → B x)
    (hrest : ∀ d, Calm B (fun s : FileSt => s.fs.mm) (fileReadLoop count o t
      ((n + chunk (o + n) count) % 2 ^ 32) d (kbase + pa + chunk (o + n) count)))
    (d : Option Nat) :
    Calm B (fun s : FileSt => s.fs.mm) (fileReadLoop count o (t + 1) n d (kbase + pa)) := by
  intro s
  have hat : ∀ d, Calm B (fun s : FileSt => s.fs.mm)
      (fileReadAt count o t n (o + n) (kbase + pa) d) := fun d => by
    refine bind (deref d) fun ptr => bind (fileFs (fsMm (load 2 ptr))) fun no => ?_
    show Calm B _ (if _ then _ else _)
    split
    · exact bind (fileFs (bread no)) fun blk => bind (fileFs (fsMm (memcpy _ hpa hB))) fun _ =>
        bind (modify fun _ => rfl) fun _ => hrest d
    · exact pure _
  rw [fileReadLoop_succ t d hlt hpos]
  exact bind (fileFs (walkBlock s.file.inode _ d)) (fun r => hat r.2) s

/-- A call of `file_read` for a block at most stores to the bytes that it moves. -/
theorem fileRead_span (hlt : 0 < count) (hcount : count ≤ blkSize) (hpos : o + count < 2 ^ 30)
    (hpa : pa + span o count ≤ 2 ^ 31) (hB : ∀ x, pa ≤ x → x < pa + span o count → B x) :
    Calm B (fun s : FileSt => s.fs.mm) (fileRead (kbase + pa) count o) := by
  obtain ⟨t, ht⟩ : ∃ t, t + 1 + 1 + 1 = 2 ^ 32 := ⟨2 ^ 32 - 3, by decide⟩
  rw [fileRead, ← ht]
  rcases span_cases o hcount with ⟨hspan, hchunk⟩ | ⟨c, hc, hlt', hspan, hchunk, hnext⟩
  · rw [hspan] at hpa hB
    refine fileReadLoop_turn hlt (by omega) (by rwa [hchunk]) (by rwa [hchunk]) (fun d => ?_) none
    rw [hchunk, Nat.zero_add, Nat.mod_eq_of_lt (by omega)]
    exact fileReadLoop_end _ _ _ _ _ _ (Nat.lt_irrefl count)
  · rw [hspan] at hpa hB
    refine fileReadLoop_turn hlt (by omega) (by rw [hchunk]; omega)
      (fun x h1 h2 => hB x h1 (by rw [hchunk] at h2; omega)) (fun d => ?_) none
    rw [hchunk, Nat.zero_add, Nat.mod_eq_of_lt (by omega), Nat.add_assoc]
    refine fileReadLoop_turn hlt' (by omega) (by rw [hnext]; omega)
      (fun x h1 h2 => hB x (by omega) (by rw [hnext] at h2; omega)) (fun d => ?_) d
    rw [hnext, Nat.mod_eq_of_lt (by omega)]
    exact fileReadLoop_end _ _ _ _ _ _ (by omega)

end One

end Calm

/-! ## Code that reads a block -/

/-- A frame that was free is taken. -/
def Mm.Spent (s s' : Mm) : Prop := ∃ f, s.count f = 0 ∧ s'.count f ≠ 0

/-- Calm code does not give the frame back. -/
theorem Mm.Spent.calm {B : Nat → Prop} {a b c : Mm} {l : List Nat} (h : a.Spent b)
    (hc : b.Calm B c) (hns : c.starved = false) (hl : FreeList b l) (hn : b.npages ≤ 2 ^ 19) :
    a.Spent c := by
  obtain ⟨q, hz, hq⟩ := h
  obtain ⟨-, -, -, -, -, -, hcount⟩ := hc.served hns l hl hn
  refine ⟨q, hz, ?_⟩
  rw [hcount q fun hmem => hq ((hl.mem q).mp hmem).2]
  exact hq

/-- Code that ends with a frame more than before, unless there was none. -/
structure Spending {σ α : Type} (B : Nat → Prop) (mm : σ → Mm) (x : Act σ α) : Prop where
  calm : Calm B mm x
  spent : ∀ s l, FreeList (mm s) l → (mm s).npages ≤ 2 ^ 19 →
    (mm (x s).state).starved = false → (mm s).Spent (mm (x s).state)

namespace Spending

variable {σ τ α β : Type} {B : Nat → Prop} {mm : σ → Mm}

theorem bread (no : Nat) : Spending B Fs.mm (bread no) := by
  refine ⟨Calm.bread no, fun s l hl hn hns => ?_⟩
  obtain ⟨q, l', s', rfl, hrun, htook, -, hnot, -⟩ := bread_run hl hn hns
  obtain ⟨hq, hz⟩ := (hl.mem q).mp List.mem_cons_self
  rw [hrun, Res.state_ok]
  refine ⟨q, hz, fun hz' => hnot ((htook.free.mem q).mpr ⟨?_, hz'⟩)⟩
  rw [htook.npages]
  exact hq

/-- What comes after does not give the frame back. -/
theorem bind {x : Act σ α} {f : α → Act σ β} (hx : Spending B mm x)
    (hf : ∀ a, Calm B mm (f a)) : Spending B mm (x >>= f) := by
  refine ⟨Calm.bind hx.calm hf, fun s l hl hn hns => ?_⟩
  cases hxs : x s with
  | fault s₁ =>
    rw [Act.bind_fault hxs] at hns ⊢
    have hspent := hx.spent s l hl hn (by rw [hxs]; exact hns)
    rwa [hxs] at hspent
  | ok a s₁ =>
    rw [Act.bind_ok hxs] at hns ⊢
    have hns₁ := (hf a s₁).unstarved hns
    have hcalm := hx.calm s
    have hspent := hx.spent s l hl hn (by rw [hxs]; exact hns₁)
    rw [hxs, Res.state_ok] at hcalm hspent
    obtain ⟨l₁, hl₁, -, hn₁, -⟩ := hcalm.served hns₁ l hl hn
    exact hspent.calm (hf a s₁) hns hl₁ (hn₁ ▸ hn)

theorem fileFs {x : Act Fs α} (h : Spending B Fs.mm x) :
    Spending B (fun s : FileSt => s.fs.mm) (fileFs x) := by
  refine ⟨Calm.fileFs h.calm, fun s l hl hn hns => ?_⟩
  rw [Myos.Kernel.fileFs, Act.zoom_state] at hns ⊢
  exact h.spent s.fs l hl hn hns

end Spending

/-! ## Code that reads no block -/

/-- The root directory has no block `walk_path` would read. -/
def Fs.Bare (s : Fs) : Prop :=
  ∃ size, s.mm.Has 4 (s.inoTable + inodeSize * rootInode + diSizeOff) size ∧
    ∀ b, b < size / blkSize → b ≤ 10 →
      s.mm.Has 2 (blockSlot (s.inoTable + inodeSize * rootInode) b) 0

theorem load_eq_ok {s s' : Mm} {n va v : Nat} (h : load n va s = .ok v s') : s' = s := by
  unfold load at h
  cases hk : s.kpa va with
  | none => rw [hk] at h; cases h
  | some pa => rw [hk] at h; injection h with _ h; exact h.symm

/-- A number that code of the file system reads. -/
theorem fsMm_load_eq_ok {s s' : Fs} {n va v : Nat} (h : fsMm (load n va) s = .ok v s') :
    s' = s ∧ s.mm.Has n va v := by
  obtain ⟨m, hm, hs⟩ := Act.zoom_eq_ok.mp h
  have hm' := load_eq_ok hm
  subst hm'
  exact ⟨hs, hm⟩

section Unread

variable {s s' : Fs} {l : List Nat} {p fname n i j : Nat} {diskno : Option Nat}

/-- Without blocks the directory has no entry with the name. -/
theorem walkPathLoop_bare (fname j : Nat) (diskno : Option Nat) (hi : i ≤ 10)
    (hbare : ∀ b, i ≤ b → b < i + n → b ≤ 10 → s.mm.Has 2 (blockSlot p b) 0) :
    ∃ r : Int, r < 0 ∧ walkPathLoop p fname n i j diskno s = .ok (r, none) s := by
  induction n generalizing i j diskno with
  | zero => exact ⟨-1, by decide, rfl⟩
  | succ n ih =>
    have hslot : fsMm (load 2 (blockSlot p i)) s = .ok 0 s :=
      fsMm_ok (hbare i (Nat.le_refl i) (by omega) hi)
    by_cases hlt : i < 10
    · obtain ⟨r, hr, hrun⟩ := ih j (some (blockSlot p i)) hlt
        fun b h1 h2 h3 => hbare b (by omega) (by omega) h3
      refine ⟨r, hr, ?_⟩
      rw [walkPathLoop_succ, Act.bind_ok (walkBlock_direct diskno 0 hlt), walkPathAt,
        if_neg (Int.lt_irrefl 0), Act.deref_bind_apply, Act.bind_ok hslot,
        if_neg (fun h => h rfl)]
      exact hrun
    · have hten : i = 10 := by omega
      subst hten
      have hwalk : walkBlock p 10 diskno 0 s = .ok (-1, some 0) s := by
        unfold walkBlock
        rw [if_neg (by decide), if_pos (by decide), Act.bind_ok hslot, if_pos rfl,
          if_neg (by decide)]
        rfl
      refine ⟨-2, by decide, ?_⟩
      rw [walkPathLoop_succ, Act.bind_ok hwalk]
      rfl

/-- A search that returns found no block, or comes to the read of one. -/
theorem walkPathLoop_looks {o : Int × Option Nat} (hi : i ≤ 10)
    (hrun : walkPathLoop p fname n i j diskno s = .ok o s') :
    (∀ b, i ≤ b → b < i + n → b ≤ 10 → s.mm.Has 2 (blockSlot p b) 0) ∨
      ∃ no f, walkPathLoop p fname n i j diskno s = (bread no >>= f) s ∧
        ∀ r, Fs.Reading r → ∀ blk, Act.Within r (f blk) := by
  induction n generalizing i j diskno with
  | zero => exact .inl fun b h1 h2 => absurd h2 (by omega)
  | succ n ih =>
    rw [walkPathLoop_succ] at hrun ⊢
    by_cases hlt : i < 10
    · rw [Act.bind_ok (walkBlock_direct diskno 0 hlt), walkPathAt,
        if_neg (Int.lt_irrefl 0), Act.deref_bind_apply] at hrun ⊢
      obtain ⟨no, s₁, hload, hrest⟩ := Act.bind_eq_ok.mp hrun
      obtain ⟨rfl, hno⟩ := fsMm_load_eq_ok hload
      rw [Act.bind_ok hload]
      by_cases hz : no = 0
      · subst hz
        rw [if_neg (fun h => h rfl)] at hrest ⊢
        refine (ih hlt hrest).imp_left fun hbare b h1 h2 h3 => ?_
        rcases Nat.eq_or_lt_of_le h1 with rfl | hlt'
        · exact hno
        · exact hbare b hlt' (by omega) h3
      · rw [if_pos hz]
        refine .inr ⟨no, _, rfl, fun r hr pdir => hr.bind (hr.walkEntries fname _ pdir) fun o => ?_⟩
        cases o with
        | none => exact hr.walkPathLoop _ _ _ _ _ _
        | some inode => exact hr.pure _
    · have hten : i = 10 := by omega
      subst hten
      have hload₁ : ∃ no, s.mm.Has 2 (blockSlot p 10) no := by
        unfold walkBlock at hrun
        rw [if_neg (by decide), if_pos (by decide), Act.bind_assoc] at hrun
        obtain ⟨no, s₁, hload, -⟩ := Act.bind_eq_ok.mp hrun
        exact ⟨no, (fsMm_load_eq_ok hload).2⟩
      obtain ⟨no, hno⟩ := hload₁
      by_cases hz : no = 0
      · subst hz
        refine .inl fun b h1 h2 h3 => ?_
        rw [Nat.le_antisymm h3 h1]
        exact hno
      · have hload : fsMm (load 2 (blockSlot p ((10 - 10) / 2048 + 10))) s = .ok no s :=
          fsMm_ok hno
        refine .inr ⟨no, fun blk => pure (0, some (blk + 2 * ((10 - 10) % 2048))) >>= fun c =>
          walkPathAt p fname n 10 j c.1 c.2, ?_, fun r hr blk => hr.bind (hr.pure _) fun c =>
            hr.walkPathAt p fname n 10 j c.1 c.2 fun j d => hr.walkPathLoop _ _ _ _ _ _⟩
        unfold walkBlock
        rw [if_neg (by decide), if_pos (by decide), Act.bind_assoc, Act.bind_ok hload, if_neg hz,
          Act.bind_assoc, Act.bind_ok hload, Act.bind_assoc]

/-- A search that takes no frame found no block. -/
theorem walkPathLoop_unread {r : Int × Option Nat} (hi : i ≤ 10) (hl : FreeList s.mm l)
    (hn : s.mm.npages ≤ 2 ^ 19) (hrun : walkPathLoop p fname n i j diskno s = .ok r s')
    (hns : s'.mm.starved = false) (hsame : ¬ s.mm.Spent s'.mm) :
    ∀ b, i ≤ b → b < i + n → b ≤ 10 → s.mm.Has 2 (blockSlot p b) 0 := by
  refine (walkPathLoop_looks hi hrun).resolve_right ?_
  rintro ⟨no, f, hread, hf⟩
  have hspend : Spending (fun _ => False) Fs.mm (bread no >>= f) :=
    Spending.bind (Spending.bread no) fun blk => hf _ (Calm.reading _) blk
  rw [hread] at hrun
  have hspent := hspend.spent s l hl hn (by rw [hrun]; exact hns)
  rw [hrun] at hspent
  exact hsame hspent

/-- `walk_path` over a directory without blocks. -/
theorem walkPath_bare (h : s.Bare) (fname : Nat) : ∃ r : Int, r < 0 ∧ walkPath fname s = .ok (r, none) s := by
  obtain ⟨size, hsize, hbare⟩ := h
  obtain ⟨r, hr, hrun⟩ := walkPathLoop_bare (n := size / blkSize) fname 0 none
    (Nat.zero_le 10) fun b _ h2 h3 => hbare b (by omega) h3
  refine ⟨r, hr, ?_⟩
  rw [walkPath, Act.gets_bind_apply, Act.bind_ok (fsMm_ok hsize)]
  exact hrun

theorem walkPath_unread {r : Int × Option Nat} (hl : FreeList s.mm l)
    (hn : s.mm.npages ≤ 2 ^ 19) (hrun : walkPath fname s = .ok r s')
    (hns : s'.mm.starved = false) (hsame : ¬ s.mm.Spent s'.mm) : s.Bare := by
  rw [walkPath, Act.gets_bind_apply] at hrun
  obtain ⟨size, s₁, hload, hrest⟩ := Act.bind_eq_ok.mp hrun
  obtain ⟨rfl, hsize⟩ := fsMm_load_eq_ok hload
  exact ⟨size, hsize, fun b h2 h3 => walkPathLoop_unread (Nat.zero_le 10) hl hn hrest hns hsame b
    (Nat.zero_le b) (by omega) h3⟩

end Unread

section Unread

variable {s s' : FileSt} {l : List Nat} {buf count pa : Nat}

/-- The first turn of `file_read` from the start of a file. -/
theorem fileRead_first (hlt : 0 < count) : fileRead buf count 0 s =
    (fileFs (fsMm (load 2 (blockSlot s.file.inode 0))) >>= fun no =>
      if no ≠ 0 then fileFs (bread no) >>= fun blk =>
        fileReadFrom count (0 : Nat) (2 ^ 32 - 1) 0 0 buf (some (blockSlot s.file.inode 0)) blk
      else pure (-1)) s := by
  rw [fileRead, show (2 : Nat) ^ 32 = 2 ^ 32 - 1 + 1 by decide]
  refine (fileReadLoop_succ (o := 0) (n := 0) (2 ^ 32 - 1) none hlt (by decide)).trans ?_
  rw [Act.bind_ok (fileFs_ok (walkBlock_direct none 0 (by decide)))]
  rfl

/-- A file whose first block is missing is not read. -/
theorem fileRead_missing (hlt : 0 < count) (h : s.fs.mm.Has 2 (blockSlot s.file.inode 0) 0) :
    fileRead buf count 0 s = .ok (-1) s := by
  rw [fileRead_first hlt, Act.bind_ok (fileFs_ok (fsMm_ok h)), if_neg (fun h => h rfl)]
  rfl

/-- A call that takes no frame found no first block. -/
theorem fileRead_unread {r : Int} (hlt : 0 < count) (hone : count ≤ blkSize)
    (hpa : pa + count ≤ 2 ^ 31) (hl : FreeList s.fs.mm l) (hn : s.fs.mm.npages ≤ 2 ^ 19)
    (hrun : fileRead (kbase + pa) count 0 s = .ok r s') (hns : s'.fs.mm.starved = false)
    (hsame : ¬ s.fs.mm.Spent s'.fs.mm) : s.fs.mm.Has 2 (blockSlot s.file.inode 0) 0 := by
  rw [fileRead_first hlt] at hrun
  obtain ⟨no, s₁, hload, hrest⟩ := Act.bind_eq_ok.mp hrun
  obtain ⟨fs, hload', hs₁⟩ := Act.zoom_eq_ok.mp hload
  obtain ⟨rfl, hno⟩ := fsMm_load_eq_ok hload'
  by_cases hz : no = 0
  · subst hz
    exact hno
  · have hs : s₁ = s := hs₁
    rw [if_pos hz, hs] at hrest
    have hspend : Spending (fun x => pa ≤ x ∧ x < pa + count) (fun s : FileSt => s.fs.mm)
        (fileFs (bread no) >>= fun blk => fileReadFrom count (0 : Nat) (2 ^ 32 - 1) 0 0
          (kbase + pa) (some (blockSlot s.file.inode 0)) blk) :=
      Spending.bind (Spending.fileFs (Spending.bread no)) fun blk =>
        Calm.fileReadFrom_one (by omega) (Nat.min_eq_right hone) hpa (fun x h1 h2 => ⟨h1, h2⟩) _ _ blk
    have hspent := hspend.spent s l hl hn (by rw [hrest]; exact hns)
    rw [hrest] at hspent
    exact absurd hspent hsame

end Unread

/-! ## The address spaces meanwhile -/

/-- Bytes that are in no table and on no page of a process. -/
def Aside (m : Mem) (root : Nat → Option Nat) (kdir : Nat) (B : Nat → Prop) : Prop :=
  ∀ x, B x → ¬ IsTable userTop m root (x / pageSize) ∧ x / pageSize ≠ kdir ∧
    userRefs m root (x / pageSize) = 0

/-- The caller of a system call, with `n` bytes of its kernel stack at `pa`. -/
structure Caller (k : KState) (root : Nat → Option Nat) (kdir p g pa n : Nat) : Prop where
  vm : Vm k.mm root kdir ∅
  current : k.current = some p
  rootAt : root p = some g
  pgdir : (k.procs p).pgdir = frameVa g
  direct : pa + n ≤ 2 ^ 31
  aside : Aside k.mm.mem root kdir fun x => pa ≤ x ∧ x < pa + n

namespace Vm

variable {s s' : Mm} {root : Nat → Option Nat} {kdir : Nat} {B : Nat → Prop}

/-- The address spaces are what they were. -/
structure Untouched (root : Nat → Option Nat) (s s' : Mm) : Prop where
  leaf : ∀ {p va}, va < 2 ^ 47 → leaf s'.mem root p va = Myos.Kernel.leaf s.mem root p va
  view : ∀ {p va}, UserVa va → view s'.mem root p va = Myos.Kernel.view s.mem root p va
  table : ∀ f, IsTable userTop s'.mem root f ↔ IsTable userTop s.mem root f

theorem Untouched.aside (h : Untouched root s s') (haside : Aside s.mem root kdir B) :
    Aside s'.mem root kdir B := fun x hx => by
  obtain ⟨h1, h2, h3⟩ := haside x hx
  exact ⟨fun ht => h1 ((h.table _).mp ht), h2,
    (userRefs_congr fun p va _ hva => h.leaf hva.lt).trans h3⟩

/-- What is filled and what is aside is no part of them. -/
theorem filled {held : Finset Nat} (h : Vm s root kdir held) (haside : Aside s.mem root kdir B)
    {l : List Nat} (hl : FreeList s l) (hfill : Mm.Filled B l s s') :
    Vm s' root kdir held ∧ Untouched root s s' := by
  obtain ⟨l', hl', -, hn, -, hmem, hcount⟩ := hfill
  have hframe : ∀ {f o}, f ∉ l → ¬ B (pageSize * f + o) → o < pageSize →
      s'.mem (pageSize * f + o) = s.mem (pageSize * f + o) := by
    intro f o hf hB ho
    refine hmem _ (fun hx => hf ?_) hB
    rwa [Nat.mul_add_div (by decide), Nat.div_eq_of_lt ho, Nat.add_zero] at hx
  have hdiv : ∀ {f o}, o < pageSize → (pageSize * f + o) / pageSize = f := fun ho => by
    rw [Nat.mul_add_div (by decide), Nat.div_eq_of_lt ho, Nat.add_zero]
  have hentry : ∀ {f i}, IsTable userTop s.mem root f ∨ f = kdir → i < 512 →
      Mem.entry s'.mem f i = Mem.entry s.mem f i := by
    intro f i hf hi
    refine Mem.entry_congr hi fun o ho => hframe (fun hfl => ?_) (fun hB => ?_) ho
    · obtain ⟨hlt, hz⟩ := (hl.mem f).mp hfl
      rcases hf with hf | rfl
      · exact (h.tables.inUse hf).2 hz
      · exact h.kdirUse.2 hz
    · obtain ⟨h1, h2, -⟩ := haside _ hB
      rw [hdiv ho] at h1 h2
      exact hf.elim h1 h2
  have hleaf : ∀ {p va}, va < 2 ^ 47 → leaf s'.mem root p va = leaf s.mem root p va :=
    fun hva => leaf_congr (fun hg => hentry (.inl hg)) hva
  refine ⟨h.congr hn ⟨l', hl'⟩ (fun {f} hf => hcount f fun hfl => hf ((hl.mem f).mp hfl).2)
    hentry, hleaf, fun {p va} hva => ?_, isTable_congr fun hq => tableAt_congr
      (fun hpi hg => hentry (.inl ⟨_, _, hpi.init, hg⟩) hpi.last) hq⟩
  unfold view
  rw [hleaf hva.lt]
  cases hf : target (leaf s.mem root p va) with
  | none => rfl
  | some f =>
    refine hframe (fun hfl => h.mapped_not_free hva hf ((hl.mem f).mp hfl)) (fun hB => ?_)
      (Nat.mod_lt _ (by decide))
    obtain ⟨-, -, hz⟩ := haside _ hB
    rw [hdiv (Nat.mod_lt _ (by decide))] at hz
    have hpos := h.refs_pos hva hf
    omega

theorem calm (h : Vm s root kdir ∅) (haside : Aside s.mem root kdir B) (hc : s.Calm B s')
    (hns : s'.starved = false) : Vm s' root kdir ∅ ∧ Untouched root s s' := by
  obtain ⟨l, hl⟩ := h.tables.list
  exact h.filled haside hl (hc.served hns l hl h.tables.small)

/-- Taking pages away leaves what is aside. -/
theorem Unmaps.aside {p : Nat} (h : Unmaps root s s')
    (hr : RemovedTo root kdir p s s' ustacktop) (haside : Aside s.mem root kdir B) :
    Aside s'.mem root kdir B := fun x hx => by
  obtain ⟨h1, h2, h3⟩ := haside x hx
  refine ⟨fun ht => h1 ((h.table _).mp ht), h2, Nat.eq_zero_of_not_pos fun hpos => ?_⟩
  obtain ⟨p', va, hp', hva, hf⟩ := userRefs_pos.mp hpos
  by_cases hpp : p' = p
  · subst hpp
    rw [hr.below hva hva.2, target_zero] at hf
    cases hf
  · rw [hr.leaf hpp hva] at hf
    have := userRefs_pos.mpr ⟨p', va, hp', hva, hf⟩
    omega

end Vm

/-! ## `sys_execve` that returns -/

/-- The state once `sys_execve` cleared its buffer. -/
def blanked (pa : Nat) (s : Fs) : Fs := Fs.setMm (s.mm.setMem (s.mm.mem.fill pa 128 0)) s

/-- What the caller had before the call, it has after it. -/
structure Intact (root : Nat → Option Nat) (p : Nat) (k k' : KState) : Prop where
  leaf : ∀ {va}, UserVa va → leaf k'.mm.mem root p va = Myos.Kernel.leaf k.mm.mem root p va
  view : ∀ {va}, UserVa va → view k'.mm.mem root p va = Myos.Kernel.view k.mm.mem root p va
  pgdir : (k'.procs p).pgdir = (k.procs p).pgdir
  pregs : (k'.procs p).pregs = (k.procs p).pregs
  count : ∀ f, k'.mm.count f = k.mm.count f

section Return

variable {k k' : KState} {root : Nat → Option Nat} {kdir p g pa filename : Nat} {pfile : File}

/-- The steps of `sys_execve` up to the look at what was read. -/
structure Looked (pa filename g : Nat) (s₀ s₁ s₂ s₃ : FileSt) : Prop where
  opened : ∃ r, fileOpen filename (FileSt.setFs (blanked pa s₀.fs) s₀) = .ok r s₁
  removed : fileFs (fsMm (removePages (frameVa g) (turns utext ustacktop) utext)) s₁ = .ok () s₂
  read : ∃ r, fileRead (kbase + pa) 128 0 s₂ = .ok r s₃

theorem isElf_eq_ok {s s' : Mm} {b : Bool} {binary : Nat} (h : isElf binary s = .ok b s') :
    s' = s := by
  unfold isElf at h
  obtain ⟨b0, s₁, h0, h1⟩ := Act.bind_eq_ok.mp h
  obtain ⟨b1, s₂, h2, h3⟩ := Act.bind_eq_ok.mp h1
  obtain ⟨b2, s₃, h4, h5⟩ := Act.bind_eq_ok.mp h3
  obtain ⟨b3, s₄, h6, h7⟩ := Act.bind_eq_ok.mp h5
  rw [Act.pure_apply] at h7
  injection h7 with _ h7
  rw [← h7, load_eq_ok h6, load_eq_ok h4, load_eq_ok h2, load_eq_ok h0]

/-- A buffer that starts with nought is no ELF header. -/
theorem isElf_zero {s : Mm} (hpa : pa + 128 ≤ 2 ^ 31) (h : s.mem pa = 0) :
    isElf (kbase + pa) s = .ok false s := by
  have h0 : load 1 (kbase + pa) s = .ok 0 s := by
    rw [load_byte (by omega), h]
    rfl
  unfold isElf
  rw [Act.bind_ok h0, Nat.add_assoc kbase, Nat.add_assoc kbase, Nat.add_assoc kbase,
    Act.bind_ok (load_byte (by omega)), Act.bind_ok (load_byte (by omega)),
    Act.bind_ok (load_byte (by omega))]
  rfl

theorem memset_blanked {s : FileSt} (hpa : pa + 128 ≤ 2 ^ 31) :
    fileFs (fsMm (memset (kbase + pa) 0 128)) s =
      .ok () (FileSt.setFs (blanked pa s.fs) s) :=
  fileFs_ok (fsMm_ok (memset_direct hpa))

/-- A call that returns came to the look, and saw no magic. -/
theorem execLoad_none {s s' : FileSt} (hpa : pa + 128 ≤ 2 ^ 31)
    (h : execLoad filename (frameVa g) (kbase + pa) s = .ok none s') :
    ∃ s₁ s₂, Looked pa filename g s s₁ s₂ s' := by
  unfold execLoad at h
  rw [Act.bind_ok (memset_blanked hpa)] at h
  obtain ⟨r, s₁, hopen, h⟩ := Act.bind_eq_ok.mp h
  obtain ⟨⟨⟩, s₂, hremove, h⟩ := Act.bind_eq_ok.mp h
  obtain ⟨r', s₃, hread, h⟩ := Act.bind_eq_ok.mp h
  obtain ⟨b, s₄, helf, h⟩ := Act.bind_eq_ok.mp h
  have hs₄ : s₄ = s₃ := by
    obtain ⟨fs, hfs, hs₄⟩ := Act.zoom_eq_ok.mp helf
    obtain ⟨m, hm, hfs'⟩ := Act.zoom_eq_ok.mp hfs
    rw [hs₄, hfs', isElf_eq_ok hm]
    rfl
  subst hs₄
  cases b with
  | true =>
    rw [if_pos rfl] at h
    obtain ⟨_, _, -, h⟩ := Act.bind_eq_ok.mp h
    obtain ⟨_, _, -, h⟩ := Act.bind_eq_ok.mp h
    obtain ⟨_, _, -, h⟩ := Act.bind_eq_ok.mp h
    obtain ⟨_, _, -, h⟩ := Act.bind_eq_ok.mp h
    obtain ⟨_, _, -, h⟩ := Act.bind_eq_ok.mp h
    obtain ⟨_, _, -, h⟩ := Act.bind_eq_ok.mp h
    injection h with h _
    cases h
  | false =>
    rw [if_neg (by decide)] at h
    injection h with _ h
    subst h
    exact ⟨s₁, s₂, ⟨r, hopen⟩, hremove, r', hread⟩

/-- What a call that returns leaves of the kernel's state. -/
theorem sysExecve_ret {r : Int} (hc : Caller k root kdir p g pa 128)
    (h : sysExecve (kbase + pa) pfile filename k = .ok (.ret r) k') :
    ∃ s₁ s₂ s₃, Looked pa filename g ⟨k.fs, pfile⟩ s₁ s₂ s₃ ∧ r = -1 ∧
      k' = { k with fs := s₃.fs } := by
  unfold sysExecve at h
  rw [Act.bind_ok (currentProc_ok hc.current), Act.gets_bind_apply, hc.pgdir] at h
  obtain ⟨o, k₁, hload, h⟩ := Act.bind_eq_ok.mp h
  obtain ⟨s₃, hload', hk₁⟩ := Act.zoom_eq_ok.mp hload
  cases o with
  | some entry =>
    obtain ⟨_, _, -, h⟩ := Act.bind_eq_ok.mp h
    obtain ⟨_, _, -, h⟩ := Act.bind_eq_ok.mp h
    rw [Act.pure_apply] at h
    injection h with h _
    cases h
  | none =>
    dsimp only at h
    rw [Act.pure_apply] at h
    injection h with h hk
    injection h with h
    obtain ⟨s₁, s₂, hlook⟩ := execLoad_none hc.direct hload'
    exact ⟨s₁, s₂, s₃, hlook, h.symm, hk.symm.trans hk₁⟩

theorem removePages_starves (pgdir n addr : Nat) :
    Act.Within Mm.Starves (removePages pgdir n addr) := by
  induction n generalizing addr with
  | zero => exact Starves.pure _
  | succ n ih => exact Starves.bind (removePage_starves pgdir addr) fun _ => ih _

/-- The loop over the user addresses, from its start. -/
theorem Vm.removePages_all {s : Mm} {r : Mm → Mm → Prop} (h : Vm s root kdir ∅)
    (hroot : root p = some g) (hrefl : ∀ s, r s s) (htrans : ∀ {a b c}, r a b → r b c → r a c)
    (hremove : ∀ {s s' : Mm} {va f : Nat} {o : Int}, Vm s root kdir ∅ → UserVa va →
      target (leaf s.mem root p va) = some f → removePage (frameVa g) va s = .ok o s' → r s s') :
    ∃ s', removePages (frameVa g) (turns utext ustacktop) utext s = .ok () s' ∧
      Vm.RemovedTo root kdir p s s' ustacktop ∧ r s s' := by
  have hstart : Vm.RemovedTo root kdir p s s utext := ⟨h, rfl, rfl, fun _ _ => rfl, fun _ _ => rfl,
    fun {va} hva hlt => absurd hva.1 (Nat.not_le_of_lt hlt)⟩
  have hturns : utext + pageSize * turns utext ustacktop = ustacktop := by decide
  have hrun := Vm.removePages_along hrefl htrans hroot hremove hstart (by decide)
    (Nat.le_refl utext) (Nat.le_of_eq hturns)
  rwa [hturns] at hrun

/-- Where there is no page, nothing is taken away. -/
theorem Vm.removePages_none {s : Mm} (h : Vm s root kdir ∅) (hroot : root p = some g)
    (hz : ∀ va, UserVa va → leaf s.mem root p va = 0) :
    removePages (frameVa g) (turns utext ustacktop) utext s = .ok () s := by
  obtain ⟨s', hrun, -, hsame⟩ := h.removePages_all
    (r := fun s s' => (∀ va, UserVa va → leaf s.mem root p va = 0) → s' = s) hroot
    (fun _ _ => rfl) (fun hab hbc hz => by rw [hbc (by rw [hab hz]; exact hz), hab hz])
    fun _ hva hf _ hz => by rw [hz _ hva, target_zero] at hf; cases hf
  rwa [hsame hz] at hrun

/-- The address spaces on the way. -/
theorem Looked.spaces {s₁ s₂ s₃ : FileSt} (hc : Caller k root kdir p g pa 128)
    (h : Looked pa filename g ⟨k.fs, pfile⟩ s₁ s₂ s₃) (hns : s₃.fs.mm.starved = false) :
    k.mm.Calm (fun x => pa ≤ x ∧ x < pa + 128) s₁.fs.mm ∧ Vm s₁.fs.mm root kdir ∅ ∧
      Vm.Untouched root k.mm s₁.fs.mm ∧ Vm.RemovedTo root kdir p s₁.fs.mm s₂.fs.mm ustacktop ∧
      s₂.fs.mm.Calm (fun x => pa ≤ x ∧ x < pa + 128) s₃.fs.mm ∧
      Vm.Untouched root s₂.fs.mm s₃.fs.mm := by
  obtain ⟨⟨r, hopen⟩, hremove, r', hread⟩ := h
  have hB : ∀ x, pa ≤ x → x < pa + 128 → pa ≤ x ∧ x < pa + 128 := fun x h1 h2 => ⟨h1, h2⟩
  -- the read is calm, and what came before it found frames too
  have hcalm₃ : s₂.fs.mm.Calm (fun x => pa ≤ x ∧ x < pa + 128) s₃.fs.mm := by
    have hone : Calm (fun x => pa ≤ x ∧ x < pa + 128) (fun s : FileSt => s.fs.mm)
        (fileRead (kbase + pa) 128 (0 : Nat)) :=
      Calm.fileRead_span (by decide) (by decide) (by decide) hc.direct hB
    have hcalm := hone s₂
    rwa [Int.natCast_zero, hread, Res.state_ok] at hcalm
  obtain ⟨fs₂, hfs₂, hs₂⟩ := Act.zoom_eq_ok.mp hremove
  obtain ⟨m₂, hm₂, hfs₂'⟩ := Act.zoom_eq_ok.mp hfs₂
  have hmm₂ : s₂.fs.mm = m₂ := by rw [hs₂, hfs₂']; rfl
  have hns₁ : s₁.fs.mm.starved = false := by
    by_contra hne
    have hup := removePages_starves (frameVa g) (turns utext ustacktop) utext s₁.fs.mm
      (Bool.eq_true_of_not_eq_false hne)
    rw [hm₂, Res.state_ok, ← hmm₂, hcalm₃.unstarved hns] at hup
    cases hup
  have hcalm₁ : k.mm.Calm (fun x => pa ≤ x ∧ x < pa + 128) s₁.fs.mm := by
    have hblank : k.mm.Calm (fun x => pa ≤ x ∧ x < pa + 128) (blanked pa k.fs).mm :=
      Mm.Calm.setMem fun x hx => Mem.overlay_out (by omega)
    have hcalm := Calm.fileOpen (B := fun x => pa ≤ x ∧ x < pa + 128) filename
      (FileSt.setFs (blanked pa k.fs) ⟨k.fs, pfile⟩)
    rw [hopen, Res.state_ok] at hcalm
    exact hblank.trans hcalm
  obtain ⟨hvm₁, huntouched₁⟩ := hc.vm.calm hc.aside hcalm₁ hns₁
  obtain ⟨m, hrun, hremoved, hunmaps⟩ := hvm₁.removePages_all hc.rootAt Vm.Unmaps.refl
    Vm.Unmaps.trans fun hvm hva hf hrun => Vm.removePage_unmaps hvm hc.rootAt hva hf hrun
  have hm : m = s₂.fs.mm := by
    rw [hm₂] at hrun
    injection hrun with _ hm
    rw [← hm, hmm₂]
  rw [hm] at hremoved hunmaps
  exact ⟨hcalm₁, hvm₁, huntouched₁, hremoved, hcalm₃, (hremoved.vm.calm
    (hunmaps.aside hremoved (huntouched₁.aside hc.aside)) hcalm₃ hns).2⟩

/-- The user pages of the caller are gone when `sys_execve` returns. -/
theorem sysExecve_unmaps {r : Int} (hc : Caller k root kdir p g pa 128)
    (hrun : sysExecve (kbase + pa) pfile filename k = .ok (.ret r) k')
    (hns : k'.mm.starved = false) {va : Nat} (hva : UserVa va) :
    leaf k'.mm.mem root p va = 0 := by
  obtain ⟨s₁, s₂, s₃, hlook, -, rfl⟩ := sysExecve_ret hc hrun
  obtain ⟨-, -, -, hremoved, -, huntouched⟩ := hlook.spaces hc hns
  exact (huntouched.leaf hva.lt).trans (hremoved.below hva hva.2)

/-- No page of the caller is mapped, and no block is read: the root directory has
none, and the inode pointer left on the stack leads to none. -/
structure Idle (k : KState) (root : Nat → Option Nat) (p pa : Nat) (pfile : File) : Prop where
  pages : ∀ va, UserVa va → leaf k.mm.mem root p va = 0
  bare : (blanked pa k.fs).Bare
  inode : (blanked pa k.fs).mm.Has 2 (blockSlot pfile.inode 0) 0

/-- A file that is opened was found by `walk_path`. -/
theorem fileOpen_walks {s s' : FileSt} {r : Int} (h : fileOpen filename s = .ok r s') :
    ∃ o, walkPath filename s.fs = .ok o s'.fs ∧ (o.1 < 0 → s' = FileSt.setFs s'.fs s) := by
  unfold fileOpen at h
  obtain ⟨o, s₁, hwalk, hrest⟩ := Act.bind_eq_ok.mp h
  obtain ⟨fs, hfs, hs₁⟩ := Act.zoom_eq_ok.mp hwalk
  refine ⟨o, ?_, fun ho => ?_⟩
  · dsimp only at hrest
    split at hrest
    · rw [Act.pure_apply] at hrest
      injection hrest with _ hrest
      rw [← hrest, hs₁, hfs]
      rfl
    · obtain ⟨i, s₂, hi, hrest⟩ := Act.bind_eq_ok.mp hrest
      have hs₂ : s₂ = s₁ := by
        cases hd : o.2 with
        | none => rw [hd] at hi; cases hi
        | some a => rw [hd] at hi; injection hi with _ hi; exact hi.symm
      rw [Act.modify_bind_apply, Act.pure_apply] at hrest
      injection hrest with _ hrest
      rw [← hrest, hs₂, hs₁, hfs]
      rfl
  · dsimp only at hrest
    rw [if_pos ho, Act.pure_apply] at hrest
    injection hrest with _ hrest
    rw [← hrest, hs₁]
    rfl

/-- A call that returns and leaves all as it was had nothing to take away, and read
nothing. -/
theorem Intact.idle {r : Int} (hc : Caller k root kdir p g pa 128)
    (hrun : sysExecve (kbase + pa) pfile filename k = .ok (.ret r) k')
    (hns : k'.mm.starved = false) (h : Intact root p k k') : Idle k root p pa pfile := by
  have hpages : ∀ va, UserVa va → Myos.Kernel.leaf k.mm.mem root p va = 0 := fun va hva =>
    (h.leaf hva).symm.trans (sysExecve_unmaps hc hrun hns hva)
  obtain ⟨s₁, s₂, s₃, hlook, -, rfl⟩ := sysExecve_ret hc hrun
  obtain ⟨hcalm₁, hvm₁, huntouched₁, hremoved, hcalm₃, -⟩ := hlook.spaces hc hns
  obtain ⟨⟨r₁, hopen⟩, hremove, r₃, hread⟩ := hlook
  -- without pages the loop that takes them away does nothing
  have hs₂ : s₂ = s₁ := by
    have hnone := fileFs_ok (fsMm_ok (hvm₁.removePages_none hc.rootAt fun va hva =>
      (huntouched₁.leaf hva.lt).trans (hpages va hva)))
    rw [hremove] at hnone
    injection hnone with _ hnone
  rw [hs₂] at hread hcalm₃
  have hns₁ := hcalm₃.unstarved hns
  obtain ⟨l, hl⟩ := hc.vm.tables.list
  obtain ⟨l₁, hl₁, -, hn₁, -, -, hcount₁⟩ := hcalm₁.served hns₁ l hl hc.vm.tables.small
  have hsmall₁ : s₁.fs.mm.npages ≤ 2 ^ 19 := hn₁ ▸ hc.vm.tables.small
  -- a frame taken on the way is one more at the end
  have hsame : ¬ k.mm.Spent s₃.fs.mm := fun hspent => by
    obtain ⟨f, hz, hf⟩ := hspent
    exact hf ((h.count f).trans hz)
  have hbare : (blanked pa k.fs).Bare := by
    obtain ⟨o, hwalk, -⟩ := fileOpen_walks hopen
    exact walkPath_unread (hl.congr rfl rfl rfl) hc.vm.tables.small hwalk hns₁ fun hspent =>
      hsame (Mm.Spent.calm hspent hcalm₃ hns hl₁ hsmall₁)
  refine ⟨hpages, hbare, ?_⟩
  have hs₁ : s₁ = FileSt.setFs (blanked pa k.fs) ⟨k.fs, pfile⟩ := by
    obtain ⟨o, hwalk, hfail⟩ := fileOpen_walks hopen
    obtain ⟨r, hr, hwalk'⟩ := walkPath_bare hbare filename
    have hwalk₁ : walkPath filename (blanked pa k.fs) = .ok o s₁.fs := hwalk
    rw [hwalk'] at hwalk₁
    injection hwalk₁ with ho hfs
    rw [hfail (by rw [← ho]; exact hr), ← hfs]
    rfl
  have hhas := fileRead_unread (by decide) (by decide) hc.direct hl₁ hsmall₁ hread hns
    fun hspent => hsame (by
      obtain ⟨f, hz, hf⟩ := hspent
      refine ⟨f, ?_, hf⟩
      by_contra hne
      rw [hcount₁ f fun hfl => hne ((hl.mem f).mp hfl).2] at hz
      exact hne hz)
  rwa [hs₁] at hhas

/-- The buffer is no part of the address spaces. -/
theorem Caller.blanked (hc : Caller k root kdir p g pa 128) :
    Vm (blanked pa k.fs).mm root kdir ∅ ∧ Vm.Untouched root k.mm (blanked pa k.fs).mm := by
  obtain ⟨l, hl⟩ := hc.vm.tables.list
  exact hc.vm.filled hc.aside hl (Mm.Filled.setMem hl fun x hx => Mem.overlay_out (by omega))

/-- Without pages and without blocks to read, nothing happens but for the buffer. -/
theorem Idle.run (hc : Caller k root kdir p g pa 128) (h : Idle k root p pa pfile) :
    sysExecve (kbase + pa) pfile filename k =
      .ok (.ret (-1)) { k with fs := Myos.Kernel.blanked pa k.fs } := by
  obtain ⟨r, hr, hwalk⟩ := walkPath_bare h.bare filename
  obtain ⟨hvm, huntouched⟩ := hc.blanked
  obtain ⟨fs, hfs⟩ : ∃ fs, fs = Myos.Kernel.blanked pa k.fs := ⟨_, rfl⟩
  have hopen : fileOpen filename ⟨fs, pfile⟩ = .ok r ⟨fs, pfile⟩ := by
    unfold fileOpen
    rw [Act.bind_ok (fileFs_ok (s := ⟨fs, pfile⟩) (by rw [hfs]; exact hwalk)), hfs]
    dsimp only
    rw [if_pos hr]
    rfl
  have hremove : fileFs (fsMm (removePages (frameVa g) (turns utext ustacktop) utext))
      ⟨fs, pfile⟩ = .ok () ⟨fs, pfile⟩ := by
    have hnone := hvm.removePages_none hc.rootAt fun va hva =>
      (huntouched.leaf hva.lt).trans (h.pages va hva)
    rw [← hfs] at hnone
    exact fileFs_ok (s := ⟨fs, pfile⟩) (fsMm_ok hnone)
  have hread : fileRead (kbase + pa) 128 0 ⟨fs, pfile⟩ = .ok (-1) ⟨fs, pfile⟩ :=
    fileRead_missing (by decide) (by rw [hfs]; exact h.inode)
  have helf : fileFs (fsMm (isElf (kbase + pa))) ⟨fs, pfile⟩ = .ok false ⟨fs, pfile⟩ := by
    have hzero : fs.mm.mem pa = 0 := by
      rw [hfs]
      show (k.fs.mm.mem.fill pa 128 0) pa = 0
      rw [Mem.fill, Mem.overlay_in ⟨Nat.le_refl pa, by omega⟩]
    exact fileFs_ok (s := ⟨fs, pfile⟩) (fsMm_ok (isElf_zero hc.direct hzero))
  have hload : execLoad filename (frameVa g) (kbase + pa) ⟨k.fs, pfile⟩ = .ok none ⟨fs, pfile⟩ := by
    have hset := memset_blanked (s := ⟨k.fs, pfile⟩) hc.direct
    rw [← hfs] at hset
    unfold execLoad
    rw [Act.bind_ok hset]
    show (fileOpen filename >>= _) ⟨fs, pfile⟩ = _
    rw [Act.bind_ok hopen, Act.bind_ok hremove, Act.bind_ok hread, Act.bind_ok helf,
      if_neg (by decide)]
    rfl
  unfold sysExecve
  rw [Act.bind_ok (currentProc_ok hc.current), Act.gets_bind_apply, hc.pgdir]
  have hlocal : onLocalFile pfile (execLoad filename (frameVa g) (kbase + pa)) k =
      .ok none { k with fs := fs } := Act.zoom_eq_ok.mpr ⟨⟨fs, pfile⟩, hload, rfl⟩
  rw [Act.bind_ok hlocal, hfs]
  rfl

/-- `sys_execve` returns a negative value with the caller's address space, registers
and frame counts as before just if no page of the caller is mapped and no block is
read. -/
theorem failing_execve_intact (hc : Caller k root kdir p g pa 128)
    (hserved : ∀ r k', sysExecve (kbase + pa) pfile filename k = .ok (.ret r) k' →
      k'.mm.starved = false) :
    (∃ r k', sysExecve (kbase + pa) pfile filename k = .ok (.ret r) k' ∧ r < 0 ∧
      Intact root p k k') ↔ Idle k root p pa pfile := by
  constructor
  · rintro ⟨r, k', hrun, -, hintact⟩
    exact hintact.idle hc hrun (hserved r k' hrun)
  · intro hidle
    obtain ⟨-, huntouched⟩ := hc.blanked
    exact ⟨-1, _, hidle.run hc, by decide, fun hva => huntouched.leaf hva.lt,
      fun hva => huntouched.view hva, rfl, rfl, fun _ => rfl⟩

/-- The frames that were free before the pages were taken away still are. -/
theorem Vm.Unmaps.free {s s' : Mm} (h : Vm.Unmaps root s s') (hvm : Vm s root kdir ∅)
    (hr : Vm.RemovedTo root kdir p s s' ustacktop) {f : Nat} (hz : s.count f = 0) :
    s'.count f = 0 := by
  have hnone : ∀ {m : Mem}, (∀ p' va, UserVa va → target (leaf m root p' va) = some f →
      target (leaf s.mem root p' va) = some f) → userRefs m root f = 0 := by
    intro m hm
    by_contra hne
    obtain ⟨p', va, hp', hva, hf⟩ := userRefs_pos.mp (Nat.pos_of_ne_zero hne)
    have hpos := hvm.refs_pos hva (hm p' va hva hf)
    have hc := (hvm.mapped hva (hm p' va hva hf)).2.2.2
    omega
  have h0 := hnone (m := s.mem) fun _ _ _ hf => hf
  have h1 := hnone (m := s'.mem) fun p' va hva hf => by
    by_cases hp : p' = p
    · subst hp
      rw [hr.below hva hva.2, target_zero] at hf
      cases hf
    · rwa [hr.leaf hp hva] at hf
  have hc := h.count f
  rw [h0, h1, hz] at hc
  simpa using hc

/-- With two frames to spare no call of `alloc_page` fails, as long as the directory
has no blocks. -/
theorem Looked.served {s₁ s₂ s₃ : FileSt} (hc : Caller k root kdir p g pa 128)
    (hbare : (blanked pa k.fs).Bare) (hns : k.mm.starved = false) {f f' : Nat} (hne : f ≠ f')
    (hf : k.mm.Free f) (hf' : k.mm.Free f')
    (h : Looked pa filename g ⟨k.fs, pfile⟩ s₁ s₂ s₃) : s₃.fs.mm.starved = false := by
  obtain ⟨⟨r, hopen⟩, hremove, r', hread⟩ := h
  obtain ⟨hvm, -⟩ := hc.blanked
  have hfs₁ : s₁.fs = blanked pa k.fs := by
    obtain ⟨o, hwalk, -⟩ := fileOpen_walks hopen
    obtain ⟨r, -, hwalk'⟩ := walkPath_bare hbare filename
    have hwalk₁ : walkPath filename (blanked pa k.fs) = .ok o s₁.fs := hwalk
    rw [hwalk'] at hwalk₁
    injection hwalk₁ with _ hfs
    exact hfs.symm
  obtain ⟨m, hrun, hremoved, hunmaps⟩ := hvm.removePages_all hc.rootAt Vm.Unmaps.refl
    Vm.Unmaps.trans fun hvm hva hf hrun => Vm.removePage_unmaps hvm hc.rootAt hva hf hrun
  have hs₂ : s₂.fs.mm = m := by
    rw [← hfs₁] at hrun
    rw [fileFs_ok (fsMm_ok hrun)] at hremove
    injection hremove with _ hremove
    rw [← hremove]
    rfl
  rw [← hs₂] at hremoved hunmaps
  obtain ⟨l, hl⟩ := hremoved.vm.tables.list
  have hn : s₂.fs.mm.npages = k.mm.npages := hunmaps.npages
  have hmem : ∀ {n}, k.mm.Free n → n ∈ l := fun {n} hfree =>
    (hl.mem n).mpr ⟨hn ▸ hfree.1, hunmaps.free hvm hremoved hfree.2⟩
  have hlen : 2 ≤ l.length := by
    have h1 := hmem hf
    have h2 := hmem hf'
    match l, h1, h2 with
    | [a], h1, h2 =>
      exact absurd ((List.mem_singleton.mp h1).trans (List.mem_singleton.mp h2).symm) hne
    | _ :: _ :: _, _, _ => exact Nat.le_add_left 2 _
  have hspends : Spends (fun s : FileSt => s.fs.mm) 2 (fileRead (kbase + pa) 128 (0 : Nat)) :=
    fileRead_one_spends (o := 0) (by decide) (by decide)
  have hserved := (hspends s₂ l hl (hn ▸ hc.vm.tables.small) hlen
    (hremoved.starved.trans hns)).1
  rwa [Int.natCast_zero, hread, Res.state_ok] at hserved

end Return

/-! ## A process that calls `sys_execve` -/

section Sample

/-- One process runs, with a page for its stack; the root directory is empty, and
the kernel's stack is frame 0. -/
def sampleCaller : KState := { sampleKernel with fs := { sampleKernel.fs with inoTable := frameVa 1 } }

theorem sampleCaller_mm : sampleCaller.mm = sampleKernel.mm := by
  unfold sampleCaller KState.mm
  dsimp only

theorem sampleCaller_caller : Caller sampleCaller sampleRoot 1 0 2 0 128 := by
  have hmem : sampleCaller.mm.mem = sampleMem := by rw [sampleCaller_mm]; rfl
  refine ⟨by rw [sampleCaller_mm]; exact sampleKernel_start.cow.vm, rfl, rfl, rfl, by decide,
    fun x hx => ?_⟩
  have hzero : x / pageSize = 0 := Nat.div_eq_of_lt (by unfold pageSize; omega)
  rw [hzero, hmem]
  refine ⟨?_, by decide, ?_⟩
  · rintro ⟨r, path, hpath, hg⟩
    have := (sample_tableAt hpath hg).2
    omega
  · by_contra hne
    obtain ⟨p, va, -, hva, hf⟩ := userRefs_pos.mp (Nat.pos_of_ne_zero hne)
    obtain ⟨-, -, hleaf⟩ := sample_leaf hva.lt fun hz => by rw [hz, target_zero] at hf; cases hf
    rw [hleaf, target_tableEntry] at hf
    cases hf

theorem sample_free {f : Nat} (h1 : 7 ≤ f) (h2 : f < 24) : sampleKernel.mm.Free f :=
  ⟨h2, (sample_count f).trans (if_neg (Nat.not_lt_of_le h1))⟩

/-- An inode table of zeros: the root directory is empty. -/
theorem bare_of_zero {s : Fs} (htable : s.inoTable = frameVa 1)
    (hz : ∀ o, o < pageSize → s.mm.mem (pageSize * 1 + o) = 0) : s.Bare := by
  refine ⟨0, ?_, fun b hb => absurd hb (by rw [Nat.zero_div]; exact Nat.not_lt_zero b)⟩
  have hkpa := Mm.kpa_frameVa (s := s.mm) (f := 1) (o := 0) (by decide) (by decide)
  rw [Nat.add_zero] at hkpa
  have hread : Mem.rd 4 s.mm.mem (pageSize * 1 + 0) = 0 := Mem.rd_zero fun x h1 h2 => by
    have hx := hz (x - pageSize * 1) (by unfold pageSize at *; omega)
    rwa [Nat.add_sub_cancel' (Nat.le_trans (Nat.le_add_right _ _) h1)] at hx
  rw [htable, show inodeSize * rootInode = 0 from rfl, show diSizeOff = 0 from rfl, Nat.add_zero,
    Mm.Has, load_ok hkpa, hread]

theorem sampleMem_empty {o : Nat} (ho : o < pageSize) : sampleMem (pageSize * 1 + o) = 0 := by
  unfold sampleMem
  rw [Mem.wr_out, Mem.wr_out, Mem.wr_out, Mem.wr_out]
  all_goals unfold pageSize at *; omega

theorem sampleCaller_bare : (blanked 0 sampleCaller.fs).Bare :=
  bare_of_zero rfl fun o ho => by
    have hmem : (blanked 0 sampleCaller.fs).mm.mem = sampleMem.fill 0 128 0 := by
      show sampleCaller.mm.mem.fill 0 128 0 = _
      rw [sampleCaller_mm]
      rfl
    rw [hmem, Mem.fill, Mem.overlay_out (by unfold pageSize; omega)]
    exact sampleMem_empty ho

theorem sampleCaller_served {filename : Nat} {pfile : File} (r : Int) (k' : KState)
    (hrun : sysExecve (kbase + 0) pfile filename sampleCaller = .ok (.ret r) k') :
    k'.mm.starved = false := by
  obtain ⟨s₁, s₂, s₃, hlook, -, rfl⟩ := sysExecve_ret sampleCaller_caller hrun
  have hfree : ∀ f, 7 ≤ f → f < 16 → sampleCaller.mm.Free f := fun f h1 h2 => by
    rw [sampleCaller_mm]
    exact sample_free h1 (Nat.lt_trans h2 (by decide))
  exact hlook.served sampleCaller_caller sampleCaller_bare rfl (by decide : (7 : Nat) ≠ 8)
    (hfree 7 (by decide) (by decide)) (hfree 8 (by decide) (by decide))

/-- The file is not there, and the stack of the caller goes. -/
theorem failing_execve_unmaps : ¬ ∀ (k : KState) (root : Nat → Option Nat)
    (kdir p g pa filename : Nat) (pfile : File), Caller k root kdir p g pa 128 →
    (∃ r fs, walkPath filename k.fs = .ok (r, none) fs ∧ r < 0) →
    ∃ r k', sysExecve (kbase + pa) pfile filename k = .ok (.ret r) k' ∧ r < 0 ∧
      Intact root p k k' := by
  intro h
  have hmem : sampleCaller.mm.mem = sampleMem := by rw [sampleCaller_mm]; rfl
  have hbare : sampleCaller.fs.Bare := bare_of_zero rfl fun o ho => by
    show sampleCaller.mm.mem _ = 0
    rw [hmem]
    exact sampleMem_empty ho
  obtain ⟨r₀, hr₀, hwalk⟩ := walkPath_bare hbare (frameVa 1)
  obtain ⟨r, k', hrun, -, hintact⟩ := h sampleCaller sampleRoot 1 0 2 0 (frameVa 1) {}
    sampleCaller_caller ⟨r₀, _, hwalk, hr₀⟩
  have hgone := sysExecve_unmaps sampleCaller_caller hrun (sampleCaller_served r k' hrun)
    userVa_stackPage
  rw [hintact.leaf userVa_stackPage, hmem, sample_stack] at hgone
  exact absurd hgone (by decide)

/-- The process with nothing in its directory. -/
def sampleIdle : KState :=
  { sampleCaller with fs := Fs.setMm (sampleCaller.mm.setMem fun _ => 0) sampleCaller.fs }

theorem blank_entry (f i : Nat) : Mem.entry (fun _ => 0) f i = 0 := Mem.rd_zero fun _ _ _ => rfl

/-- Its directory is the only table. -/
theorem blank_tableAt {p g : Nat} {path : List Nat}
    (hg : tableAt (fun _ => 0) sampleRoot p path = some g) : p = 0 ∧ path = [] ∧ g = 2 := by
  rcases List.eq_nil_or_concat path with rfl | ⟨init, i, rfl⟩
  · rw [tableAt, Radix.node_nil, sampleRoot] at hg
    split at hg
    · next hp => exact ⟨hp, rfl, (Option.some.inj hg).symm⟩
    · cases hg
  · rw [List.concat_eq_append, tableAt, Radix.node_snoc] at hg
    obtain ⟨f, -, hnext⟩ := Option.bind_eq_some_iff.mp hg
    rw [blank_entry, target_zero] at hnext
    cases hnext

theorem blank_leaf (p va : Nat) : leaf (fun _ => 0) sampleRoot p va = 0 := by
  by_contra hne
  obtain ⟨g, hg⟩ := tableAt_of_leaf hne
  rw [leaf_of_tableAt hg, blank_entry] at hne
  exact hne rfl

theorem blank_userRefs (f : Nat) : userRefs (fun _ => 0) sampleRoot f = 0 := by
  by_contra hne
  obtain ⟨p, va, -, -, hf⟩ := userRefs_pos.mp (Nat.pos_of_ne_zero hne)
  rw [blank_leaf, target_zero] at hf
  cases hf

theorem sampleIdle_caller : Caller sampleIdle sampleRoot 1 0 2 0 128 := by
  have hmem : sampleIdle.mm.mem = fun _ => 0 := rfl
  have hcount : ∀ f, f < 7 → sampleIdle.mm.count f = 1 := fun f hf => (sample_count f).trans (if_pos hf)
  have htable : ∀ {g}, IsTable userTop sampleIdle.mm.mem sampleRoot g → g = 2 := by
    rintro g ⟨r, path, -, hg⟩
    exact (blank_tableAt hg).2.2
  have hleaf : ∀ {p va}, leaf sampleIdle.mm.mem sampleRoot p va = 0 := fun {p va} => blank_leaf p va
  have hrefs : ∀ f, userRefs sampleIdle.mm.mem sampleRoot f + hold ∅ f = 0 := fun f => by
    rw [hmem, blank_userRefs, hold_of_not_mem (Finset.notMem_empty _)]
  have htables : Tables UserEntry userTop sampleIdle.mm sampleRoot := by
    refine ⟨by decide, ⟨_, sampleKernel_list.congr rfl rfl rfl⟩, ?_, fun {g} hg => ?_, fun _ _ => ?_⟩
    · intro r r' path path' g _ _ hg hg'
      obtain ⟨rfl, rfl, -⟩ := blank_tableAt hg
      obtain ⟨rfl, rfl, -⟩ := blank_tableAt hg'
      exact ⟨rfl, rfl⟩
    · rw [htable hg, hcount 2 (by decide)]
      exact ⟨by decide, by decide⟩
    · rw [hmem, blank_entry]
      exact .inl rfl
  have hvm : Vm sampleIdle.mm sampleRoot 1 ∅ := by
    refine ⟨htables, sampleKernel_start.pids, fun {g} hg => ?_, ⟨by decide, ?_⟩, fun hg => ?_,
      fun _ => by rw [hmem, blank_entry], fun {f} hpos => ?_, fun _ hne => ?_, fun _ hf _ => ?_,
      fun _ _ hf => ?_⟩
    · rw [htable hg, hcount 2 (by decide)]
    · rw [hcount 1 (by decide)]
      decide
    · exact absurd (htable hg) (by decide)
    · rw [hrefs] at hpos
      exact absurd hpos (Nat.lt_irrefl 0)
    · exact absurd hleaf hne
    · rw [hleaf, target_zero] at hf
      cases hf
    · rw [hleaf, target_zero] at hf
      cases hf
  refine ⟨hvm, rfl, rfl, rfl, by decide, fun x hx => ?_⟩
  have hzero : x / pageSize = 0 := Nat.div_eq_of_lt (by unfold pageSize; omega)
  rw [hzero, hmem, blank_userRefs]
  exact ⟨fun hg => absurd (htable hg) (by decide), by decide, rfl⟩

/-- The pointer left on its stack leads to the empty root directory. -/
theorem sampleIdle_idle : Idle sampleIdle sampleRoot 0 0 { inode := frameVa 1 } := by
  have hmem : (blanked 0 sampleIdle.fs).mm.mem = fun _ => 0 := by
    funext x
    show Mem.fill (fun _ => 0) 0 128 0 x = 0
    unfold Mem.fill Mem.overlay
    split <;> rfl
  refine ⟨fun va _ => blank_leaf 0 va, bare_of_zero rfl fun o _ => by rw [hmem], ?_⟩
  have hkpa := Mm.kpa_frameVa (s := (blanked 0 sampleIdle.fs).mm) (f := 1) (o := blockOff) (by decide)
    (by decide)
  have hread : Mem.rd 2 (blanked 0 sampleIdle.fs).mm.mem (pageSize * 1 + blockOff) = 0 :=
    Mem.rd_zero fun x _ _ => by rw [hmem]
  have hslot : blockSlot (frameVa 1) 0 = frameVa 1 + blockOff := Nat.add_zero _
  rw [Mm.Has, hslot, load_ok hkpa, hread]

/-- A process without pages stays as it was. -/
theorem failing_execve_idle :
    ∃ r k', sysExecve (kbase + 0) { inode := frameVa 1 } (frameVa 1) sampleIdle = .ok (.ret r) k' ∧
      r < 0 ∧ Intact sampleRoot 0 sampleIdle k' := by
  refine (failing_execve_intact sampleIdle_caller fun r k' hrun => ?_).mpr sampleIdle_idle
  obtain ⟨s₁, s₂, s₃, hlook, -, rfl⟩ := sysExecve_ret sampleIdle_caller hrun
  exact hlook.served sampleIdle_caller sampleIdle_idle.bare rfl (by decide : (7 : Nat) ≠ 8)
    (sample_free (by decide) (by decide)) (sample_free (by decide) (by decide))

end Sample

end Myos.Kernel
