import Mathlib.Data.List.GetD
import Myos.Lib.Run
import Myos.Kernel.Guest

/-!
# The guest's memory over whole runs

`sys_create_vcpu` makes an empty tree of extended page tables, `sys_alloc_vm_mem` fills it
with fresh frames and maps the screen, and `sys_mmap_mem` copies into fresh frames. In every
run of such calls, with whatever the rest of the kernel does in between to frames of its own
(`Beside`), the guest's memory is what the calls so far say byte for byte, and the frames
behind it are the guest's alone (`guest_memory`).
-/

namespace Myos.Kernel

open Myos.Lib

/-! ## The calls -/

/-- `sys_create_vcpu`, as far as it takes memory: the page for the processor's state, with
the revision in it, and `ept_pgdir`. -/
def sysCreateVcpu (basicMsr : Nat) : Act Mm Nat := do
  let pp ← allocPage 1
  let vmcs ← Act.gets fun s => s.page2va pp
  store 4 vmcs (basicMsr &&& 0xFFFFFFFF)
  let pp ← allocPage 1
  Act.gets fun s => s.page2va pp

/-- A loop of `sys_alloc_vm_mem`, with so many pages to go. -/
def allocVmPages (eptPgdir : Nat) : Nat → Nat → Act Mm Unit
  | 0, _ => return ()
  | n + 1, gpa => do
    let pp ← allocPage 1
    let _ ← insertPage eptPgdir gpa pp vmxEptPteFull
    allocVmPages eptPgdir n (gpa + pageSize)

/-- `sys_alloc_vm_mem`. The counter of the second loop does not wrap for any `phys` that is an
address of the guest. -/
def sysAllocVmMem (eptPgdir phys : Nat) : Act Mm Int := do
  match ← walkPage eptPgdir 0xb8000 1 with
  | none => return -1
  | some pte =>
    store 8 pte (0xb8000 ||| vmxEptPteFull ||| 0x40)
    allocVmPages eptPgdir (0xA0000 / pageSize) 0
    allocVmPages eptPgdir ((phys - 0x218000 + pageSize - 1) / pageSize) 0x218000
    return 0

/-! ## The memory -/

/-- The frame of the screen, and its page in the guest. -/
def vgaFrame : Nat := 0xb8

/-- What can be at an address: a byte of memory, or the screen. -/
inductive Cell where
  | byte (b : UInt8)
  | screen
deriving DecidableEq, Repr

/-- The guest's memory: what there is. -/
abbrev GuestMem := Nat → Option Cell

/-- What the tables have at an address. -/
def guestCell (s : Mm) (g : Nat) : GuestMem := fun x =>
  if x < 2 ^ 48 then
    (frameOf s.mem g (x / pageSize)).map fun f =>
      if f = vgaFrame then .screen else .byte (s.mem (pageSize * f + x % pageSize))
  else none

/-- What the guest reads there. -/
theorem guestByte_cell (s : Mm) (g x : Nat) : guestByte s g x = (guestCell s g x).map fun
    | .byte b => b
    | .screen => s.mem (pageSize * vgaFrame + x % pageSize) := by
  unfold guestByte guestCell
  split
  · cases frameOf s.mem g (x / pageSize) with
    | none => rfl
    | some f =>
      rw [Option.map_some, Option.map_some, Option.map_some]
      split_ifs with hf
      · rw [hf]
      · rfl
  · rfl

/-- A page of it that is new. -/
def GuestMem.put (m : GuestMem) (page : Nat) (byte : Nat → UInt8) : GuestMem := fun x =>
  if x / pageSize = page then some (.byte (byte (x % pageSize))) else m x

/-- The screen in its page. -/
def GuestMem.withScreen (m : GuestMem) : GuestMem := fun x =>
  if x / pageSize = vgaFrame then some .screen else m x

/-- What `sys_mmap_mem` puts in a page: the copy, with noughts around it. -/
def copyByte (gpa : Nat) (bytes : List UInt8) (o : Nat) : UInt8 :=
  if gpa % pageSize ≤ o then bytes.getD (o - gpa % pageSize) 0 else 0

/-- A page that `sys_alloc_vm_mem` allocates. -/
def IsRam (phys page : Nat) : Prop := page < 0xA0 ∨ (0x218 ≤ page ∧ pageSize * page < phys)

instance (phys page : Nat) : Decidable (IsRam phys page) := inferInstanceAs (Decidable (_ ∨ _))

/-- A call, or whatever else the kernel does. -/
inductive VmEvent where
  | alloc (phys : Nat)
  | mmap (gpa : Nat) (bytes : List UInt8)
  | rest
deriving DecidableEq, Repr

/-- What a call makes of the memory. -/
def GuestMem.after (m : GuestMem) : VmEvent → GuestMem
  | .alloc phys => fun x =>
    if IsRam phys (x / pageSize) then some (.byte 0) else m.withScreen x
  | .mmap gpa bytes => m.put (gpa / pageSize) (copyByte gpa bytes)
  | .rest => m

/-- A frame that only the guest has to do with: a table of its, or one it has mapped. -/
def GuestOwn (s : Mm) (g f : Nat) : Prop :=
  IsTable 512 s.mem (dir g) f ∨ (GuestFrame s g f ∧ f ≠ vgaFrame)

/-- What the rest of the kernel does to memory: it leaves the frames of the guest alone, and
the guest's tables a tree that has its references. -/
structure Beside (g : Nat) (s s' : Mm) : Prop where
  wellFormed : WellFormed s' g
  npages : s'.npages = s.npages
  count : ∀ f, GuestFrame s g f ∨ f = vgaFrame → s'.count f = s.count f
  bytes : ∀ f o, GuestOwn s g f → o < pageSize →
    s'.mem (pageSize * f + o) = s.mem (pageSize * f + o)

/-- A step, as long as there are frames: a call of `sys_mmap_mem` copies the bytes of a buffer
of the caller, into one page. -/
inductive VmStep (g : Nat) : Mm → VmEvent → Mm → Prop
  | alloc {s s' : Mm} {phys : Nat} : phys ≤ 2 ^ 48 →
      sysAllocVmMem (frameVa g) phys s = .ok 0 s' → s'.starved = false →
      VmStep g s (.alloc phys) s'
  | mmap {s s' : Mm} {addr gpa : Nat} {prot : Int} {bytes : List UInt8} {pa : Nat → Nat} :
      gpa < 2 ^ 48 → FitsPage gpa bytes.length → CallerBuffer s g addr bytes.length pa →
      (∀ i, i < bytes.length → s.mem (pa i) = bytes.getD i 0) →
      sysMmapMem (frameVa g) addr bytes.length gpa prot s = .ok 0 s' → s'.starved = false →
      VmStep g s (.mmap gpa bytes) s'
  | rest {s s' : Mm} : Beside g s s' → VmStep g s .rest s'

/-! ## A page more -/

section Page

variable {s s' : Mm} {g gpa pp page f phys : Nat} {m : Mem} {byte : Nat → UInt8}

/-- What the calls leave alone: every frame in use that is no table. -/
structure LeavesUsed (g : Nat) (s s' : Mm) : Prop where
  npages : s'.npages = s.npages
  count : ∀ {f}, ¬ s.Free f → s'.count f = s.count f
  tables : ∀ {f}, IsTable 512 s'.mem (dir g) f → IsTable 512 s.mem (dir g) f ∨ s.Free f
  bytes : ∀ {f o}, ¬ s.Free f → ¬ IsTable 512 s.mem (dir g) f → o < pageSize →
    s'.mem (pageSize * f + o) = s.mem (pageSize * f + o)

namespace LeavesUsed

variable {s'' : Mm}

theorem refl (g : Nat) (s : Mm) : LeavesUsed g s s :=
  ⟨rfl, fun _ => rfl, fun h => .inl h, fun _ _ _ => rfl⟩

theorem not_free (h : LeavesUsed g s s') (hf : ¬ s.Free f) : ¬ s'.Free f := by
  rintro ⟨hlt, hz⟩
  rw [h.count hf] at hz
  exact hf ⟨h.npages ▸ hlt, hz⟩

theorem not_table (h : LeavesUsed g s s') (hf : ¬ s.Free f)
    (ht : ¬ IsTable 512 s.mem (dir g) f) : ¬ IsTable 512 s'.mem (dir g) f := fun ht' =>
  (h.tables ht').elim ht hf

theorem trans (h : LeavesUsed g s s') (h' : LeavesUsed g s' s'') : LeavesUsed g s s'' where
  npages := h'.npages.trans h.npages
  count hf := (h'.count (h.not_free hf)).trans (h.count hf)
  tables ht := by
    rcases h'.tables ht with hold | hfree
    · exact h.tables hold
    · exact .inr (by_contra fun hused => h.not_free hused hfree)
  bytes hf ht ho := (h'.bytes (h.not_free hf) (h.not_table hf ht) ho).trans (h.bytes hf ht ho)

theorem of_grown (h : Grown 512 (dir g) s s') : LeavesUsed g s s' :=
  ⟨h.npages, h.count, h.fresh, h.bytes⟩

/-- A store to an entry of the lowest tables. -/
theorem setLeaf {h va v : Nat} (ht : Tables NotLarge 512 s (dir g))
    (hh : tableAt s.mem (dir g) () (pathTo va) = some h) : LeavesUsed g s (s.setLeaf h va v) := by
  have hsame := isTable_congr fun {r : Unit} {q : List Nat} hq => ht.setLeaf_tableAt
    (q := r) (p := q) (pmlIndex_lt va) hh v hq
  refine ⟨rfl, fun _ => rfl, fun {f} hf => .inl ((hsame f).mp hf), fun {f o} _ hft ho => ?_⟩
  have hne : f ≠ h := by
    rintro rfl
    exact hft ⟨(), _, tablePath_pathTo (pmlIndex_lt va), hh⟩
  exact setLeaf_bytes ho hne

end LeavesUsed

/-- The tree has the frame `pp`, which was free, at a page, with these bytes in it. -/
structure MapsFresh (g : Nat) (s s' : Mm) (page pp : Nat) (byte : Nat → UInt8) : Prop
    extends LeavesUsed g s s' where
  wellFormed : WellFormed s' g
  free : s.Free pp
  one : s'.count pp = 1
  frame : ∀ q ∈ allPages, frameOf s'.mem g q = if q = page then some pp else frameOf s.mem g q
  data : ∀ {o}, o < pageSize → s'.mem (pageSize * pp + o) = byte o

/-- MAP: a frame is taken, filled and inserted. -/
theorem mapsFresh_insert (hwf : WellFormed s g) (hgpa : gpa < 2 ^ 48) (hpp : s.phead = some pp)
    (hm : ∀ f o, f ≠ pp → o < pageSize →
      m (pageSize * f + o) = (s.taken pgzero pp).mem (pageSize * f + o))
    (hns : (insertPage (frameVa g) gpa (some pp) vmxEptPteFull
      ((s.taken pgzero pp).setMem m)).state.starved = false) :
    ∃ s', insertPage (frameVa g) gpa (some pp) vmxEptPteFull ((s.taken pgzero pp).setMem m) =
        .ok 0 s' ∧
      MapsFresh g s s' (gpa / pageSize) pp fun o => m (pageSize * pp + o) := by
  obtain ⟨hfree, -⟩ := hwf.tables.head hpp
  obtain ⟨-, -, hone, -⟩ := hwf.tables.taken hpp
  obtain ⟨hwf₁, hspare, hgrown⟩ := @WellFormed.spare_taken _ _ gpa _ hwf hpp
  have htables : ∀ f o, IsTable 512 (s.taken pgzero pp).mem (dir g) f → o < pageSize →
      m (pageSize * f + o) = (s.taken pgzero pp).mem (pageSize * f + o) := by
    intro f o hf ho
    refine hm f o (fun heq => ?_) ho
    rw [heq] at hf
    exact hspare.data hf
  obtain ⟨hwf₂, hframe₂, htable₂⟩ := hwf₁.setMem htables
  have hframe₁ : ∀ q, frameOf (s.taken pgzero pp).mem g q = frameOf s.mem g q :=
    fun q => by rw [frameOf, frameOf, hgrown.leaf (pmlIndex_lt _)]
  have hspare₂ := hspare.setMem hwf₁ htables
  obtain ⟨s₁, h, ht₁, hgrown₂, -, hh, hins₁⟩ :=
    insertPage_run (r := ()) hwf₂.tables notLarge (pmlIndex_lt gpa) rfl hns
  obtain ⟨s', hins, hwf', -, hframe', -⟩ := insertPage_frames hwf₂ hgpa hspare₂
    (by decide : vmxEptPteFull &&& pteP ≠ 0) (by decide) hns
  have hfilled : LeavesUsed g s ((s.taken pgzero pp).setMem m) := by
    refine ⟨hgrown.npages, hgrown.count, fun {f} hf => hgrown.fresh ((htable₂ f).mp hf),
      fun {f o} hf hft ho => ?_⟩
    have hne : f ≠ pp := by
      rintro rfl
      exact hf hfree
    exact (hm f o hne ho).trans (hgrown.bytes hf hft ho)
  have hinserted : LeavesUsed g ((s.taken pgzero pp).setMem m) s' := by
    rw [hins] at hins₁
    injection hins₁ with _ hs'
    rw [hs']
    exact (LeavesUsed.of_grown hgrown₂).trans (.setLeaf ht₁ hh)
  refine ⟨s', hins, hfilled.trans hinserted, hwf', hfree,
    (hinserted.count hspare₂.not_free).trans hone, fun q hq => ?_,
    fun ho => hinserted.bytes hspare₂.not_free hspare₂.data ho⟩
  rw [hframe' q hq, Mm.setMem_mem, hframe₂, hframe₁]

/-! ## The guest's frames are its own -/

/-- The tree is the guest's alone: its frames have no reference but the page they are at, and
the frame of the screen is at the page of the screen or nowhere. -/
structure Guarded (g : Nat) (s : Mm) : Prop where
  wellFormed : WellFormed s g
  vga : vgaFrame < s.npages ∧ 1 ≤ s.count vgaFrame ∧ ¬ IsTable 512 s.mem (dir g) vgaFrame
  window : ∀ page ∈ allPages, frameOf s.mem g page = some vgaFrame → page = vgaFrame
  alone : ∀ page ∈ allPages, ∀ f, frameOf s.mem g page = some f → f ≠ vgaFrame → s.count f = 1

/-- The guest has `m`. -/
def ReadsMem (g : Nat) (s : Mm) (m : GuestMem) : Prop := ∀ x, guestCell s g x = m x

theorem Guarded.vga_used (h : Guarded g s) : ¬ s.Free vgaFrame := by
  rintro ⟨-, hz⟩
  have hcount := h.vga.2.1
  omega

/-- A frame of the guest is at one page. -/
theorem Guarded.unique {page' : Nat} (h : Guarded g s) (hp : page ∈ allPages)
    (hp' : page' ∈ allPages) (hf : frameOf s.mem g page = some f)
    (hf' : frameOf s.mem g page' = some f) : page = page' := by
  by_cases hvga : f = vgaFrame
  · subst hvga
    exact (h.window page hp hf).trans (h.window page' hp' hf').symm
  · have hle := h.wellFormed.refs f (h.wellFormed.mapped hp hf).1
    rw [h.alone page hp f hf hvga] at hle
    have hpos := Owners.refs_pos.mpr ⟨page, hp, hf⟩
    exact Owners.refs_eq_one (by omega) hp hp' hf hf'

/-- A page of the guest, as it is in memory. -/
theorem guestCell_of_frame {x : Nat} (hx : x < 2 ^ 48)
    (hf : frameOf s.mem g (x / pageSize) = some f) : guestCell s g x =
      some (if f = vgaFrame then .screen else .byte (s.mem (pageSize * f + x % pageSize))) := by
  rw [guestCell, if_pos hx, hf]
  rfl

/-- A page is as it was when its frame is, unless it is the screen. -/
theorem guestCell_congr {x : Nat}
    (hframe : x < 2 ^ 48 → frameOf s'.mem g (x / pageSize) = frameOf s.mem g (x / pageSize))
    (hbytes : ∀ f, x < 2 ^ 48 → frameOf s.mem g (x / pageSize) = some f → f ≠ vgaFrame →
      s'.mem (pageSize * f + x % pageSize) = s.mem (pageSize * f + x % pageSize)) :
    guestCell s' g x = guestCell s g x := by
  by_cases hx : x < 2 ^ 48
  · rw [guestCell, guestCell, if_pos hx, if_pos hx, hframe hx]
    cases hf : frameOf s.mem g (x / pageSize) with
    | none => rfl
    | some f =>
      rw [Option.map_some, Option.map_some]
      split_ifs with hvga
      · rfl
      · rw [hbytes f hx hf hvga]
  · rw [guestCell, guestCell, if_neg hx, if_neg hx]

/-- A page whose frame stays has what it had. -/
theorem LeavesUsed.cell {x : Nat} (h : LeavesUsed g s s') (hwf : WellFormed s g)
    (hframe : x < 2 ^ 48 → frameOf s'.mem g (x / pageSize) = frameOf s.mem g (x / pageSize)) :
    guestCell s' g x = guestCell s g x := by
  refine guestCell_congr hframe fun f hx hf _ => ?_
  have hq := mem_allPages hx
  exact h.bytes (hwf.not_free hq hf) (hwf.mapped hq hf).2 (Nat.mod_lt x (by decide))

namespace MapsFresh

theorem congr {byte' : Nat → UInt8} (h : MapsFresh g s s' page pp byte)
    (hbyte : ∀ o, o < pageSize → byte o = byte' o) : MapsFresh g s s' page pp byte' where
  toLeavesUsed := h.toLeavesUsed
  wellFormed := h.wellFormed
  free := h.free
  one := h.one
  frame := h.frame
  data ho := (h.data ho).trans (hbyte _ ho)

theorem ne_vga (h : MapsFresh g s s' page pp byte) (hs : Guarded g s) : pp ≠ vgaFrame := fun heq =>
  hs.vga_used (heq ▸ h.free)

theorem guarded (h : MapsFresh g s s' page pp byte) (hs : Guarded g s) : Guarded g s' where
  wellFormed := h.wellFormed
  vga := ⟨h.npages ▸ hs.vga.1, h.count hs.vga_used ▸ hs.vga.2.1, h.not_table hs.vga_used hs.vga.2.2⟩
  window q hq hf := by
    rw [h.frame q hq] at hf
    split at hf
    · exact absurd (Option.some.inj hf) (h.ne_vga hs)
    · exact hs.window q hq hf
  alone q hq f hf hne := by
    rw [h.frame q hq] at hf
    split at hf
    · rw [← Option.some.inj hf]
      exact h.one
    · rw [h.count (hs.wellFormed.not_free hq hf)]
      exact hs.alone q hq f hf hne

/-- The guest has the new page, and what it had before. -/
theorem reads {mem : GuestMem} (h : MapsFresh g s s' page pp byte) (hs : Guarded g s)
    (hpage : page ∈ allPages) (hm : ReadsMem g s mem) : ReadsMem g s' (mem.put page byte) := by
  intro x
  unfold GuestMem.put
  by_cases heq : x / pageSize = page
  · have hx : x < 2 ^ 48 := by
      have hlt := Finset.mem_range.mp hpage
      unfold pageSize at heq
      omega
    have hframe := h.frame _ (mem_allPages hx)
    rw [if_pos heq] at hframe ⊢
    rw [guestCell_of_frame hx hframe, if_neg (h.ne_vga hs), h.data (Nat.mod_lt x (by decide))]
  · rw [if_neg heq, ← hm x]
    refine h.cell hs.wellFormed fun hx => ?_
    rw [h.frame _ (mem_allPages hx), if_neg heq]

end MapsFresh

/-! ## `sys_alloc_vm_mem` -/

theorem allocVmPages_starves (ept : Nat) (n gpa : Nat) :
    Act.Within Mm.Starves (allocVmPages ept n gpa) := by
  induction n generalizing gpa with
  | zero => exact Starves.pure _
  | succ n ih =>
    exact Starves.bind (Starves.allocPage 1) fun _ =>
      Starves.bind (insertPage_starves _ _ _ _) fun _ => ih _

/-- A turn of its loops. -/
theorem allocVmPages_turn {n : Nat} (hwf : WellFormed s g) (hgpa : gpa < 2 ^ 48)
    (hns : (allocVmPages (frameVa g) (n + 1) gpa s).state.starved = false) :
    ∃ s' pp, MapsFresh g s s' (gpa / pageSize) pp (fun _ => 0) ∧
      allocVmPages (frameVa g) (n + 1) gpa s = allocVmPages (frameVa g) n (gpa + pageSize) s' := by
  have hrest : ∀ o : Option Nat, Act.Within Mm.Starves (do
      let _ ← insertPage (frameVa g) gpa o vmxEptPteFull
      allocVmPages (frameVa g) n (gpa + pageSize)) := fun o =>
    Starves.bind (insertPage_starves _ _ _ _) fun _ => allocVmPages_starves _ _ _
  obtain ⟨pp, hpp⟩ := Starves.head_of_allocPage (Starves.of_bind hrest hns)
  obtain ⟨-, hsmall⟩ := hwf.tables.head hpp
  have halloc : allocPage 1 s = .ok (some pp) (s.taken pgzero pp) := allocPage_some hpp hsmall
  have hins := hns
  unfold allocVmPages at hins
  rw [Act.bind_ok halloc] at hins
  obtain ⟨s', hrun, hmaps⟩ := mapsFresh_insert (m := (s.taken pgzero pp).mem) hwf hgpa hpp
    (fun _ _ _ _ => rfl) (Starves.of_bind (fun _ => allocVmPages_starves _ _ _) hins)
  refine ⟨s', pp, hmaps.congr fun o ho => ?_, ?_⟩
  · rw [Mm.taken_mem_zeroed, Mem.fill]
    exact Mem.overlay_in (by omega)
  · show (allocPage 1 >>= _) s = _
    rw [Act.bind_ok halloc]
    exact Act.bind_ok hrun

/-- So many pages are there, with nought in them. -/
def GuestMem.blank (m : GuestMem) (page n : Nat) : GuestMem := fun x =>
  if page ≤ x / pageSize ∧ x / pageSize < page + n then some (.byte 0) else m x

/-- A loop. -/
theorem allocVmPages_run {n : Nat} {mem : GuestMem} (hs : Guarded g s) (hm : ReadsMem g s mem)
    (hrange : page + n ≤ 2 ^ 36)
    (hns : (allocVmPages (frameVa g) n (pageSize * page) s).state.starved = false) :
    ∃ s', allocVmPages (frameVa g) n (pageSize * page) s = .ok () s' ∧ Guarded g s' ∧
      LeavesUsed g s s' ∧ ReadsMem g s' (mem.blank page n) := by
  induction n generalizing s page mem with
  | zero =>
    refine ⟨s, rfl, hs, .refl g s, fun x => ?_⟩
    unfold GuestMem.blank
    rw [hm x, if_neg (by omega)]
  | succ n ih =>
    have hgpa : pageSize * page < 2 ^ 48 := by
      unfold pageSize
      omega
    have hdiv : pageSize * page / pageSize = page := Nat.mul_div_cancel_left _ (by decide)
    obtain ⟨s₁, pp, hmaps, hturn⟩ := allocVmPages_turn hs.wellFormed hgpa hns
    rw [hdiv] at hmaps
    have hnext : pageSize * page + pageSize = pageSize * (page + 1) := by ring
    rw [hturn, hnext] at hns ⊢
    have hmem : page ∈ allPages := Finset.mem_range.mpr (by omega)
    obtain ⟨s', hrun, hguard, hleaves, hreads⟩ :=
      ih (hmaps.guarded hs) (hmaps.reads hs hmem hm) (by omega) hns
    refine ⟨s', hrun, hguard, hmaps.toLeavesUsed.trans hleaves, fun x => ?_⟩
    rw [hreads x]
    unfold GuestMem.blank GuestMem.put
    by_cases heq : x / pageSize = page
    · rw [if_neg (by omega), if_pos heq, if_pos (by omega)]
    · rw [if_neg heq]
      exact if_congr (by omega) rfl rfl

/-- The screen is mapped. -/
theorem vga_mapped (hs : Guarded g s)
    (hns : (walkPage (frameVa g) 0xb8000 1 s).state.starved = false) :
    ∃ pte s₁ s', walkPage (frameVa g) 0xb8000 1 s = .ok (some pte) s₁ ∧
      store 8 pte (0xb8000 ||| vmxEptPteFull ||| 0x40) s₁ = .ok () s' ∧ Guarded g s' ∧
      LeavesUsed g s s' ∧ ∀ mem : GuestMem, ReadsMem g s mem → ReadsMem g s' mem.withScreen := by
  have hva : 0xb8000 < 2 ^ 48 := by decide
  obtain ⟨s₁, h, hwalk, ht₁, hgrown, -, hh⟩ :=
    (walkPage_create (r := ()) hs.wellFormed.tables notLarge (pmlIndex_lt _) rfl hns).done
  obtain ⟨hwf₁, -⟩ := hs.wellFormed.grown ht₁ hgrown
  have hsmall : h < 2 ^ 19 :=
    ht₁.small_of_table ⟨(), _, tablePath_pathTo (pmlIndex_lt _), hh⟩
  have hpage : 0xb8000 / pageSize = vgaFrame := rfl
  have htarget : target (0xb8000 ||| vmxEptPteFull ||| 0x40) = some vgaFrame := by decide
  have hold : ∀ q, frameOf s₁.mem g q = frameOf s.mem g q :=
    fun q => by rw [frameOf, frameOf, hgrown.leaf (pmlIndex_lt _)]
  have hspare : Spare s₁ g 0xb8000 vgaFrame := by
    refine ⟨hgrown.npages ▸ hs.vga.1, hgrown.not_table hs.vga_used hs.vga.2.2, ?_⟩
    rw [hgrown.count hs.vga_used, Owners.refs_eq_zero fun q hq hf => ?_]
    · have hcount := hs.vga.2.1
      omega
    · rw [hold] at hf
      exact (Finset.mem_erase.mp hq).1 (hs.window q (Finset.mem_of_mem_erase hq) hf)
  have hv : 0xb8000 ||| vmxEptPteFull ||| 0x40 < 2 ^ 64 := by decide
  have hwf' := hwf₁.setLeaf hva hh hv fun pp hpp => by
    rw [htarget] at hpp
    exact Option.some.inj hpp ▸ hspare
  have hframe : ∀ q ∈ allPages, frameOf (s₁.setLeaf h 0xb8000 (0xb8000 ||| vmxEptPteFull |||
      0x40)).mem g q = if q = vgaFrame then some vgaFrame else frameOf s.mem g q := by
    intro q hq
    rw [frameOf_setLeaf q ht₁ hva hh hv hq, htarget, hpage, hold]
  have hleaves : LeavesUsed g s (s₁.setLeaf h 0xb8000 (0xb8000 ||| vmxEptPteFull ||| 0x40)) :=
    (LeavesUsed.of_grown hgrown).trans (.setLeaf ht₁ hh)
  refine ⟨_, s₁, _, hwalk, store_leaf hsmall, ⟨hwf', ?_, ?_, ?_⟩, hleaves, fun mem hm x => ?_⟩
  · exact ⟨hleaves.npages ▸ hs.vga.1, hleaves.count hs.vga_used ▸ hs.vga.2.1,
      hleaves.not_table hs.vga_used hs.vga.2.2⟩
  · intro q hq hf
    rw [hframe q hq] at hf
    split at hf
    · assumption
    · exact hs.window q hq hf
  · intro q hq f hf hne
    rw [hframe q hq] at hf
    split at hf
    · exact absurd (Option.some.inj hf).symm hne
    · rw [hleaves.count (hs.wellFormed.not_free hq hf)]
      exact hs.alone q hq f hf hne
  · unfold GuestMem.withScreen
    by_cases heq : x / pageSize = vgaFrame
    · have hx : x < 2 ^ 48 := by
        unfold vgaFrame pageSize at heq
        omega
      have hnew := hframe _ (mem_allPages hx)
      rw [if_pos heq] at hnew ⊢
      rw [guestCell_of_frame hx hnew, if_pos rfl]
    · rw [if_neg heq, ← hm x]
      refine hleaves.cell hs.wellFormed fun hx => ?_
      rw [hframe _ (mem_allPages hx), if_neg heq]

/-- What the guest reads after `sys_alloc_vm_mem`. -/
theorem sysAllocVmMem_run {mem : GuestMem} (hs : Guarded g s) (hm : ReadsMem g s mem)
    (hphys : phys ≤ 2 ^ 48)
    (hns : (sysAllocVmMem (frameVa g) phys s).state.starved = false) :
    ∃ s', sysAllocVmMem (frameVa g) phys s = .ok 0 s' ∧ Guarded g s' ∧ LeavesUsed g s s' ∧
      ReadsMem g s' (mem.after (.alloc phys)) := by
  obtain ⟨n, hn⟩ : ∃ n, n = (phys - 0x218000 + pageSize - 1) / pageSize := ⟨_, rfl⟩
  have hafter : ∀ x, mem.after (.alloc phys) x =
      ((mem.withScreen.blank 0 0xA0).blank 0x218 n) x := by
    intro x
    show (if IsRam phys (x / pageSize) then some (.byte 0) else mem.withScreen x) = _
    unfold GuestMem.blank
    by_cases hlow : x / pageSize < 0xA0
    · rw [if_pos (.inl hlow), if_neg (by omega), if_pos ⟨Nat.zero_le _, by omega⟩]
    · rw [if_neg (fun h : 0 ≤ x / pageSize ∧ x / pageSize < 0 + 0xA0 => hlow (by omega))]
      refine if_congr ?_ rfl rfl
      unfold IsRam pageSize at *
      omega
  have hlow : Act.Within Mm.Starves (do
      allocVmPages (frameVa g) 0xA0 0
      allocVmPages (frameVa g) n 0x218000
      return (0 : Int)) :=
    Starves.bind (allocVmPages_starves _ _ _) fun _ =>
      Starves.bind (allocVmPages_starves _ _ _) fun _ => Starves.pure 0
  have hcount : 0xA0000 / pageSize = 0xA0 := rfl
  unfold sysAllocVmMem at hns ⊢
  rw [← hn, hcount] at hns ⊢
  obtain ⟨pte, s₁, s₂, hwalk, hstore, hs₂, hleaves₂, hreads₂⟩ :=
    vga_mapped hs (Starves.of_bind (fun o => by
      cases o with
      | none => exact Starves.pure _
      | some pte => exact Starves.bind (Starves.store 8 pte _) fun _ => hlow) hns)
  rw [Act.bind_ok hwalk] at hns ⊢
  dsimp only at hns ⊢
  rw [Act.bind_ok hstore] at hns ⊢
  obtain ⟨s₃, hrun₃, hs₃, hleaves₃, hreads₃⟩ := @allocVmPages_run s₂ g 0 0xA0 _ hs₂
    (hreads₂ mem hm) (by decide) (Starves.of_bind (fun _ =>
      Starves.bind (allocVmPages_starves _ _ _) fun _ => Starves.pure 0) hns)
  rw [Nat.mul_zero] at hrun₃
  rw [Act.bind_ok hrun₃] at hns ⊢
  have hrange : 0x218 + n ≤ 2 ^ 36 := by
    rw [hn]
    unfold pageSize
    omega
  obtain ⟨s₄, hrun₄, hs₄, hleaves₄, hreads₄⟩ := @allocVmPages_run s₃ g 0x218 n _ hs₃ hreads₃ hrange
    (Starves.of_bind (fun _ => Starves.pure 0) hns)
  have hhigh : pageSize * 0x218 = 0x218000 := rfl
  rw [hhigh] at hrun₄
  rw [Act.bind_ok hrun₄]
  refine ⟨s₄, rfl, hs₄, (hleaves₂.trans hleaves₃).trans hleaves₄, fun x => ?_⟩
  rw [hafter, hreads₄ x]

/-! ## `sys_mmap_mem` -/

/-- What the guest reads after `sys_mmap_mem`. -/
theorem sysMmapMem_inside {mem : GuestMem} {bytes : List UInt8} {addr : Nat} {prot : Int}
    {pa : Nat → Nat} (hs : Guarded g s) (hm : ReadsMem g s mem) (hgpa : gpa < 2 ^ 48)
    (hfit : FitsPage gpa bytes.length) (hbuf : CallerBuffer s g addr bytes.length pa)
    (hbytes : ∀ i, i < bytes.length → s.mem (pa i) = bytes.getD i 0)
    (hns : (sysMmapMem (frameVa g) addr bytes.length gpa prot s).state.starved = false) :
    ∃ s', sysMmapMem (frameVa g) addr bytes.length gpa prot s = .ok 0 s' ∧ Guarded g s' ∧
      LeavesUsed g s s' ∧ ReadsMem g s' (mem.after (.mmap gpa bytes)) := by
  have hwf := hs.wellFormed
  obtain ⟨pp, hpp⟩ := Starves.head_of_allocPage (Starves.of_bind (fun pp =>
    Starves.bind (Starves.gets _) fun _ => Starves.bind (Starves.memcpy _ _ _) fun _ =>
      insertPage_starves _ _ pp _) hns)
  obtain ⟨-, hsmall⟩ := hwf.tables.head hpp
  have hfollows : Follows s g pp gpa bytes.length := hfit.follows
  obtain ⟨m, hcopy, hin, hout⟩ := mmap_memcpy hwf hbuf hpp hfollows.inside
  rw [sysMmapMem_insert hpp hsmall (by rw [hfit.u32]; exact hcopy)] at hns ⊢
  obtain ⟨s', hins, hmaps⟩ := mapsFresh_insert (m := m) hwf hgpa hpp (fun f o hf ho =>
    hout _ fun i hi heq => hf (by
      have hfits : gpa % pageSize + bytes.length ≤ pageSize := hfit
      unfold pageSize at *
      omega)) hns
  have hcopied : MapsFresh g s s' (gpa / pageSize) pp (copyByte gpa bytes) := by
    refine hmaps.congr fun o ho => ?_
    have hzero : (s.taken pgzero pp).mem (pageSize * pp + o) = 0 := by
      rw [Mm.taken_mem_zeroed, Mem.fill]
      exact Mem.overlay_in (by omega)
    unfold copyByte
    by_cases hle : gpa % pageSize ≤ o
    · obtain ⟨i, rfl⟩ := Nat.exists_eq_add_of_le hle
      rw [if_pos hle, Nat.add_sub_cancel_left, ← Nat.add_assoc]
      by_cases hi : i < bytes.length
      · rw [hin i hi, hbytes i hi]
      · rw [hout _ fun j hj heq => hi (by omega), List.getD_eq_default _ _ (by omega),
          Nat.add_assoc, hzero]
    · rw [if_neg hle, hout _ fun j hj heq => hle (by omega), hzero]
  exact ⟨s', hins, hcopied.guarded hs, hcopied.toLeavesUsed,
    hcopied.reads hs (mem_allPages hgpa) hm⟩

/-! ## The rest of the kernel -/

namespace Beside

/-- The tree stays as it is. -/
theorem tree (h : Beside g s s') (hs : Guarded g s) :
    (∀ page, frameOf s'.mem g page = frameOf s.mem g page) ∧
      ∀ f, IsTable 512 s'.mem (dir g) f ↔ IsTable 512 s.mem (dir g) f :=
  (hs.wellFormed.setMem fun f o hf ho => h.bytes f o (.inl hf) ho).2

theorem guarded (h : Beside g s s') (hs : Guarded g s) : Guarded g s' where
  wellFormed := h.wellFormed
  vga := by
    rw [h.npages, h.count _ (.inr rfl), (h.tree hs).2]
    exact hs.vga
  window page hp hf := by
    rw [(h.tree hs).1] at hf
    exact hs.window page hp hf
  alone page hp f hf hne := by
    rw [(h.tree hs).1] at hf
    rw [h.count f (.inl ⟨page, hp, hf⟩)]
    exact hs.alone page hp f hf hne

/-- What is the guest's own is so still. -/
theorem own (h : Beside g s s') (hs : Guarded g s) (f : Nat) :
    GuestOwn s' g f ↔ GuestOwn s g f := by
  obtain ⟨hframe, htable⟩ := h.tree hs
  unfold GuestOwn GuestFrame
  simp only [hframe, htable]

/-- The guest has what it had. -/
theorem reads {mem : GuestMem} (h : Beside g s s') (hs : Guarded g s) (hm : ReadsMem g s mem) :
    ReadsMem g s' mem := by
  intro x
  rw [← hm x]
  exact guestCell_congr (fun _ => (h.tree hs).1 _) fun f hx hf hne =>
    h.bytes f _ (.inr ⟨⟨_, mem_allPages hx, hf⟩, hne⟩) (Nat.mod_lt x (by decide))

end Beside

namespace Guarded

/-- A frame of the guest's is in use. -/
theorem own_used (h : Guarded g s) (hf : GuestOwn s g f) : ¬ s.Free f := by
  rcases hf with ht | ⟨⟨page, hp, hf⟩, -⟩
  · intro hfree
    exact (h.wellFormed.tables.inUse ht).2 hfree.2
  · exact h.wellFormed.not_free hp hf

theorem frame_used (h : Guarded g s) (hf : GuestFrame s g f ∨ f = vgaFrame) : ¬ s.Free f := by
  rcases hf with ⟨page, hp, hf⟩ | rfl
  · exact h.wellFormed.not_free hp hf
  · exact h.vga_used

/-- ALLOC: `alloc_page` takes a frame that the guest does not have. -/
theorem beside_allocPage {pp : Nat} (h : Guarded g s) (hrun : allocPage 1 s = .ok (some pp) s') :
    Beside g s s' := by
  cases hhead : s.phead with
  | none =>
    rw [allocPage_none hhead] at hrun
    cases hrun
  | some p =>
    obtain ⟨hfree, hsmall⟩ := h.wellFormed.tables.head hhead
    obtain ⟨hwf, -, hgrown⟩ := @WellFormed.spare_taken _ _ 0 _ h.wellFormed hhead
    rw [allocPage_some hhead hsmall] at hrun
    injection hrun with _ hs'
    rw [← hs']
    refine ⟨hwf, Mm.taken_npages s pgzero p, fun f hf => hgrown.count (h.frame_used hf),
      fun f o hf ho => ?_⟩
    have hne : f ≠ p := by
      rintro rfl
      exact h.own_used hf hfree
    exact taken_bytes hne ho

/-- FREE: `free_page` of a frame that the guest does not have. -/
theorem beside_freePage (h : Guarded g s) (hf : f < s.npages) (hcount : 1 ≤ s.count f)
    (hown : ¬ GuestOwn s g f) (hvga : f ≠ vgaFrame) (hrun : freePage (some f) s = .ok () s') :
    Beside g s s' := by
  rw [freePage_ok hcount (h.wellFormed.counts f)] at hrun
  injection hrun with _ hs'
  rw [← hs']
  have hnone : ¬ GuestFrame s g f := fun hgf => hown (.inr ⟨hgf, hvga⟩)
  have hrefs : Owners.refs allPages (frameOf s.mem g) f = 0 :=
    Owners.refs_eq_zero fun page hp hframe => hnone ⟨page, hp, hframe⟩
  refine ⟨h.wellFormed.freed hf (fun ht => hown (.inl ht)) ?_, Mm.freed_npages s f,
    fun k hk => ?_, fun k o _ _ => ?_⟩
  · rw [hrefs]
    omega
  · have hne : k ≠ f := by
      rintro rfl
      exact hk.elim hnone hvga
    rw [Mm.freed_count hcount (h.wellFormed.counts f), if_neg hne]
  · rw [Mm.freed_mem]

/-- STORE: stores to frames that the guest does not have. -/
theorem beside_setMem (h : Guarded g s)
    (hm : ∀ f o, GuestOwn s g f → o < pageSize → m (pageSize * f + o) = s.mem (pageSize * f + o)) :
    Beside g s (s.setMem m) :=
  ⟨(h.wellFormed.setMem fun f o hf ho => hm f o (.inl hf) ho).1, rfl, fun _ _ => rfl, hm⟩

/-- A frame is taken, stored to and given back. -/
theorem beside_frame {l : List Nat} (h : Guarded g s) (hl : FreeList s (pp :: l))
    (hm : ∀ f o, f ≠ pp → o < pageSize →
      m (pageSize * f + o) = (s.taken pgzero pp).mem (pageSize * f + o)) :
    ∃ s', Steps (VmStep g) s [.rest, .rest, .rest] s' ∧ FreeList s' (pp :: l) ∧
      s'.starved = s.starved ∧ s'.mem = m ∧ ∀ f, s'.count f = s.count f := by
  obtain ⟨hlt, hzero⟩ := (hl.mem pp).mp List.mem_cons_self
  have hhead : s.phead = some pp := hl.chain.of_cons.1
  obtain ⟨-, hsmall⟩ := h.wellFormed.tables.head hhead
  have hown : ¬ GuestOwn s g pp := fun hown => h.own_used hown ⟨hlt, hzero⟩
  have halloc : Beside g s (s.taken pgzero pp) := h.beside_allocPage (allocPage_some hhead hsmall)
  have h₁ := halloc.guarded h
  have hown₁ : ¬ GuestOwn (s.taken pgzero pp) g pp := fun hown' => hown ((halloc.own h pp).mp hown')
  have hstore : Beside g (s.taken pgzero pp) ((s.taken pgzero pp).setMem m) := by
    refine h₁.beside_setMem fun f o hf ho => hm f o ?_ ho
    rintro rfl
    exact hown₁ hf
  have h₂ := hstore.guarded h₁
  have hone : ((s.taken pgzero pp).setMem m).count pp = 1 := by
    rw [Mm.setMem_count, Mm.taken_count, if_pos rfl, hzero]
    rfl
  have hfree := h₂.beside_freePage (f := pp) (hlt : pp < s.npages) (by rw [hone])
    (fun hown' => hown₁ ((hstore.own h₁ pp).mp hown'))
    (by rintro rfl; exact h.vga_used ⟨hlt, hzero⟩)
    (freePage_ok (by rw [hone]) (by rw [hone]; decide))
  refine ⟨_, .cons (.rest halloc) (.cons (.rest hstore) (.cons (.rest hfree) (.nil _))), ?_, ?_, ?_,
    fun f => ?_⟩
  · rw [Mm.freed, if_pos hone]
    exact FreeList.released (FreeList.congr hl.taken rfl rfl rfl) hlt hone
  · rw [Mm.freed_starved]
    exact Mm.taken_starved s pgzero pp
  · rw [Mm.freed_mem, Mm.setMem_mem]
  · rw [Mm.freed_count (by rw [hone]) (by rw [hone]; decide), hone, Mm.setMem_count, Mm.taken_count]
    by_cases hf : f = pp
    · rw [if_pos hf, hf, hzero]
      rfl
    · rw [if_neg hf, if_neg hf]

end Guarded

/-! ## A step and a run -/

/-- STEP: the guest stays by itself and reads what the call says, and a call leaves alone what
is in use. -/
theorem VmStep.keeps {e : VmEvent} {mem : GuestMem} (h : VmStep g s e s') (hs : Guarded g s)
    (hm : ReadsMem g s mem) :
    Guarded g s' ∧ ReadsMem g s' (mem.after e) ∧ (e ≠ .rest → LeavesUsed g s s') := by
  cases h with
  | alloc hphys hrun hns =>
    obtain ⟨s₁, hrun₁, hs₁, hleaves, hm₁⟩ :=
      sysAllocVmMem_run hs hm hphys (by rw [hrun]; exact hns)
    rw [hrun] at hrun₁
    injection hrun₁ with _ hsame
    rw [hsame]
    exact ⟨hs₁, hm₁, fun _ => hleaves⟩
  | mmap hgpa hfit hbuf hbytes hrun hns =>
    obtain ⟨s₁, hrun₁, hs₁, hleaves, hm₁⟩ :=
      sysMmapMem_inside hs hm hgpa hfit hbuf hbytes (by rw [hrun]; exact hns)
    rw [hrun] at hrun₁
    injection hrun₁ with _ hsame
    rw [hsame]
    exact ⟨hs₁, hm₁, fun _ => hleaves⟩
  | rest hbeside => exact ⟨hbeside.guarded hs, hbeside.reads hs hm, fun h => absurd rfl h⟩

/-- RUN: the same of any number of steps. -/
theorem vmSteps_keep {es : List VmEvent} {mem : GuestMem} (h : Steps (VmStep g) s es s')
    (hs : Guarded g s) (hm : ReadsMem g s mem) :
    Guarded g s' ∧ ReadsMem g s' (es.foldl GuestMem.after mem) := by
  induction h generalizing mem with
  | nil s => exact ⟨hs, hm⟩
  | cons hstep _ ih =>
    obtain ⟨hs₁, hm₁, -⟩ := hstep.keeps hs hm
    exact ih hs₁ hm₁

/-! ## Frames that a call takes -/

theorem allocVmPages_spends (ept n gpa : Nat) : Spends id (4 * n) (allocVmPages ept n gpa) := by
  induction n generalizing gpa with
  | zero => exact Spends.pure ()
  | succ n ih =>
    have hturn : 4 * (n + 1) = 1 + (3 + 4 * n) := by ring
    rw [hturn]
    exact Spends.bind (Spends.allocPage 1) fun pp =>
      Spends.bind (Spends.insertPage _ _ pp _) fun _ => ih _

/-- What `sys_alloc_vm_mem` takes at most, the tables included. -/
def vmFrames (phys : Nat) : Nat :=
  3 + (4 * (0xA0000 / pageSize) + 4 * ((phys - 0x218000 + pageSize - 1) / pageSize))

theorem sysAllocVmMem_spends (ept phys : Nat) :
    Spends id (vmFrames phys) (sysAllocVmMem ept phys) := by
  obtain ⟨low, hlow⟩ : ∃ low, low = 0xA0000 / pageSize := ⟨_, rfl⟩
  obtain ⟨high, hhigh⟩ : ∃ high, high = (phys - 0x218000 + pageSize - 1) / pageSize := ⟨_, rfl⟩
  unfold sysAllocVmMem vmFrames
  rw [← hlow, ← hhigh]
  refine Spends.bind (Spends.walkPage _ _ _) fun o => ?_
  cases o with
  | none => exact (Spends.pure _).mono (Nat.zero_le _)
  | some pte =>
    exact Spends.next (Spends.store 8 pte _) fun _ =>
      Spends.bind (allocVmPages_spends _ _ _) fun _ =>
        Spends.bind (k := 0) (allocVmPages_spends _ _ _) fun _ => Spends.pure 0

/-- The calls return while there are frames on the list. -/
structure Served (g : Nat) (s : Mm) (l : List Nat) : Prop where
  alloc : ∀ phys, phys ≤ 2 ^ 48 → vmFrames phys ≤ l.length → ∃ s', VmStep g s (.alloc phys) s'
  mmap : ∀ addr gpa bytes pa, gpa < 2 ^ 48 → FitsPage gpa bytes.length →
    CallerBuffer s g addr bytes.length pa →
      (∀ i, i < bytes.length → s.mem (pa i) = bytes.getD i 0) →
        4 ≤ l.length → ∃ s', VmStep g s (.mmap gpa bytes) s'

theorem Guarded.served {l : List Nat} (h : Guarded g s) (hl : FreeList s l)
    (hst : s.starved = false) : Served g s l where
  alloc phys hphys hlen := by
    have hns := (sysAllocVmMem_spends (frameVa g) phys s l hl h.wellFormed.tables.small hlen hst).1
    obtain ⟨s', hrun, -⟩ := sysAllocVmMem_run h (fun _ => rfl) hphys hns
    refine ⟨s', .alloc hphys hrun ?_⟩
    rw [hrun] at hns
    exact hns
  mmap addr gpa bytes pa hgpa hfit hbuf hbytes hlen := by
    have hns := (sysMmapMem_served (frameVa g) addr bytes.length gpa 0 hl
      h.wellFormed.tables.small hlen hst).1
    obtain ⟨s', hrun, -⟩ := sysMmapMem_inside h (fun _ => rfl) hgpa hfit hbuf hbytes hns
    refine ⟨s', .mmap hgpa hfit hbuf hbytes hrun ?_⟩
    rw [hrun] at hns
    exact hns

end Page

/-! ## A guest -/

section Run

variable {s : Mm} {l : List Nat} {a b basicMsr : Nat}

/-- The state after `sys_create_vcpu` took the frames `a` and `b`. -/
def Mm.created (s : Mm) (basicMsr a b : Nat) : Mm :=
  ((s.taken pgzero a).setMem
    (Mem.wr 4 (s.taken pgzero a).mem (pageSize * a) (basicMsr &&& 0xFFFFFFFF))).taken pgzero b

/-- `sys_create_vcpu` takes two frames and stores to the first. -/
theorem sysCreateVcpu_run (basicMsr : Nat) (hn : s.npages ≤ 2 ^ 19) (hl : FreeList s (a :: b :: l)) :
    sysCreateVcpu basicMsr s = .ok (frameVa b) (s.created basicMsr a b) ∧
      FreeList (s.created basicMsr a b) l := by
  have hlt : ∀ f, f ∈ a :: b :: l → f < 2 ^ 19 := fun f hf =>
    Nat.lt_of_lt_of_le ((hl.mem f).mp hf).1 hn
  have ha := hlt a List.mem_cons_self
  have hb := hlt b (List.mem_cons_of_mem a List.mem_cons_self)
  have hhead : (s.taken pgzero a).phead = some b := hl.taken.chain.of_cons.1
  have hfirst : allocPage 1 s = .ok (some a) (s.taken pgzero a) :=
    allocPage_some hl.chain.of_cons.1 ha
  have hstore := @store_ok (s.taken pgzero a) 4 (frameVa a) (pageSize * a) (basicMsr &&& 0xFFFFFFFF)
    (Mm.kpa_frameVa (o := 0) ha (by decide))
  have hsecond : ∀ m : Mem, allocPage 1 ((s.taken pgzero a).setMem m) =
      .ok (some b) (((s.taken pgzero a).setMem m).taken pgzero b) := fun m =>
    allocPage_some hhead hb
  constructor
  · unfold sysCreateVcpu Mm.created
    rw [Act.bind_ok hfirst, Act.gets_bind_apply, Mm.page2va_some ha, Act.bind_ok hstore,
      Act.bind_ok (hsecond _), Act.gets_apply, Mm.page2va_some hb]
  · exact FreeList.taken (FreeList.congr hl.taken rfl rfl rfl)

@[simp] theorem created_npages : (s.created basicMsr a b).npages = s.npages := by
  rw [Mm.created, Mm.taken_npages, Mm.setMem_npages, Mm.taken_npages]

theorem created_count (basicMsr : Nat) (hl : FreeList s (a :: b :: l)) (f : Nat) :
    (s.created basicMsr a b).count f = if f = b ∨ f = a then 1 else s.count f := by
  have hza := ((hl.mem a).mp List.mem_cons_self).2
  have hzb := ((hl.mem b).mp (List.mem_cons_of_mem a List.mem_cons_self)).2
  have hab : b ≠ a := by
    rintro rfl
    exact (List.nodup_cons.mp hl.nodup).1 List.mem_cons_self
  rw [Mm.created, Mm.taken_count, Mm.setMem_count, Mm.setMem_count, Mm.taken_count, Mm.taken_count,
    if_neg hab, hza, hzb]
  by_cases hb : f = b
  · rw [if_pos hb, if_pos (.inl hb)]
    rfl
  · rw [if_neg hb]
    by_cases ha : f = a
    · rw [if_pos ha, if_pos (.inr ha)]
      rfl
    · rw [if_neg ha, if_neg (fun h => h.elim hb ha)]

theorem created_bytes {f o : Nat} (ha : f ≠ a) (hb : f ≠ b) (ho : o < pageSize) :
    (s.created basicMsr a b).mem (pageSize * f + o) = s.mem (pageSize * f + o) := by
  rw [Mm.created, taken_bytes hb ho, Mm.setMem_mem, Mem.wr, Mem.overlay_out, taken_bytes ha ho]
  unfold pageSize at *
  omega

/-- A new guest is by itself and has no memory. -/
theorem sysCreateVcpu_guarded (basicMsr : Nat) (hn : s.npages ≤ 2 ^ 19) (hl : FreeList s (a :: b :: l))
    (hcount : ∀ f, 0 ≤ s.count f ∧ s.count f < 2 ^ 31)
    (hvga : vgaFrame < s.npages ∧ 1 ≤ s.count vgaFrame) :
    Guarded b (s.created basicMsr a b) ∧ ReadsMem b (s.created basicMsr a b) fun _ => none := by
  obtain ⟨-, hl'⟩ := sysCreateVcpu_run basicMsr hn hl
  have hza := ((hl.mem a).mp List.mem_cons_self).2
  have hzb := (hl.mem b).mp (List.mem_cons_of_mem a List.mem_cons_self)
  have hcounts := created_count basicMsr hl
  have hne : ¬ (vgaFrame = b ∨ vgaFrame = a) := by
    rintro (h | h)
    · rw [h, hzb.2] at hvga
      exact absurd hvga.2 (by decide)
    · rw [h, hza] at hvga
      exact absurd hvga.2 (by decide)
  obtain ⟨hwf, hone, hframe⟩ := @WellFormed.empty (s.created basicMsr a b) b
    (by rw [created_npages]; exact hn) ⟨l, hl'⟩
    (fun f => by
      rw [hcounts]
      have hc := hcount f
      split <;> omega)
    ⟨by rw [created_npages]; exact hzb.1, by rw [hcounts, if_pos (.inl rfl)]; decide⟩
    (fun i hi => Mem.rd_zero fun x h1 h2 => by
      rw [Mm.created, Mm.taken_mem_zeroed, Mem.fill]
      exact Mem.overlay_in (by unfold pageSize at *; omega))
  refine ⟨⟨hwf, ⟨?_, ?_, ?_⟩, ?_, ?_⟩, fun x => ?_⟩
  · rw [created_npages]
    exact hvga.1
  · rw [hcounts, if_neg hne]
    exact hvga.2
  · intro ht
    exact hne (.inl (hone _ ht))
  · intro page _ hf
    rw [hframe] at hf
    cases hf
  · intro page _ f hf
    rw [hframe] at hf
    cases hf
  · rw [guestCell, hframe]
    split <;> rfl

/-- The frame at a page is the screen, at its page, or the guest's alone: it has no other
reference, is no table, and is at no other page. -/
def Alone (g : Nat) (s : Mm) (page f : Nat) : Prop :=
  (f = vgaFrame ∧ page = vgaFrame) ∨
    (s.count f = 1 ∧ ¬ IsTable 512 s.mem (dir g) f ∧
      ∀ page' ∈ allPages, frameOf s.mem g page' = some f → page' = page)

theorem Guarded.alone_at {g page f : Nat} (h : Guarded g s) (hp : page ∈ allPages)
    (hf : frameOf s.mem g page = some f) : Alone g s page f := by
  by_cases hvga : f = vgaFrame
  · subst hvga
    exact .inl ⟨rfl, h.window page hp hf⟩
  · exact .inr ⟨h.alone page hp f hf hvga, (h.wellFormed.mapped hp hf).2,
      fun page' hp' hf' => h.unique hp' hp hf' hf⟩

/-- GUEST MEMORY: from `sys_create_vcpu` on, in every run of calls with whatever the rest of
the kernel does in between, the guest reads what the calls so far say and nothing else; each
frame it has mapped is its alone, but for the screen; a call stores to no frame that was in
use, the tables apart, and leaves its count; and a call returns while there are frames. -/
theorem guest_memory (hn : s.npages ≤ 2 ^ 19) (hl : FreeList s (a :: b :: l))
    (hcount : ∀ f, 0 ≤ s.count f ∧ s.count f < 2 ^ 31)
    (hvga : vgaFrame < s.npages ∧ 1 ≤ s.count vgaFrame) :
    ∃ s₁, sysCreateVcpu basicMsr s = .ok (frameVa b) s₁ ∧
      ∀ es s', Steps (VmStep b) s₁ es s' →
        ReadsMem b s' (es.foldl GuestMem.after fun _ => none) ∧
        (∀ page ∈ allPages, ∀ f, frameOf s'.mem b page = some f → Alone b s' page f) ∧
        (∀ e s'', VmStep b s' e s'' → e ≠ .rest → LeavesUsed b s' s'') ∧
        ∀ l', FreeList s' l' → s'.starved = false → Served b s' l' := by
  obtain ⟨hrun, -⟩ := sysCreateVcpu_run basicMsr hn hl
  obtain ⟨hs₁, hm₁⟩ := sysCreateVcpu_guarded basicMsr hn hl hcount hvga
  refine ⟨_, hrun, fun es s' hsteps => ?_⟩
  obtain ⟨hs', hm'⟩ := vmSteps_keep hsteps hs₁ hm₁
  exact ⟨hm', fun page hp f hf => hs'.alone_at hp hf,
    fun e s'' hstep he => (hstep.keeps hs' hm').2.2 he, fun l' hl' hst => hs'.served hl' hst⟩

/-- The frames up to the screen's are in use, and seven are free; frame 2 holds the
bytes to copy. -/
def sampleScreen : Mm where
  mem := fun x => if x / pageSize = 2 then 5 else 0
  pages := fun i => if i < 0xb9 then { count := 1 } else
    { link := if i + 1 < 0xc0 then some (i + 1) else none }
  phead := some 0xb9
  npages := 0xc0
  kusedMem := 0
  pagesVa := 0
  cr3 := 0
  starved := false

theorem sampleScreen_count (f : Nat) : sampleScreen.count f = if f < 0xb9 then 1 else 0 := by
  show (if f < 0xb9 then _ else _ : Page).count = _
  split <;> rfl

theorem sampleScreen_list :
    FreeList sampleScreen [0xb9, 0xba, 0xbb, 0xbc, 0xbd, 0xbe, 0xbf] := by
  refine ⟨.cons (.cons (.cons (.cons (.cons (.cons (.cons .nil)))))), fun f => ?_⟩
  have hnpages : sampleScreen.npages = 0xc0 := rfl
  rw [sampleScreen_count, hnpages]
  simp only [List.mem_cons, List.not_mem_nil, or_false]
  split <;> omega

/-- The first guest in 192 frames. -/
def sampleCreated : Mm := sampleScreen.created 1 0xb9 0xba

theorem sampleCreated_guarded : Guarded 0xba sampleCreated :=
  (sysCreateVcpu_guarded 1 (by decide : 0xc0 ≤ 2 ^ 19) sampleScreen_list
    (fun f => by rw [sampleScreen_count]; split <;> decide)
    ⟨(by decide : vgaFrame < 0xc0), by rw [sampleScreen_count]; decide⟩).1

/-- A guest in 192 frames: the rest of the kernel uses a frame and gives it back, a byte
is mapped for the guest, and the guest reads it. -/
theorem guest_memory_screen : ∃ s₁ s', sysCreateVcpu 1 sampleScreen = .ok (frameVa 0xba) s₁ ∧
    Steps (VmStep 0xba) s₁ [.rest, .rest, .rest, .mmap 0x10 [5]] s' ∧
    guestByte s' 0xba 0x10 = some 5 ∧ guestByte s' 0xba 0x11 = some 0 ∧
    guestByte s' 0xba 0x1000 = none := by
  have hn : sampleScreen.npages ≤ 2 ^ 19 := (by decide : 0xc0 ≤ 2 ^ 19)
  obtain ⟨hrun, hl⟩ := sysCreateVcpu_run 1 hn sampleScreen_list
  obtain ⟨s₁, hrun₁, hsteps⟩ := @guest_memory _ _ _ _ 1 hn sampleScreen_list
    (fun f => by rw [sampleScreen_count]; split <;> decide)
    ⟨(by decide : vgaFrame < 0xc0), by rw [sampleScreen_count]; decide⟩
  have hs₁ : s₁ = sampleCreated := by
    rw [hrun] at hrun₁
    injection hrun₁ with _ hs
    exact hs.symm
  subst hs₁
  obtain ⟨s₂, hrest, hl₂, hst₂, hmem₂, hcount₂⟩ :=
    sampleCreated_guarded.beside_frame (m := (sampleCreated.taken pgzero 0xbb).mem.overlay
      (pageSize * 0xbb) pageSize fun _ => 7) hl fun f o hf ho => Mem.overlay_out (by
        unfold pageSize at *
        omega)
  obtain ⟨hreads₂, -, -, hserved⟩ := hsteps _ _ hrest
  -- frame 2 stays in use, and stays as it is
  have hused : ¬ s₂.Free 2 := by
    rintro ⟨-, hz⟩
    rw [hcount₂, sampleCreated, created_count 1 sampleScreen_list, sampleScreen_count] at hz
    exact absurd hz (by decide)
  have hbyte : s₂.mem (pageSize * 2 + 0) = 5 := by
    rw [hmem₂, Mem.overlay_out (by decide), taken_bytes (by decide) (by decide), sampleCreated,
      created_bytes (by decide) (by decide) (by decide)]
    rfl
  have hguest : ¬ GuestFrame s₂ 0xba 2 := by
    rintro ⟨page, hpage, hf⟩
    have hnone := hreads₂ (pageSize * page)
    have hdiv : pageSize * page / pageSize = page := Nat.mul_div_cancel_left _ (by decide)
    rw [guestCell_of_frame (page_lt hpage) (hdiv.symm ▸ hf)] at hnone
    cases hnone
  obtain ⟨s₃, hmap⟩ := (hserved _ hl₂ hst₂).mmap (frameVa 2) 0x10 [5] (fun i => pageSize * 2 + i)
    (by decide) (by decide : 0x10 % pageSize + 1 ≤ pageSize) (buffer_two (by decide) hused hguest)
    (fun i hi => by
      obtain rfl : i = 0 := Nat.lt_one_iff.mp hi
      exact hbyte) (by decide)
  have hall := hrest.snoc hmap
  obtain ⟨hreads, -⟩ := hsteps _ _ hall
  refine ⟨_, s₃, hrun, hall, ?_, ?_, ?_⟩ <;> rw [guestByte_cell, hreads] <;> rfl

end Run

end Myos.Kernel
