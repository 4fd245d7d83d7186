import Myos.Lib.Act
import Myos.Lib.Mem
import Myos.Kernel.Layout

/-!
# Physical memory, the translation of addresses, and kernel accesses

The state `Mm` is what `kernel/mm.c` works on: the bytes of physical memory,
the array `pages`, the head of the free list, and the register `cr3`.

`mmu` is the processor's four-level walk (with the large pages the boot
tables are made of). It is not a function of the repository: it says what a
table tree in memory means for an access. User accesses need the user bit,
user stores the write bit; supervisor accesses need neither, because
`head.S` leaves `CR0.WP` clear.

A kernel access goes through a virtual address. From `kbase` on it is the
direct map, physical memory in order; below it is a user address and is
translated by the tables `cr3` names. Where nothing is mapped the access is
a page fault in the kernel, after which the code does not carry on.
-/

namespace Myos.Kernel

open Myos.Lib

/-- `struct page`. -/
structure Page where
  link : Option Nat := none
  count : Int := 0
deriving DecidableEq, Repr

/-- The state of `kernel/mm.c`. -/
structure Mm where
  mem : Mem
  pages : Nat → Page
  phead : Option Nat
  npages : Nat
  kusedMem : Nat
  /-- The address in the pointer `pages`. -/
  pagesVa : Nat
  cr3 : Nat
  /-- Ghost: some call of `alloc_page` found the list empty. Nothing reads it. -/
  starved : Bool

/-- Arithmetic in an `int`. -/
def int32 (x : Int) : Int := Int.bmod x (2 ^ 32)

theorem int32_of_bounds {x : Int} (h1 : -2 ^ 31 ≤ x) (h2 : x < 2 ^ 31) : int32 x = x := by
  unfold int32
  rw [Int.bmod_eq_of_le] <;> omega

theorem int32_bounds (x : Int) : -2 ^ 31 ≤ int32 x ∧ int32 x < 2 ^ 31 := by
  unfold int32
  have h1 := @Int.le_bmod x (2 ^ 32) (by decide)
  have h2 := @Int.bmod_lt x (2 ^ 32) (by decide)
  omega

theorem int32_add (x y : Int) : int32 (int32 x + y) = int32 (x + y) := by
  unfold int32
  rw [Int.bmod_add_bmod]

namespace Mm

def setMem (s : Mm) (m : Mem) : Mm := { s with mem := m }
def setPage (s : Mm) (i : Nat) (p : Page) : Mm := { s with pages := Function.update s.pages i p }
def setCount (s : Mm) (i : Nat) (c : Int) : Mm := s.setPage i { s.pages i with count := c }
def setPhead (s : Mm) (h : Option Nat) : Mm := { s with phead := h }

/-- The reference count of a frame. -/
def count (s : Mm) (i : Nat) : Int := (s.pages i).count

/-- The link of a frame's record. -/
def link (s : Mm) (i : Nat) : Option Nat := (s.pages i).link

section Fields

variable (s : Mm) (m : Mem) (i j : Nat) (p : Page) (c : Int) (h : Option Nat)

@[simp] theorem setMem_mem : (s.setMem m).mem = m := rfl
@[simp] theorem setMem_pages : (s.setMem m).pages = s.pages := rfl
@[simp] theorem setMem_phead : (s.setMem m).phead = s.phead := rfl
@[simp] theorem setMem_npages : (s.setMem m).npages = s.npages := rfl
@[simp] theorem setMem_pagesVa : (s.setMem m).pagesVa = s.pagesVa := rfl
@[simp] theorem setMem_cr3 : (s.setMem m).cr3 = s.cr3 := rfl
@[simp] theorem setMem_starved : (s.setMem m).starved = s.starved := rfl
@[simp] theorem setMem_count : (s.setMem m).count i = s.count i := rfl
@[simp] theorem setMem_link : (s.setMem m).link i = s.link i := rfl
@[simp] theorem setMem_setMem (m' : Mem) : (s.setMem m).setMem m' = s.setMem m' := rfl
@[simp] theorem setMem_self : s.setMem s.mem = s := rfl

@[simp] theorem setPage_mem : (s.setPage i p).mem = s.mem := rfl
@[simp] theorem setPage_phead : (s.setPage i p).phead = s.phead := rfl
@[simp] theorem setPage_npages : (s.setPage i p).npages = s.npages := rfl
@[simp] theorem setPage_pagesVa : (s.setPage i p).pagesVa = s.pagesVa := rfl
@[simp] theorem setPage_cr3 : (s.setPage i p).cr3 = s.cr3 := rfl
@[simp] theorem setPage_starved : (s.setPage i p).starved = s.starved := rfl

@[simp] theorem setCount_mem : (s.setCount i c).mem = s.mem := rfl
@[simp] theorem setCount_phead : (s.setCount i c).phead = s.phead := rfl
@[simp] theorem setCount_npages : (s.setCount i c).npages = s.npages := rfl
@[simp] theorem setCount_pagesVa : (s.setCount i c).pagesVa = s.pagesVa := rfl
@[simp] theorem setCount_cr3 : (s.setCount i c).cr3 = s.cr3 := rfl
@[simp] theorem setCount_starved : (s.setCount i c).starved = s.starved := rfl

theorem setPage_count : (s.setPage i p).count j = if j = i then p.count else s.count j := by
  unfold count setPage Function.update
  by_cases hj : j = i
  · subst hj; simp
  · simp [hj]

theorem setPage_link : (s.setPage i p).link j = if j = i then p.link else s.link j := by
  unfold link setPage Function.update
  by_cases hj : j = i
  · subst hj; simp
  · simp [hj]

theorem setCount_count : (s.setCount i c).count j = if j = i then c else s.count j := by
  rw [setCount, setPage_count]

@[simp] theorem setCount_link : (s.setCount i c).link j = s.link j := by
  rw [setCount, setPage_link]
  by_cases hj : j = i
  · rw [if_pos hj, hj]; rfl
  · rw [if_neg hj]

@[simp] theorem setPhead_mem : (s.setPhead h).mem = s.mem := rfl
@[simp] theorem setPhead_pages : (s.setPhead h).pages = s.pages := rfl
@[simp] theorem setPhead_phead : (s.setPhead h).phead = h := rfl
@[simp] theorem setPhead_npages : (s.setPhead h).npages = s.npages := rfl
@[simp] theorem setPhead_pagesVa : (s.setPhead h).pagesVa = s.pagesVa := rfl
@[simp] theorem setPhead_cr3 : (s.setPhead h).cr3 = s.cr3 := rfl
@[simp] theorem setPhead_starved : (s.setPhead h).starved = s.starved := rfl
@[simp] theorem setPhead_count : (s.setPhead h).count i = s.count i := rfl
@[simp] theorem setPhead_link : (s.setPhead h).link i = s.link i := rfl

end Fields

/-! ## Frames and the pointers to them -/

/-- `PAGE2PA`: the address of a frame. For the null pointer the source's
arithmetic is kept: the difference to `pages`, in records of 16 bytes. -/
def page2pa (s : Mm) : Option Nat → Nat
  | some i => i <<< pteShift
  | none => u64 (((2 ^ 64 - s.pagesVa) / 16) <<< pteShift)

/-- `PAGE2VA`: the direct-map address of a frame. -/
def page2va (s : Mm) (p : Option Nat) : Nat := u64 (kbase + s.page2pa p)

end Mm

/-! ## The processor's walk -/

/-- A table entry: the `i`-th 8-byte word of the frame `f`. -/
def Mem.entry (m : Mem) (f i : Nat) : Nat := Mem.rd 8 m (pageSize * f + 8 * i)

/-- The frame an entry refers to, bits 12 to 51. -/
def entryFrame (e : Nat) : Nat := e / pageSize % 2 ^ 40

/-- Who accesses, and how. -/
structure Access where
  user : Bool
  write : Bool
deriving DecidableEq, Repr

def Access.permits (a : Access) (e : Nat) : Bool :=
  !a.user || (e &&& pteU ≠ 0 && (!a.write || e &&& pteW ≠ 0))

/-- A translated address, or the two kinds of page fault. -/
inductive Xlate where
  | ok (pa : Nat)
  | notPresent
  | denied
deriving DecidableEq, Repr

def canonical (va : Nat) : Bool := va < 2 ^ 47 || (2 ^ 64 - 2 ^ 47 ≤ va && va < 2 ^ 64)

/-- The end of a walk: the page of `size` bytes an entry refers to. -/
def Xlate.page (size : Nat) (allowed : Bool) (e va : Nat) : Xlate :=
  if allowed then .ok (entryFrame e * pageSize / size * size + va % size) else .denied

/-- The translation of an address under the tables rooted in `cr3`. -/
def mmu (m : Mem) (cr3 va : Nat) (a : Access) : Xlate :=
  if !canonical va then .notPresent else
  let e4 := Mem.entry m (cr3 / pageSize) (pmlIndex va)
  if e4 &&& pteP = 0 then .notPresent else
  let e3 := Mem.entry m (entryFrame e4) (pdpIndex va)
  if e3 &&& pteP = 0 then .notPresent else
  if e3 &&& ptePs ≠ 0 then .page (2 ^ 30) (a.permits e4 && a.permits e3) e3 va else
  let e2 := Mem.entry m (entryFrame e3) (pgdIndex va)
  if e2 &&& pteP = 0 then .notPresent else
  if e2 &&& ptePs ≠ 0 then
    .page (2 ^ 21) (a.permits e4 && a.permits e3 && a.permits e2) e2 va
  else
  let e1 := Mem.entry m (entryFrame e2) (pteIndex va)
  if e1 &&& pteP = 0 then .notPresent else
  .page pageSize (a.permits e4 && a.permits e3 && a.permits e2 && a.permits e1) e1 va

/-! ## Kernel accesses -/

/-- The physical address behind a kernel access. The direct map is taken to reach every
frame; `head.S` maps the first 10 MB of it. -/
def Mm.kpa (s : Mm) (va : Nat) : Option Nat :=
  if kbase ≤ va ∧ va < 2 ^ 64 then some (va - kbase) else
  match mmu s.mem s.cr3 va ⟨false, false⟩ with
  | .ok pa => some pa
  | _ => none

/-- Load an `n`-byte word. -/
def load (n va : Nat) : Act Mm Nat := fun s =>
  match s.kpa va with
  | some pa => .ok (Mem.rd n s.mem pa) s
  | none => .fault s

/-- Store an `n`-byte word. -/
def store (n va v : Nat) : Act Mm Unit := fun s =>
  match s.kpa va with
  | some pa => .ok () (s.setMem (Mem.wr n s.mem pa v))
  | none => .fault s

/-- A number in memory that the kernel can read. -/
def Mm.Has (s : Mm) (n va v : Nat) : Prop := load n va s = .ok v s

/-- The string at `va`, as the code reads it. -/
def Mm.Reads (s : Mm) : Nat → List UInt8 → Prop
  | va, [] => s.Has 1 va 0
  | va, c :: cs => s.Has 1 va c.toNat ∧ c ≠ 0 ∧ Reads s (va + 1) cs

/-- `memset`, byte by byte. -/
def memset (va : Nat) (c : UInt8) : Nat → Act Mm Unit
  | 0 => pure ()
  | n + 1 => do
    store 1 va c.toNat
    memset (va + 1) c n

/-- `memcpy`, byte by byte from the low end. -/
def memcpy (dest src : Nat) : Nat → Act Mm Unit
  | 0 => pure ()
  | n + 1 => do
    store 1 dest (← load 1 src)
    memcpy (dest + 1) (src + 1) n

/-- The direct map: `kbase` and a physical address. -/
theorem Mm.kpa_direct {s : Mm} {pa : Nat} (h : pa < 2 ^ 31) : s.kpa (kbase + pa) = some pa := by
  have hrange : kbase ≤ kbase + pa ∧ kbase + pa < 2 ^ 64 := by
    unfold kbase
    omega
  rw [Mm.kpa, if_pos hrange, Nat.add_sub_cancel_left]

theorem load_ok {s : Mm} {n va pa : Nat} (h : s.kpa va = some pa) :
    load n va s = .ok (Mem.rd n s.mem pa) s := by
  rw [load, h]

theorem store_ok {s : Mm} {n va pa v : Nat} (h : s.kpa va = some pa) :
    store n va v s = .ok () (s.setMem (Mem.wr n s.mem pa v)) := by
  rw [store, h]

/-- A store of one byte is an overlay of one byte. -/
theorem wr_one (m : Mem) (a : Nat) (b : UInt8) :
    Mem.wr 1 m a b.toNat = m.overlay a 1 fun _ => b := by
  funext x
  unfold Mem.wr Mem.overlay
  split
  · rw [show x - a = 0 by omega]
    simp only [Nat.pow_zero, Nat.div_one, UInt8.ofNat_toNat]
  · rfl

/-- A longer overlay, its first byte laid first. -/
theorem overlay_succ (m f : Mem) (a n : Nat) :
    (m.overlay a 1 fun _ => f 0).overlay (a + 1) n (fun i => f (i + 1)) =
      m.overlay a (n + 1) f := by
  funext x
  unfold Mem.overlay
  by_cases h0 : x = a
  · subst h0
    rw [if_neg (by omega), if_pos (by omega), if_pos (by omega), Nat.sub_self]
  · by_cases h1 : a + 1 ≤ x ∧ x < a + 1 + n
    · rw [if_pos h1, if_pos (by omega)]
      exact congrArg f (by omega)
    · rw [if_neg h1, if_neg (by omega), if_neg (by omega)]

/-- `memset` in the direct map fills physical memory. -/
theorem memset_direct {s : Mm} {pa n : Nat} {c : UInt8} (h : pa + n ≤ 2 ^ 31) :
    memset (kbase + pa) c n s = .ok () (s.setMem (s.mem.fill pa n c)) := by
  induction n generalizing pa s with
  | zero =>
    have hmem : s.mem.fill pa 0 c = s.mem := by
      funext x
      exact Mem.overlay_out (by omega)
    rw [hmem]
    rfl
  | succ n ih =>
    have hst := store_ok (n := 1) (v := c.toNat) (s.kpa_direct (by omega : pa < 2 ^ 31))
    rw [memset, Act.bind_ok hst, Nat.add_assoc, ih (by omega), wr_one]
    have hfill := overlay_succ s.mem (fun _ => c) pa n
    rw [Mm.setMem_setMem, Mm.setMem_mem, Mem.fill, hfill, ← Mem.fill]

theorem rd_one (m : Mem) (a : Nat) : Mem.rd 1 m a = (m a).toNat := by
  simp [Mem.rd]

theorem load_byte {s : Mm} {a : Nat} (h : a < 2 ^ 31) :
    load 1 (kbase + a) s = .ok (s.mem a).toNat s := by
  rw [load_ok (s.kpa_direct h), rd_one]

/-- `memcpy` through any translation: the bytes behind `dest` become those
behind `src`, and no other byte changes. -/
theorem memcpy_scatter {s : Mm} (dest src : Nat) {n : Nat} (pd ps : Nat → Nat)
    (hkpa : ∀ m, (∀ x, (∀ i, i < n → x ≠ pd i) → m x = s.mem x) → ∀ i, i < n →
      (s.setMem m).kpa (dest + i) = some (pd i) ∧ (s.setMem m).kpa (src + i) = some (ps i))
    (hinj : ∀ i j, i < n → j < n → pd i = pd j → i = j)
    (hdisj : ∀ i j, i < n → j < n → pd i ≠ ps j) :
    ∃ m : Mem, memcpy dest src n s = .ok () (s.setMem m) ∧
      (∀ i, i < n → m (pd i) = s.mem (ps i)) ∧
      ∀ x, (∀ i, i < n → x ≠ pd i) → m x = s.mem x := by
  induction n generalizing s dest src pd ps with
  | zero => exact ⟨s.mem, rfl, fun i hi => absurd hi (Nat.not_lt_zero i), fun _ _ => rfl⟩
  | succ n ih =>
    obtain ⟨hd, hs⟩ := hkpa s.mem (fun _ _ => rfl) 0 (Nat.succ_pos n)
    rw [Mm.setMem_self, Nat.add_zero] at hd hs
    rw [memcpy, Act.bind_ok (load_ok hs), Act.bind_ok (store_ok hd), rd_one, wr_one]
    obtain ⟨m₁, hm₁, hfirst, hkeep⟩ : ∃ m₁ : Mem,
        m₁ = s.mem.overlay (pd 0) 1 (fun _ => s.mem (ps 0)) ∧ m₁ (pd 0) = s.mem (ps 0) ∧
          ∀ x, x ≠ pd 0 → m₁ x = s.mem x :=
      ⟨_, rfl, Mem.overlay_in (by omega), fun x hx => Mem.overlay_out (by omega)⟩
    rw [← hm₁]
    obtain ⟨m, hrun, hin, hout⟩ := ih (s := s.setMem m₁) (dest + 1) (src + 1)
      (fun i => pd (i + 1)) (fun i => ps (i + 1)) (fun m hm i hi => by
        have hstep : ∀ x, (∀ i, i < n + 1 → x ≠ pd i) → m x = s.mem x := fun x hx =>
          (hm x fun j hj => hx (j + 1) (by omega)).trans (hkeep x (hx 0 (Nat.succ_pos n)))
        rw [Mm.setMem_setMem, show dest + 1 + i = dest + (i + 1) by omega,
          show src + 1 + i = src + (i + 1) by omega]
        exact hkpa m hstep (i + 1) (by omega))
      (fun i j hi hj h => by have := hinj (i + 1) (j + 1) (by omega) (by omega) h; omega)
      (fun i j hi hj => hdisj (i + 1) (j + 1) (by omega) (by omega))
    refine ⟨m, hrun, fun i hi => ?_, fun x hx => ?_⟩
    · cases i with
      | zero =>
        refine (hout (pd 0) fun j hj h => ?_).trans hfirst
        have := hinj 0 (j + 1) (by omega) (by omega) h
        omega
      | succ i =>
        refine (hin i (by omega)).trans (hkeep _ fun h => ?_)
        exact hdisj 0 (i + 1) (by omega) hi h.symm
    · exact (hout x fun j hj => hx (j + 1) (by omega)).trans (hkeep x (hx 0 (Nat.succ_pos n)))

/-- `memcpy` between regions that do not meet, while the bytes it stores move
neither of them. -/
theorem memcpy_ok {s : Mm} {dest src pd ps n : Nat}
    (hkpa : ∀ m, (∀ x, x < pd ∨ pd + n ≤ x → m x = s.mem x) → ∀ i, i < n →
      (s.setMem m).kpa (dest + i) = some (pd + i) ∧ (s.setMem m).kpa (src + i) = some (ps + i))
    (hdisj : ps + n ≤ pd ∨ pd + n ≤ ps) : memcpy dest src n s =
      .ok () (s.setMem (s.mem.overlay pd n fun i => s.mem (ps + i))) := by
  obtain ⟨m, hrun, hin, hout⟩ := memcpy_scatter (s := s) (n := n) dest src
    (fun i => pd + i) (fun i => ps + i) (fun m hm => hkpa m fun x hx => hm x fun i hi => by omega)
    (fun i j _ _ h => by omega) (fun i j _ _ => by omega)
  have hm : m = s.mem.overlay pd n fun i => s.mem (ps + i) := by
    funext x
    by_cases hx : pd ≤ x ∧ x < pd + n
    · obtain ⟨i, rfl⟩ := Nat.exists_eq_add_of_le hx.1
      rw [Mem.overlay_in hx, Nat.add_sub_cancel_left]
      exact hin i (by omega)
    · rw [Mem.overlay_out (by omega)]
      exact hout x fun i hi => by omega
  rw [hrun, hm]

/-- Wherever `memcpy` ends, it changed memory only. -/
theorem memcpy_state (dest src n : Nat) (s : Mm) :
    ∃ m : Mem, (memcpy dest src n s).state = s.setMem m := by
  induction n generalizing s dest src with
  | zero => exact ⟨s.mem, rfl⟩
  | succ n ih =>
    unfold memcpy
    cases hs : s.kpa src with
    | none => exact ⟨s.mem, by rw [Act.bind_fault (by rw [load, hs])]; rfl⟩
    | some ps =>
      rw [Act.bind_ok (load_ok hs)]
      cases hd : s.kpa dest with
      | none => exact ⟨s.mem, by rw [Act.bind_fault (by rw [store, hd])]; rfl⟩
      | some pd =>
        rw [Act.bind_ok (store_ok hd)]
        obtain ⟨m, hm⟩ := ih (dest + 1) (src + 1) (s.setMem (Mem.wr 1 s.mem pd _))
        exact ⟨m, hm.trans (s.setMem_setMem _ m)⟩

/-- Wherever `memcpy` to the direct map ends, it changed the bytes there only. -/
theorem memcpy_direct_state {pa : Nat} (src : Nat) {n : Nat} (s : Mm) (hpa : pa + n ≤ 2 ^ 31) :
    ∃ m : Mem, (memcpy (kbase + pa) src n s).state = s.setMem m ∧
      ∀ x, x < pa ∨ pa + n ≤ x → m x = s.mem x := by
  induction n generalizing s pa src with
  | zero => exact ⟨s.mem, rfl, fun _ _ => rfl⟩
  | succ n ih =>
    unfold memcpy
    cases hs : s.kpa src with
    | none => exact ⟨s.mem, by rw [Act.bind_fault (by rw [load, hs])]; rfl, fun _ _ => rfl⟩
    | some ps =>
      rw [Act.bind_ok (load_ok hs), Act.bind_ok (store_ok (s.kpa_direct (by omega : pa < 2 ^ 31))),
        Nat.add_assoc kbase]
      obtain ⟨m, hm, hout⟩ := ih (src + 1) (s.setMem (Mem.wr 1 s.mem pa _))
        (by omega : pa + 1 + n ≤ 2 ^ 31)
      refine ⟨m, hm.trans (s.setMem_setMem _ m), fun x hx => ?_⟩
      exact (hout x (by omega)).trans (Mem.wr_out (n := 1) (by omega))

/-- The direct-map address of a frame. -/
def frameVa (f : Nat) : Nat := kbase + pageSize * f

/-- `PAGE2VA` of a frame in range. -/
theorem Mm.page2va_some {s : Mm} {f : Nat} (hf : f < 2 ^ 19) :
    s.page2va (some f) = frameVa f := by
  simp only [frameVa, Mm.page2va, Mm.page2pa, u64, pteShift, kbase, pageSize, Nat.shiftLeft_eq]
  omega

/-- The physical address behind a byte of a frame. -/
theorem Mm.kpa_frameVa {s : Mm} {f o : Nat} (hf : f < 2 ^ 19) (ho : o < pageSize) :
    s.kpa (frameVa f + o) = some (pageSize * f + o) := by
  unfold frameVa
  rw [Nat.add_assoc]
  refine s.kpa_direct ?_
  unfold pageSize at *
  omega

/-- Reading an entry of a frame. -/
theorem load_entry {s : Mm} {f i : Nat} (hf : f < 2 ^ 19) (hi : i < 512) :
    load 8 (frameVa f + 8 * i) s = .ok (Mem.entry s.mem f i) s :=
  load_ok (s.kpa_frameVa hf (by unfold pageSize; omega))

/-- Storing an entry of a frame. -/
theorem store_entry {s : Mm} {f i v : Nat} (hf : f < 2 ^ 19) (hi : i < 512) :
    store 8 (frameVa f + 8 * i) v s =
      .ok () (s.setMem (Mem.wr 8 s.mem (pageSize * f + 8 * i) v)) :=
  store_ok (s.kpa_frameVa hf (by unfold pageSize; omega))

/-- A frame is copied to another. -/
theorem memcpy_frame {s : Mm} {n k : Nat} (hn : n < 2 ^ 19) (hk : k < 2 ^ 19) (hne : k ≠ n) :
    ∃ m : Mem, memcpy (frameVa n) (frameVa k) pageSize s = .ok () (s.setMem m) ∧
      (∀ f o, f ≠ n → o < pageSize → m (pageSize * f + o) = s.mem (pageSize * f + o)) ∧
      ∀ o, o < pageSize → m (pageSize * n + o) = s.mem (pageSize * k + o) := by
  have hdisj : pageSize * k + pageSize ≤ pageSize * n ∨
      pageSize * n + pageSize ≤ pageSize * k := by
    unfold pageSize
    omega
  refine ⟨_, memcpy_ok (fun m _ o ho => ⟨Mm.kpa_frameVa (s := s.setMem m) hn ho,
    Mm.kpa_frameVa (s := s.setMem m) hk ho⟩) hdisj, fun f o hf ho => ?_, fun o ho => ?_⟩
  · refine Mem.overlay_out ?_
    unfold pageSize at *
    omega
  · rw [Mem.overlay_in ⟨Nat.le_add_right _ _, Nat.add_lt_add_left ho _⟩, Nat.add_sub_cancel_left]

end Myos.Kernel
