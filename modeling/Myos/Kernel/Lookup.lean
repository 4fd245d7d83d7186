import Myos.Kernel.Blocks

/-!
# Names

`strcmp` of `lib.c` on strings in the direct map, and with it the search of one
block of the root directory. `Spells` is a string in memory, byte by byte.
-/

namespace Myos.Kernel

open Myos.Lib

/-- The string at `a`: its characters, and the nought that ends it. -/
def Spells (m : Mem) : Nat → List UInt8 → Prop
  | a, [] => m a = 0
  | a, c :: cs => m a = c ∧ c ≠ 0 ∧ Spells m (a + 1) cs

section Strings

variable {s : Mm} {a b n : Nat} {cs ds : List UInt8}

/-- A string depends on its own bytes. -/
theorem Spells.congr {m m' : Mem} (h : Spells m a cs)
    (hm : ∀ x, a ≤ x → x ≤ a + cs.length → m' x = m x) : Spells m' a cs := by
  induction cs generalizing a with
  | nil => exact (hm a (Nat.le_refl a) (Nat.le_refl _)).trans h
  | cons c cs ih =>
    obtain ⟨hc, hne, hrest⟩ := h
    refine ⟨(hm a (Nat.le_refl a) (Nat.le_add_right a _)).trans hc, hne, ih hrest fun x h1 h2 => ?_⟩
    refine hm x (by omega) ?_
    rw [List.length_cons]
    omega

/-- What `strcmp` does with one character of each string. -/
theorem strcmpLoop_succ (ha : a < 2 ^ 31) (hb : b < 2 ^ 31) :
    strcmpLoop (n + 1) (kbase + a) (kbase + b) s =
      if s.mem a ≠ 0 ∨ s.mem b ≠ 0 then
        if s.mem a = s.mem b then strcmpLoop n (kbase + (a + 1)) (kbase + (b + 1)) s
        else .ok 1 s
      else .ok 0 s := by
  have hzero : ∀ x : UInt8, x.toNat ≠ 0 ↔ x ≠ 0 := fun x =>
    not_congr ⟨fun h => UInt8.toNat_inj.mp h, fun h => by rw [h]; rfl⟩
  rw [strcmpLoop, Act.bind_ok (load_byte ha), Act.bind_ok (load_byte hb), Nat.add_assoc,
    Nat.add_assoc]
  simp only [hzero, UInt8.toNat_inj]
  split
  · split <;> rfl
  · rfl

/-- `strcmp` returns nought for equal strings and for no others. -/
theorem strcmpLoop_run (ha : Spells s.mem a cs) (hb : Spells s.mem b ds)
    (halt : a + cs.length < 2 ^ 31) (hblt : b + ds.length < 2 ^ 31) (hn : cs.length < n) :
    strcmpLoop n (kbase + a) (kbase + b) s = .ok (if cs = ds then 0 else 1) s := by
  induction cs generalizing a b n ds with
  | nil =>
    obtain ⟨n, rfl⟩ := Nat.exists_eq_succ_of_ne_zero (Nat.ne_of_gt hn)
    have ha0 : s.mem a = 0 := ha
    rw [strcmpLoop_succ (by omega) (by omega), ha0]
    cases ds with
    | nil =>
      have hb0 : s.mem b = 0 := hb
      rw [hb0, if_neg (by simp), if_pos rfl]
    | cons d ds =>
      rw [hb.1, if_pos (.inr hb.2.1), if_neg fun h => hb.2.1 h.symm, if_neg (by simp)]
  | cons c cs ih =>
    rw [List.length_cons] at halt hn
    obtain ⟨n, rfl⟩ := Nat.exists_eq_succ_of_ne_zero (Nat.ne_of_gt (Nat.zero_lt_of_lt hn))
    rw [strcmpLoop_succ (by omega) (by omega), ha.1, if_pos (.inl ha.2.1)]
    cases ds with
    | nil =>
      have hb0 : s.mem b = 0 := hb
      rw [hb0, if_neg ha.2.1, if_neg (by simp)]
    | cons d ds =>
      rw [List.length_cons] at hblt
      rw [hb.1]
      by_cases hcd : c = d
      · rw [if_pos hcd, ih ha.2.2 hb.2.2 (by omega) (by omega) (by omega)]
        simp only [hcd, List.cons.injEq, true_and]
      · rw [if_neg hcd, if_neg fun h => hcd (List.cons.inj h).1]

end Strings

/-! ## The root directory -/

section Directory

variable {s : Fs} {l : List Nat} {cs : List UInt8} {a d ino no : Nat}

/-- The search of a block ends at its first entry, if that has the name. -/
theorem walkEntries_first (n : Nat) (hname : Spells s.mm.mem a cs)
    (hentry : Spells s.mm.mem (d + nameOff) cs) (halt : a + cs.length < 2 ^ 31)
    (hdlt : d + nameOff + cs.length < 2 ^ 31) (hino : Mem.rd 2 s.mm.mem (d + inoOff) = ino) :
    walkEntries (kbase + a) (n + 1) (kbase + d) s = .ok (some (s.inoTable + inodeSize * ino)) s := by
  have hcmp : strcmp (kbase + d + nameOff) (kbase + a) s.mm = .ok 0 s.mm := by
    rw [strcmp, Nat.add_assoc, strcmpLoop_run hentry hname hdlt halt (by omega), if_pos rfl]
  have hload : load 2 (kbase + d + inoOff) s.mm = .ok ino s.mm := by
    rw [Nat.add_assoc, load_ok (s.mm.kpa_direct (by unfold inoOff nameOff at *; omega)), hino]
  rw [walkEntries, Act.bind_ok (fsMm_ok hcmp), if_pos rfl, Fs.setMm_self,
    Act.bind_ok (fsMm_ok hload), Act.gets_bind_apply]
  rfl

/-- `walk_path` finds a file whose entry is the first of the directory. -/
theorem walkPath_first (hl : FreeList s.mm l) (hn : s.mm.npages ≤ 2 ^ 19)
    (hroot : Kept l s.inoTable inodeSize) (hsize : blkSize ≤ Mem.rd 4 s.mm.mem (s.inoTable - kbase))
    (hno : s.slot s.inoTable 0 = no) (hne : no ≠ 0)
    (hentry : Spells s.disk (blkSize * no + nameOff) cs) (hlen : nameOff + cs.length < blkSize)
    (hino : Mem.rd 2 s.disk (blkSize * no + inoOff) = ino)
    (hname : ∀ m : Mem, (∀ x, x / pageSize ∉ l → m x = s.mm.mem x) → Spells m a cs)
    (halt : a + cs.length < 2 ^ 31) (hfree : l ≠ []) :
    ∃ q l' s', l = q :: l' ∧ Took s l s' l' ∧ s'.starved = s.starved ∧
      walkPath (kbase + a) s = .ok (0, some (s.inoTable + inodeSize * ino)) s' := by
  obtain ⟨q, l', rfl⟩ := List.exists_cons_of_ne_nil hfree
  obtain ⟨s', hread, htook, hq, -, hstarved, hbytes⟩ := bread_ok no hl hn
  have hroot' : s.inoTable + inodeSize * rootInode = s.inoTable := by
    rw [rootInode, Nat.mul_zero, Nat.add_zero]
  have hsize' : load 4 (s.inoTable + diSizeOff) s.mm =
      .ok (Mem.rd 4 s.mm.mem (s.inoTable - kbase)) s.mm := by
    rw [diSizeOff, Nat.add_zero, hroot.load (by decide) 4]
  obtain ⟨n, hblocks⟩ := Nat.exists_eq_succ_of_ne_zero
    (Nat.ne_of_gt (Nat.div_pos hsize (by decide : 0 < blkSize)))
  have hslot : fsMm (load 2 (blockSlot s.inoTable 0)) s = .ok no s :=
    (⟨hroot.slot (Nat.zero_le 10), hno⟩ : Entry s (q :: l') (blockSlot s.inoTable 0) no).load
  have hinto : s'.inoTable = s.inoTable := by
    rw [htook.rest]
    rfl
  have hfound : walkEntries (kbase + a) (blkSize / directSize - 0) (frameVa q) s' =
      .ok (some (s.inoTable + inodeSize * ino)) s' := by
    have hblock : ∀ i, i < blkSize → s'.mm.mem (pageSize * q + i) = s.disk (blkSize * no + i) :=
      hbytes
    have hcopy : Spells s'.mm.mem (pageSize * q + nameOff) cs := by
      have hshift : ∀ {x y : Nat} {ds : List UInt8}, Spells s.disk y ds →
          (∀ i, i ≤ ds.length → s'.mm.mem (x + i) = s.disk (y + i)) → Spells s'.mm.mem x ds := by
        intro x y ds h hsame
        induction ds generalizing x y with
        | nil => exact (hsame 0 (Nat.le_refl 0)).trans h
        | cons c ds ih =>
          refine ⟨(hsame 0 (Nat.zero_le _)).trans h.1, h.2.1, ih h.2.2 fun i hi => ?_⟩
          have hnext := hsame (i + 1) (by rw [List.length_cons]; omega)
          rw [show x + (i + 1) = x + 1 + i by omega, show y + (i + 1) = y + 1 + i by omega] at hnext
          exact hnext
      refine hshift hentry fun i hi => ?_
      rw [Nat.add_assoc, Nat.add_assoc]
      exact hblock _ (by omega)
    have hcount : blkSize / directSize - 0 = 255 + 1 := by decide
    have hpos : pageSize * q + (nameOff + cs.length) < 2 ^ 31 := by
      unfold pageSize blkSize at *
      omega
    rw [hcount, frameVa, walkEntries_first 255 (hname _ htook.mem) hcopy halt
      (by rw [Nat.add_assoc]; exact hpos) ?_, hinto]
    rw [← hino]
    refine Mem.rd_shift fun i hi => ?_
    rw [Nat.add_assoc, Nat.add_assoc]
    exact hblock _ (by unfold inoOff blkSize; omega)
  refine ⟨q, l', s', rfl, htook, hstarved, ?_⟩
  unfold walkPath
  rw [Act.gets_bind_apply, hroot', Act.bind_ok (fsMm_ok hsize'), Fs.setMm_self, hblocks,
    walkPathLoop, Act.bind_ok (walkBlock_direct none 0 (by decide))]
  dsimp only
  rw [if_neg (by decide), Act.deref_bind_apply, Act.bind_ok hslot, if_pos hne, Act.bind_ok hread,
    Act.bind_ok hfound]
  rfl

end Directory

end Myos.Kernel
