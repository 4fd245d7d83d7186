import Myos.Kernel.AddressSpace

/-!
# What the processor sees of an address space

The processor's walk (`mmu`) over a forest in order comes to the leaf: a page
without a present leaf faults as not present, and a present leaf is read by
everyone; a user's store needs its write bit, a store of the kernel does not.
-/

namespace Myos.Kernel

open Myos.Lib

/-! ## Bits of an entry -/

/-- An entry of a table: not present, or a link that lets everyone through. -/
theorem UserEntry.cases {e : Nat} (h : UserEntry e) :
    (e = 0 ∧ target e = none) ∨
      (target e = some (e / pageSize) ∧ e &&& pteP ≠ 0 ∧ e &&& ptePs = 0 ∧
        ∀ a : Access, a.permits e = true) := by
  rcases h with rfl | h7
  · exact .inl ⟨rfl, rfl⟩
  · have hbit : ∀ {k : Nat}, linkBits &&& k = k → e &&& k = 7 &&& k := fun hk => by
      rw [← h7, Nat.and_assoc, hk]
    have hp : e &&& pteP = 1 := hbit rfl
    have hu : e &&& pteU = 4 := hbit rfl
    have hw : e &&& pteW = 2 := hbit rfl
    have hps : e &&& ptePs = 0 := hbit rfl
    refine .inr ⟨?_, by rw [hp]; decide, hps, fun a => ?_⟩
    · rw [target, if_pos (by rw [hp]; decide)]
    · unfold Access.permits
      rw [hu, hw]
      cases a.user <;> cases a.write <;> rfl

theorem entryFrame_of_target {e f : Nat} (h : target e = some f) (hf : f < 2 ^ 19) :
    entryFrame e = f := by
  unfold target at h
  split at h
  · cases h
    exact Nat.mod_eq_of_lt (Nat.lt_trans hf (by decide))
  · cases h

/-! ## The walk -/

section Walk

variable {s : Mm} {root : Nat → Option Nat} {p g va f : Nat} {a : Access}

/-- A walk that ends early ends without a leaf. -/
theorem leaf_of_missing {m : Mem} {q : List Nat} {i : Nat} {l : List Nat}
    (hq : pathTo va = q ++ [i] ++ l) (hnone : tableAt m root p (q ++ [i]) = none) :
    leaf m root p va = 0 := by
  have hpath : tableAt m root p (pathTo va) = none := by
    rw [hq]
    clear hq
    induction l using List.reverseRecOn with
    | nil => rwa [List.append_nil]
    | append_singleton l k ih =>
      rw [← List.append_assoc, tableAt, Radix.node_snoc]
      rw [tableAt] at ih
      rw [ih]
      rfl
  rw [leaf, hpath]

/-- The processor's walk comes to the leaf. -/
theorem mmu_leaf (ht : Tables UserEntry userTop s root) (hroot : root p = some g)
    (hva : va < 2 ^ 47) (hsmall : ∀ f, target (leaf s.mem root p va) = some f → f < 2 ^ 19) :
    mmu s.mem (pageSize * g) va a =
      match target (leaf s.mem root p va) with
      | none => .notPresent
      | some f =>
        if a.permits (leaf s.mem root p va) then .ok (pageSize * f + va % pageSize) else .denied := by
  have hpml := pmlIndex_lt_userTop hva
  have h0 : tableAt s.mem root p [] = some g := by rw [tableAt, Radix.node_nil, hroot]
  have hcanon : canonical va = true := by
    unfold canonical
    rw [decide_eq_true hva, Bool.true_or]
  have hmiss := fun {q : List Nat} {i : Nat} {t : Nat} (hq : tableAt s.mem root p q = some t)
      (hn : target (Mem.entry s.mem t i) = none) =>
    show tableAt s.mem root p (q ++ [i]) = none by
      rw [tableAt, Radix.node_snoc]
      rw [tableAt] at hq
      rw [hq, Option.bind_some, hn]
  have hdiv : pageSize * g / pageSize = g := Nat.mul_div_cancel_left g (by decide)
  unfold mmu
  rw [hcanon, hdiv]
  simp only [Bool.not_true, Bool.false_eq_true, if_false]
  rcases (ht.flags (tablePath_one hpml) h0).cases with ⟨hz4, hn4⟩ | ⟨ht4, hp4, hs4, ha4⟩
  · rw [leaf_of_missing (l := [pdpIndex va, pgdIndex va]) rfl (hmiss h0 hn4), target_zero, hz4]
    rfl
  obtain ⟨h1, h1'⟩ := ht.step h0 (tablePath_one hpml) ht4
  rw [if_neg hp4, entryFrame_of_target ht4 h1']
  rcases (ht.flags (tablePath_two hpml) h1).cases with ⟨hz3, hn3⟩ | ⟨ht3, hp3, hs3, ha3⟩
  · rw [leaf_of_missing (l := [pgdIndex va]) rfl (hmiss h1 hn3), target_zero, hz3]
    rfl
  obtain ⟨h2, h2'⟩ := ht.step h1 (tablePath_two hpml) ht3
  rw [if_neg hp3, if_neg (by rw [hs3]; decide), entryFrame_of_target ht3 h2']
  rcases (ht.flags (tablePath_pathTo hpml) h2).cases with ⟨hz2, hn2⟩ | ⟨ht2, hp2, hs2, ha2⟩
  · rw [leaf_of_missing (l := []) rfl (hmiss h2 hn2), target_zero, hz2]
    rfl
  obtain ⟨h3, h3'⟩ := ht.step h2 (tablePath_pathTo hpml) ht2
  rw [if_neg hp2, if_neg (by rw [hs2]; decide), entryFrame_of_target ht2 h3', ha4, ha3, ha2]
  have hleaf : leaf s.mem root p va =
      Mem.entry s.mem (Mem.entry s.mem (Mem.entry s.mem (Mem.entry s.mem g (pmlIndex va) /
        pageSize) (pdpIndex va) / pageSize) (pgdIndex va) / pageSize) (pteIndex va) :=
    leaf_of_tableAt h3
  rw [← hleaf]
  cases hf : target (leaf s.mem root p va) with
  | none =>
    have habs : leaf s.mem root p va &&& pteP = 0 := not_not.mp (target_eq_none.mp hf)
    rw [if_pos habs]
  | some f =>
    rw [if_neg (present_of_target hf)]
    have hdiv' : f * pageSize / pageSize * pageSize = pageSize * f := by
      rw [Nat.mul_div_cancel _ (by decide), Nat.mul_comm]
    simp only [Bool.true_and, Xlate.page, entryFrame_of_target hf (hsmall f hf), hdiv']

end Walk

namespace Vm

variable {s : Mm} {root : Nat → Option Nat} {kdir : Nat} {held : Finset Nat} {p g va f : Nat}

/-- The processor's walk over a user page. -/
theorem mmu_user (h : Vm s root kdir held) (hroot : root p = some g) (hva : UserVa va)
    (a : Access) : mmu s.mem (pageSize * g) va a =
      match target (leaf s.mem root p va) with
      | none => .notPresent
      | some f =>
        if a.permits (leaf s.mem root p va) then .ok (pageSize * f + va % pageSize) else .denied :=
  mmu_leaf h.tables hroot hva.lt fun _ hf => h.frame_lt (h.mapped hva hf).1

/-- The kernel's own access to a user page. -/
theorem kpa_user (h : Vm s root kdir held) (hroot : root p = some g) (hcr3 : s.cr3 = pageSize * g)
    (hva : UserVa va) (hf : target (leaf s.mem root p va) = some f) :
    s.kpa va = some (pageSize * f + va % pageSize) := by
  have hlow : ¬ (kbase ≤ va ∧ va < 2 ^ 64) := by
    have := hva.lt
    unfold kbase
    omega
  have hper : Access.permits ⟨false, false⟩ (leaf s.mem root p va) = true := rfl
  rw [Mm.kpa, if_neg hlow, hcr3, h.mmu_user hroot hva, hf]
  simp only [hper, if_true]

/-- A page that is not mapped is not there for the kernel either. -/
theorem kpa_missing (h : Vm s root kdir held) (hroot : root p = some g)
    (hcr3 : s.cr3 = pageSize * g) (hva : UserVa va) (hz : leaf s.mem root p va = 0) :
    s.kpa va = none := by
  have hlow : ¬ (kbase ≤ va ∧ va < 2 ^ 64) := by
    have := hva.lt
    unfold kbase
    omega
  rw [Mm.kpa, if_neg hlow, hcr3, h.mmu_user hroot hva, hz, target_zero]

/-- What a user may do with a page that is mapped. -/
theorem permits_user (h : Vm s root kdir held) (hva : UserVa va) {w : Bool}
    (hf : target (leaf s.mem root p va) = some f) :
    Access.permits ⟨true, w⟩ (leaf s.mem root p va) = true ↔
      (w = true → leaf s.mem root p va &&& pteW ≠ 0) := by
  have hne : leaf s.mem root p va ≠ 0 := fun h => by rw [h, target_zero] at hf; cases hf
  have hu := (h.flags hva hne).2
  unfold Access.permits
  cases w <;> simp [hu]

end Vm

end Myos.Kernel
