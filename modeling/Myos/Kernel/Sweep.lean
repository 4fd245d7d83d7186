import Myos.Kernel.Fault

/-!
# The loops of `free_pgtable`

What the three loops do to the tables, whatever state they are run on: the
loops are taken over two operations, to look at an entry and to free what it
leads to (`sweepPmls`), and `free_pgtable` is their case for `load` and
`freeEntry`. An invariant that both operations keep, in step with the set of
paths whose tables are gone, is kept by the loops, and in the end every table
on the way to a user address is gone (`Sweeper.run`).
-/

namespace Myos.Kernel

open Myos.Lib

/-! ## The loops, over two operations -/

section Loops

variable {σ : Type} (look : Nat → Act σ Nat) (release : Nat → Act σ Unit)

/-- `freePgds`, with `look` for the loads and `release` for `freeEntry`. -/
def sweepPgds (srcPdp : Nat) : Nat → Nat → Act σ (Option Nat)
  | 0, _ => Act.stop
  | n + 1, addr => do
    let pdp ← look srcPdp
    let srcPgd := tableVa pdp + 8 * pgdIndex addr
    let pgd ← look srcPgd
    let next : Act σ (Option Nat) :=
      let addr := nextRow pgdSize addr
      if ustacktop ≤ addr then return none
      else if (srcPgd + 8) % pageSize ≠ 0 then sweepPgds srcPdp n addr
      else return some addr
    if pgd = 0 then next
    else do
      release srcPgd
      next

/-- `freePdps`. -/
def sweepPdps (srcPml : Nat) : Nat → Nat → Act σ (Option Nat)
  | 0, _ => Act.stop
  | n + 1, addr => do
    let pml ← look srcPml
    let srcPdp := tableVa pml + 8 * pdpIndex addr
    let pdp ← look srcPdp
    let next (addr : Nat) : Act σ (Option Nat) :=
      let addr := nextRow pdpSize addr
      if ustacktop ≤ addr then do
        release srcPml
        return none
      else if (srcPdp + 8) % pageSize ≠ 0 then sweepPdps srcPml n addr
      else return some addr
    if pdp = 0 then next addr
    else do
      match ← sweepPgds look release srcPdp 512 addr with
      | none =>
        release srcPdp
        release srcPml
        return none
      | some addr =>
        release srcPdp
        next addr

/-- `freePmls`. -/
def sweepPmls (src : Nat) : Nat → Nat → Act σ Unit
  | 0, _ => Act.stop
  | n + 1, addr => do
    let srcPml := src + 8 * pmlIndex addr
    let pml ← look srcPml
    let next (addr : Nat) : Act σ Unit :=
      let addr := nextRow pmlSize addr
      if ustacktop ≤ addr then return ()
      else if (srcPml + 8) % pageSize ≠ 0 then sweepPmls src n addr
      else return ()
    if pml = 0 then next addr
    else do
      match ← sweepPdps look release srcPml 512 addr with
      | none => return ()
      | some addr =>
        release srcPml
        next addr

end Loops

/-- The loops of the source are the case of `load` and `freeEntry`. -/
theorem freePgds_eq (srcPdp n addr : Nat) :
    freePgds srcPdp n addr = sweepPgds (load 8) freeEntry srcPdp n addr := by
  induction n generalizing addr with
  | zero => rfl
  | succ n ih =>
    unfold freePgds sweepPgds
    simp only [ih]

theorem freePdps_eq (srcPml n addr : Nat) :
    freePdps srcPml n addr = sweepPdps (load 8) freeEntry srcPml n addr := by
  induction n generalizing addr with
  | zero => rfl
  | succ n ih =>
    unfold freePdps
    simp only [ih, freePgds_eq]
    rfl

theorem freePmls_eq (src n addr : Nat) :
    freePmls src n addr = sweepPmls (load 8) freeEntry src n addr := by
  induction n generalizing addr with
  | zero => rfl
  | succ n ih =>
    unfold freePmls
    simp only [ih, freePdps_eq]
    rfl

/-! The loops on a larger state, and on the part of it that they work on. -/

section Lifts

variable {σ τ : Type} {h : τ → σ} {look' : Nat → Act τ Nat} {look : Nat → Act σ Nat}
variable {release' : Nat → Act τ Unit} {release : Nat → Act σ Unit}
variable (hlook : ∀ slot, Act.Lifts h (look' slot) (look slot))
variable (hrel : ∀ slot, Act.Lifts h (release' slot) (release slot))

include hlook hrel

theorem sweepPgds_lifts (srcPdp n addr : Nat) :
    Act.Lifts h (sweepPgds look' release' srcPdp n addr) (sweepPgds look release srcPdp n addr) := by
  induction n generalizing addr with
  | zero => exact .stop
  | succ n ih =>
    simp only [sweepPgds]
    refine .bind (hlook srcPdp) fun pdp => .bind (hlook _) fun pgd => ?_
    have hnext : Act.Lifts h
        (if ustacktop ≤ nextRow pgdSize addr then (pure none : Act τ (Option Nat))
          else if (tableVa pdp + 8 * pgdIndex addr + 8) % pageSize ≠ 0 then
            sweepPgds look' release' srcPdp n (nextRow pgdSize addr)
          else pure (some (nextRow pgdSize addr)))
        (if ustacktop ≤ nextRow pgdSize addr then (pure none : Act σ (Option Nat))
          else if (tableVa pdp + 8 * pgdIndex addr + 8) % pageSize ≠ 0 then
            sweepPgds look release srcPdp n (nextRow pgdSize addr)
          else pure (some (nextRow pgdSize addr))) := by
      split_ifs
      · exact .pure _
      · exact ih _
      · exact .pure _
    split
    · exact hnext
    · exact .bind (hrel _) fun _ => hnext

theorem sweepPdps_lifts (srcPml n addr : Nat) :
    Act.Lifts h (sweepPdps look' release' srcPml n addr) (sweepPdps look release srcPml n addr) := by
  induction n generalizing addr with
  | zero => exact .stop
  | succ n ih =>
    simp only [sweepPdps]
    refine .bind (hlook srcPml) fun pml => .bind (hlook _) fun pdp => ?_
    have hnext : ∀ a, Act.Lifts h
        (if ustacktop ≤ nextRow pdpSize a then do
            release' srcPml
            (pure none : Act τ (Option Nat))
          else if (tableVa pml + 8 * pdpIndex addr + 8) % pageSize ≠ 0 then
            sweepPdps look' release' srcPml n (nextRow pdpSize a)
          else pure (some (nextRow pdpSize a)))
        (if ustacktop ≤ nextRow pdpSize a then do
            release srcPml
            (pure none : Act σ (Option Nat))
          else if (tableVa pml + 8 * pdpIndex addr + 8) % pageSize ≠ 0 then
            sweepPdps look release srcPml n (nextRow pdpSize a)
          else pure (some (nextRow pdpSize a))) := by
      intro a
      split_ifs
      · exact .bind (hrel _) fun _ => .pure _
      · exact ih _
      · exact .pure _
    split
    · exact hnext addr
    · refine .bind (sweepPgds_lifts hlook hrel _ 512 addr) fun o => ?_
      cases o with
      | none => exact .bind (hrel _) fun _ => .bind (hrel _) fun _ => .pure _
      | some a => exact .bind (hrel _) fun _ => hnext a

theorem sweepPmls_lifts (src n addr : Nat) :
    Act.Lifts h (sweepPmls look' release' src n addr) (sweepPmls look release src n addr) := by
  induction n generalizing addr with
  | zero => exact .stop
  | succ n ih =>
    simp only [sweepPmls]
    refine .bind (hlook _) fun pml => ?_
    have hnext : ∀ a, Act.Lifts h
        (if ustacktop ≤ nextRow pmlSize a then (pure () : Act τ Unit)
          else if (src + 8 * pmlIndex addr + 8) % pageSize ≠ 0 then
            sweepPmls look' release' src n (nextRow pmlSize a)
          else pure ())
        (if ustacktop ≤ nextRow pmlSize a then (pure () : Act σ Unit)
          else if (src + 8 * pmlIndex addr + 8) % pageSize ≠ 0 then
            sweepPmls look release src n (nextRow pmlSize a)
          else pure ()) := by
      intro a
      split_ifs
      · exact .pure _
      · exact ih _
      · exact .pure _
    split
    · exact hnext addr
    · refine .bind (sweepPdps_lifts hlook hrel _ 512 addr) fun o => ?_
      cases o with
      | none => exact .pure _
      | some a => exact .bind (hrel _) fun _ => hnext a

end Lifts

/-! ## The paths -/

/-- A table on the way to a user address. -/
def OnWay (path : List Nat) : Prop := ∃ va, UserVa va ∧ path <+: pathTo va

/-- The user addresses are in one row of one page directory, in the first half of it. -/
theorem userRow : pmlIndex utext = 0 ∧ pdpIndex utext = 2 := by decide

theorem pathTo_user {va : Nat} (hva : UserVa va) : ∃ j, j < 128 ∧ pathTo va = [0, 2, j] := by
  unfold UserVa utext ustacktop pageSize at hva
  refine ⟨pgdIndex va, ?_, ?_⟩
  · rw [pgdIndex_eq]
    omega
  · unfold pathTo
    rw [pmlIndex_eq, pdpIndex_eq]
    congr
    · omega
    · omega

/-- The first address of a row. -/
theorem pathTo_row {k : Nat} (hk : k < 128) :
    UserVa (utext + pgdSize * k) ∧ pathTo (utext + pgdSize * k) = [0, 2, k] := by
  have h1 : pgdSize = 2097152 := by decide
  have h2 : utext = 2097152 * 1024 := by decide
  refine ⟨?_, ?_⟩
  · unfold UserVa ustacktop pageSize
    rw [h1, h2]
    omega
  · unfold pathTo
    rw [pmlIndex_eq, pdpIndex_eq, pgdIndex_eq, h1, h2]
    congr 1
    · omega
    · congr 1
      · omega
      · congr 1
        omega

theorem onWay_iff {path : List Nat} : OnWay path ↔ ∃ j, j < 128 ∧ path <+: [0, 2, j] := by
  constructor
  · rintro ⟨va, hva, hpre⟩
    obtain ⟨j, hj, hpath⟩ := pathTo_user hva
    exact ⟨j, hj, hpath ▸ hpre⟩
  · rintro ⟨j, hj, hpre⟩
    obtain ⟨hva, hpath⟩ := pathTo_row hj
    exact ⟨_, hva, hpath.symm ▸ hpre⟩

theorem OnWay.tablePath {path : List Nat} (h : OnWay path) : TablePath userTop path := by
  obtain ⟨va, hva, hpre⟩ := h
  have hfull := tablePath_pathTo hva.pml
  obtain ⟨rest, hrest⟩ := hpre
  refine ⟨?_, fun i hi => hfull.2.1 i (hrest ▸ List.mem_append_left rest hi), fun i hi => ?_⟩
  · have hlen := hfull.1
    rw [← hrest, List.length_append] at hlen
    omega
  · refine hfull.2.2 i ?_
    rw [← hrest, List.head?_append, hi]
    rfl

theorem onWay_one : OnWay ([] ++ [0]) := onWay_iff.mpr ⟨0, by decide, [2, 0], rfl⟩
theorem onWay_two : OnWay ([0] ++ [2]) := onWay_iff.mpr ⟨0, by decide, [0], rfl⟩
theorem onWay_three {k : Nat} (hk : k < 128) : OnWay ([0, 2] ++ [k]) :=
  onWay_iff.mpr ⟨k, hk, [], rfl⟩

/-- What there is on the way: the directory, one table of each of the next two
levels, and those of the rows. -/
theorem onWay_cases {path : List Nat} (h : OnWay path) :
    path = [] ∨ path = [0] ∨ path = [0, 2] ∨ ∃ j, j < 128 ∧ path = [0, 2, j] := by
  obtain ⟨j, hj, hpre⟩ := onWay_iff.mp h
  rcases List.prefix_cons_iff.mp hpre with rfl | ⟨p₁, rfl, h₁⟩
  · exact .inl rfl
  rcases List.prefix_cons_iff.mp h₁ with rfl | ⟨p₂, rfl, h₂⟩
  · exact .inr (.inl rfl)
  rcases List.prefix_cons_iff.mp h₂ with rfl | ⟨p₃, rfl, h₃⟩
  · exact .inr (.inr (.inl rfl))
  · rw [List.prefix_nil] at h₃
    exact .inr (.inr (.inr ⟨j, hj, by rw [h₃]⟩))

theorem nextRow_pgd (k : Nat) :
    nextRow pgdSize (utext + pgdSize * k) = utext + pgdSize * (k + 1) := by
  have h1 : pgdSize = 2097152 := by decide
  have h2 : utext = 2097152 * 1024 := by decide
  rw [nextRow, h1, h2]
  omega

theorem pgdIndex_row {k : Nat} (hk : k < 128) : pgdIndex (utext + pgdSize * k) = k := by
  have h1 : pgdSize = 2097152 := by decide
  have h2 : utext = 2097152 * 1024 := by decide
  rw [pgdIndex_eq, h1, h2]
  omega

theorem le_row_iff {k : Nat} : ustacktop ≤ utext + pgdSize * k ↔ 128 ≤ k := by
  have h1 : pgdSize = 2097152 := by decide
  have h2 : utext = 2097152 * 1024 := by decide
  have h3 : ustacktop = 2097152 * 1152 - 4096 := by decide
  rw [h1, h2, h3]
  omega

/-- A slot that is not the last of its table. -/
theorem slot_inside {f i : Nat} (hi : i < 511) : (frameVa f + 8 * i + 8) % pageSize ≠ 0 := by
  unfold frameVa kbase pageSize
  omega

/-! ## Entries and tables -/

section Entries

variable {R : Type*} {s₀ : Mm} {root : R → Option Nat} {p : R} {path : List Nat} {i t n : Nat}

/-- An entry that is not nought leads to a table. -/
theorem table_of_entry (h₀ : Tables UserEntry userTop s₀ root)
    (hpi : TablePath userTop (path ++ [i])) (ht : tableAt s₀.mem root p path = some t)
    (he : Mem.entry s₀.mem t i ≠ 0) :
    ∃ n, target (Mem.entry s₀.mem t i) = some n ∧ n < 2 ^ 19 ∧
      Mem.entry s₀.mem t i >>> pteShift = n ∧
      tableAt s₀.mem root p (path ++ [i]) = some n := by
  have hflag := (h₀.flags hpi ht).resolve_left he
  have hpres : Mem.entry s₀.mem t i &&& pteP ≠ 0 := by
    have hbit : linkBits &&& pteP = pteP := rfl
    rw [← hbit, ← Nat.and_assoc, hflag]
    decide
  have htarget : target (Mem.entry s₀.mem t i) = some (Mem.entry s₀.mem t i / pageSize) :=
    if_pos hpres
  obtain ⟨hn, hsmall⟩ := h₀.step ht hpi htarget
  exact ⟨_, htarget, hsmall, Nat.shiftRight_eq_div_pow _ _, hn⟩

/-- The entry that leads to a table. -/
theorem tableVa_of_table (h₀ : Tables UserEntry userTop s₀ root)
    (hpi : TablePath userTop (path ++ [i])) (ht : tableAt s₀.mem root p path = some t)
    (hn : tableAt s₀.mem root p (path ++ [i]) = some n) :
    tableVa (Mem.entry s₀.mem t i) = frameVa n ∧ Mem.entry s₀.mem t i ≠ 0 := by
  have hnext : target (Mem.entry s₀.mem t i) = some n := by
    rw [tableAt, Radix.node_snoc] at hn
    rw [tableAt] at ht
    rwa [ht, Option.bind_some] at hn
  refine ⟨tableVa_eq hnext (h₀.small_of_table ⟨p, _, hpi, hn⟩), fun hz => ?_⟩
  rw [hz, target_zero] at hnext
  cases hnext

/-- An entry of nought leads nowhere. -/
theorem table_none_of_entry (ht : tableAt s₀.mem root p path = some t)
    (he : Mem.entry s₀.mem t i = 0) : tableAt s₀.mem root p (path ++ [i]) = none := by
  rw [tableAt, Radix.node_snoc]
  rw [tableAt] at ht
  rw [ht, Option.bind_some, he, target_zero]

/-- Where there is no table there is none further on. -/
theorem table_none_of_way {m : Mem} {path' : List Nat} (hpre : path <+: path')
    (hnone : tableAt m root p path = none) : tableAt m root p path' = none := by
  obtain ⟨rest, rfl⟩ := hpre
  induction rest using List.reverseRecOn with
  | nil => rw [List.append_nil, hnone]
  | append_singleton rest i ih =>
    rw [tableAt] at ih
    rw [← List.append_assoc, tableAt, Radix.node_snoc, ih]
    rfl

end Entries

/-! ## What the loops keep -/

variable {R : Type*} {σ : Type} {look : Nat → Act σ Nat} {release : Nat → Act σ Unit}

/-- `I gone` is kept: an entry that is left reads as it did in `s₀`, and one
that leads to a table is released together with the table. -/
structure Sweeper (look : Nat → Act σ Nat) (release : Nat → Act σ Unit) (s₀ : Mm)
    (root : R → Option Nat) (p : R) (I : Set (List Nat) → σ → Prop) : Prop where
  look : ∀ {gone s path i t}, I gone s → OnWay (path ++ [i]) → tableAt s₀.mem root p path = some t →
    path ∉ gone → path ++ [i] ∉ gone →
      ∃ s', look (frameVa t + 8 * i) s = .ok (Mem.entry s₀.mem t i) s' ∧ I gone s'
  release : ∀ {gone s path i t}, I gone s → OnWay (path ++ [i]) →
    tableAt s₀.mem root p path = some t → path ∉ gone → path ++ [i] ∉ gone →
      Mem.entry s₀.mem t i ≠ 0 →
      ∃ s', release (frameVa t + 8 * i) s = .ok () s' ∧ I (insert (path ++ [i]) gone) s'

/-- The tables below the directory that are on the way to a user address. -/
def swept (m : Mem) (root : R → Option Nat) (p : R) : Set (List Nat) :=
  {path | path ≠ [] ∧ OnWay path ∧ tableAt m root p path ≠ none}

/-- Those of the rows before the `k`-th. -/
def sweptRows (m : Mem) (root : R → Option Nat) (p : R) (k : Nat) : Set (List Nat) :=
  {path | ∃ j, j < k ∧ path = [0, 2, j] ∧ tableAt m root p path ≠ none}

section Run

variable {s₀ : Mm} {root : R → Option Nat} {p : R} {I : Set (List Nat) → σ → Prop} {s : σ}
variable {g a b : Nat}

theorem not_sweptRows {m : Mem} {path : List Nat} {k : Nat} (h : path.length < 3) :
    path ∉ sweptRows m root p k := by
  rintro ⟨j, -, rfl, -⟩
  exact Nat.lt_irrefl 3 h

theorem sweptRows_self {m : Mem} {k : Nat} : [0, 2] ++ [k] ∉ sweptRows m root p k := by
  rintro ⟨j, hj, heq, -⟩
  simp only [List.cons_append, List.nil_append, List.cons.injEq, and_true, true_and] at heq
  omega

/-- The next row, with a table or without. -/
theorem sweptRows_succ {m : Mem} {k : Nat} : sweptRows m root p (k + 1) =
    {path | path ∈ sweptRows m root p k ∨
      path = [0, 2] ++ [k] ∧ tableAt m root p path ≠ none} := by
  ext path
  constructor
  · rintro ⟨j, hj, rfl, hn⟩
    rcases Nat.lt_succ_iff_lt_or_eq.mp hj with hj | rfl
    · exact .inl ⟨j, hj, rfl, hn⟩
    · exact .inr ⟨rfl, hn⟩
  · rintro (⟨j, hj, rfl, hn⟩ | ⟨rfl, hn⟩)
    · exact ⟨j, Nat.lt_succ_of_lt hj, rfl, hn⟩
    · exact ⟨k, Nat.lt_succ_self k, rfl, hn⟩

variable (hw : Sweeper look release s₀ root p I) (h₀ : Tables UserEntry userTop s₀ root)

include hw h₀

/-- ROWS: the page tables are released, those of the rows that have one. -/
theorem Sweeper.pgds (ha : tableAt s₀.mem root p [0] = some a)
    (hb : tableAt s₀.mem root p [0, 2] = some b) {n k : Nat}
    (h : I (sweptRows s₀.mem root p k) s) (hk : k < 128) (hn : 128 ≤ n + k) :
    ∃ s', sweepPgds look release (frameVa a + 8 * 2) n (utext + pgdSize * k) s = .ok none s' ∧
      I (sweptRows s₀.mem root p 128) s' := by
  induction n generalizing k s with
  | zero => omega
  | succ n ih =>
    have hpb : OnWay ([0, 2] ++ [k]) := onWay_three hk
    obtain ⟨s₁, hlooka, h₁⟩ := hw.look h onWay_two ha (not_sweptRows (by decide))
      (not_sweptRows (by decide))
    obtain ⟨s₂, hlookb, h₂⟩ := hw.look h₁ hpb hb (not_sweptRows (by decide)) sweptRows_self
    have hnext : ∀ s₃, I (sweptRows s₀.mem root p (k + 1)) s₃ →
        ∃ s', (if ustacktop ≤ nextRow pgdSize (utext + pgdSize * k) then
            (pure none : Act σ (Option Nat))
          else if (frameVa b + 8 * k + 8) % pageSize ≠ 0 then
            sweepPgds look release (frameVa a + 8 * 2) n (nextRow pgdSize (utext + pgdSize * k))
          else pure (some (nextRow pgdSize (utext + pgdSize * k)))) s₃ = .ok none s' ∧
          I (sweptRows s₀.mem root p 128) s' := by
      intro s₃ h₃
      rw [nextRow_pgd]
      by_cases hend : 128 ≤ k + 1
      · rw [if_pos (le_row_iff.mpr hend)]
        exact ⟨s₃, rfl, (by omega : k + 1 = 128) ▸ h₃⟩
      · rw [if_neg fun hle => hend (le_row_iff.mp hle), if_pos (slot_inside (by omega))]
        exact ih h₃ (by omega) (by omega)
    simp only [sweepPgds]
    rw [Act.bind_ok hlooka, (tableVa_of_table h₀ onWay_two.tablePath ha hb).1, pgdIndex_row hk,
      Act.bind_ok hlookb]
    by_cases he : Mem.entry s₀.mem b k = 0
    · rw [if_pos he]
      have hsame : sweptRows s₀.mem root p (k + 1) = sweptRows s₀.mem root p k := by
        rw [sweptRows_succ]
        refine Set.ext fun path => or_iff_left ?_
        rintro ⟨rfl, hsome⟩
        exact hsome (table_none_of_entry hb he)
      exact hnext s₂ (hsame ▸ h₂)
    · obtain ⟨s₃, hrel, h₃⟩ := hw.release h₂ hpb hb (not_sweptRows (by decide)) sweptRows_self he
      obtain ⟨n', -, -, -, hn'⟩ := table_of_entry h₀ hpb.tablePath hb he
      have hmore : sweptRows s₀.mem root p (k + 1) =
          insert ([0, 2] ++ [k]) (sweptRows s₀.mem root p k) := by
        rw [sweptRows_succ]
        ext path
        rw [Set.mem_insert_iff, or_comm]
        refine or_congr_right (and_iff_left_of_imp ?_)
        rintro rfl
        rw [hn']
        exact Option.some_ne_none n'
      rw [if_neg he, Act.bind_ok hrel]
      exact hnext s₃ (hmore ▸ h₃)

/-- The tables below the first entry of the directory are released, and its own. -/
theorem Sweeper.pdps (hroot : root p = some g) (ha : tableAt s₀.mem root p [0] = some a)
    (h : I ∅ s) (n : Nat) : ∃ s', sweepPdps look release (frameVa g + 8 * 0) (n + 1) utext s =
      .ok none s' ∧ I (swept s₀.mem root p) s' := by
  have hg : tableAt s₀.mem root p [] = some g := by rw [tableAt, Radix.node_nil, hroot]
  obtain ⟨hva, hga⟩ := tableVa_of_table h₀ onWay_one.tablePath hg ha
  have hend : ustacktop ≤ nextRow pdpSize utext := by decide
  obtain ⟨s₁, hlookg, h₁⟩ := hw.look h onWay_one hg (Set.notMem_empty _) (Set.notMem_empty _)
  obtain ⟨s₂, hlooka, h₂⟩ := hw.look h₁ onWay_two ha (Set.notMem_empty _) (Set.notMem_empty _)
  simp only [sweepPdps, if_pos hend]
  rw [Act.bind_ok hlookg, hva, userRow.2, Act.bind_ok hlooka]
  by_cases he : Mem.entry s₀.mem a 2 = 0
  · obtain ⟨s₃, hrel, h₃⟩ := hw.release h₂ onWay_one hg (Set.notMem_empty _)
      (Set.notMem_empty _) hga
    rw [if_pos he, Act.bind_ok hrel]
    have hnone : tableAt s₀.mem root p [0, 2] = none := table_none_of_entry ha he
    have hall : swept s₀.mem root p = insert ([] ++ [0]) ∅ := by
      ext path
      constructor
      · rintro ⟨hne, hway, hsome⟩
        rcases onWay_cases hway with rfl | rfl | rfl | ⟨j, -, rfl⟩
        · exact absurd rfl hne
        · exact .inl rfl
        · exact absurd hnone hsome
        · exact absurd (table_none_of_way ⟨[j], rfl⟩ hnone) hsome
      · rintro (rfl | hin)
        · refine ⟨by simp, onWay_one, ?_⟩
          show tableAt s₀.mem root p [0] ≠ none
          rw [ha]
          exact Option.some_ne_none a
        · cases hin
    exact ⟨s₃, rfl, hall ▸ h₃⟩
  · obtain ⟨b, -, -, -, hb⟩ : ∃ b, target (Mem.entry s₀.mem a 2) = some b ∧ b < 2 ^ 19 ∧
        Mem.entry s₀.mem a 2 >>> pteShift = b ∧ tableAt s₀.mem root p [0, 2] = some b :=
      table_of_entry h₀ onWay_two.tablePath ha he
    have hstart : I (sweptRows s₀.mem root p 0) s₂ := by
      have hzero : sweptRows s₀.mem root p 0 = ∅ := by
        refine Set.eq_empty_iff_forall_notMem.mpr ?_
        rintro path ⟨j, hj, -⟩
        exact Nat.not_lt_zero j hj
      exact hzero ▸ h₂
    obtain ⟨s₃, hrows, h₃⟩ := hw.pgds h₀ ha hb hstart (n := 512) (by decide) (by decide)
    obtain ⟨s₄, hrel₄, h₄⟩ := hw.release h₃ onWay_two ha (not_sweptRows (by decide))
      (not_sweptRows (by decide)) he
    have hout : ∀ {path : List Nat}, path.length < 2 →
        path ∉ (insert ([0] ++ [2]) (sweptRows s₀.mem root p 128) : Set (List Nat)) := by
      rintro path hlen (rfl | hrow)
      · exact Nat.lt_irrefl 2 hlen
      · exact not_sweptRows (by omega) hrow
    obtain ⟨s₅, hrel₅, h₅⟩ := hw.release h₄ onWay_one hg (hout (by decide)) (hout (by decide)) hga
    have hall : swept s₀.mem root p =
        insert ([] ++ [0]) (insert ([0] ++ [2]) (sweptRows s₀.mem root p 128)) := by
      ext path
      constructor
      · rintro ⟨hne, hway, hsome⟩
        rcases onWay_cases hway with rfl | rfl | rfl | ⟨j, hj, rfl⟩
        · exact absurd rfl hne
        · exact .inl rfl
        · exact .inr (.inl rfl)
        · exact .inr (.inr ⟨j, hj, rfl, hsome⟩)
      · rintro (rfl | rfl | ⟨j, hj, rfl, hsome⟩)
        · exact ⟨by simp, onWay_one, by
            show tableAt s₀.mem root p [0] ≠ none
            rw [ha]
            exact Option.some_ne_none a⟩
        · exact ⟨by simp, onWay_two, by
            show tableAt s₀.mem root p [0, 2] ≠ none
            rw [hb]
            exact Option.some_ne_none b⟩
        · exact ⟨by simp, onWay_three hj, hsome⟩
    have hrows' : sweepPgds look release (frameVa a + 8 * 2) 512 utext s₂ = .ok none s₃ := hrows
    rw [if_neg he, Act.bind_ok hrows']
    simp only
    rw [Act.bind_ok hrel₄, Act.bind_ok hrel₅]
    exact ⟨s₅, rfl, hall ▸ h₅⟩

/-- RUN: the loops come to an end, and the tables on the way to a user address are gone. -/
theorem Sweeper.run (hroot : root p = some g) (h : I ∅ s) (n : Nat) :
    ∃ s', sweepPmls look release (frameVa g) (n + 1) utext s = .ok () s' ∧
      I (swept s₀.mem root p) s' := by
  have hg : tableAt s₀.mem root p [] = some g := by rw [tableAt, Radix.node_nil, hroot]
  have hend : ustacktop ≤ nextRow pmlSize utext := by decide
  obtain ⟨s₁, hlook, h₁⟩ := hw.look h onWay_one hg (Set.notMem_empty _) (Set.notMem_empty _)
  simp only [sweepPmls, if_pos hend]
  rw [userRow.1, Act.bind_ok hlook]
  by_cases he : Mem.entry s₀.mem g 0 = 0
  · rw [if_pos he]
    have hnone : tableAt s₀.mem root p [0] = none := table_none_of_entry hg he
    have hall : swept s₀.mem root p = ∅ := by
      refine Set.eq_empty_iff_forall_notMem.mpr ?_
      rintro path ⟨hne, hway, hsome⟩
      refine hsome (table_none_of_way ?_ hnone)
      rcases onWay_cases hway with rfl | rfl | rfl | ⟨j, -, rfl⟩
      · exact absurd rfl hne
      · exact ⟨[], rfl⟩
      · exact ⟨[2], rfl⟩
      · exact ⟨[2, j], rfl⟩
    exact ⟨s₁, rfl, hall ▸ h₁⟩
  · obtain ⟨a, -, -, -, ha⟩ := table_of_entry h₀ onWay_one.tablePath hg he
    obtain ⟨s', hrun, h'⟩ := hw.pdps h₀ hroot ha h₁ 511
    rw [if_neg he, Act.bind_ok hrun]
    exact ⟨s', rfl, h'⟩

end Run

end Myos.Kernel
