import Mathlib.Data.List.Nodup
import Mathlib.Algebra.BigOperators.Group.List.Basic
import Mathlib.Algebra.Order.Ring.Nat

/-!
# Catalogs

Rows of keys and values in the order in which they came in. A key that is there is not
added again, so the first value of a key stays: after any additions a lookup finds what
the first of them for this key has brought (`Catalog.find_addAll`).
-/

namespace Myos.Lib

/-- Rows of keys and values, no key twice. -/
structure Catalog (α β : Type) where
  rows : List (α × β)
  nodup : (rows.map Prod.fst).Nodup

namespace Catalog

variable {α β : Type}

/-- No rows. -/
def empty : Catalog α β := ⟨[], List.nodup_nil⟩

/-- The key is there. -/
def Has (c : Catalog α β) (k : α) : Prop := k ∈ c.rows.map Prod.fst

instance [DecidableEq α] (c : Catalog α β) (k : α) : Decidable (c.Has k) :=
  inferInstanceAs (Decidable (k ∈ c.rows.map Prod.fst))

/-- One row more, with a key that is not there. -/
def snoc (c : Catalog α β) (r : α × β) (h : ¬ c.Has r.1) : Catalog α β where
  rows := c.rows ++ [r]
  nodup := by
    rw [List.map_append, List.map_singleton, ← List.concat_eq_append]
    exact c.nodup.concat h

/-- One row more, unless the key is there. -/
def add [DecidableEq α] (c : Catalog α β) (r : α × β) : Catalog α β :=
  if h : c.Has r.1 then c else c.snoc r h

/-- The rows are added one after another. -/
def addAll [DecidableEq α] (c : Catalog α β) (rs : List (α × β)) : Catalog α β := rs.foldl add c

/-- The value of a key. -/
def find [DecidableEq α] (c : Catalog α β) (k : α) : Option β := c.rows.lookup k

/-- What the values weigh together. -/
def total (c : Catalog α β) (weight : β → Nat) : Nat := (c.rows.map fun r => weight r.2).sum

/-- Two rows with one key are one row. -/
theorem key_inj (c : Catalog α β) {i j : Nat} {hi : i < c.rows.length} {hj : j < c.rows.length}
    (h : c.rows[i].1 = c.rows[j].1) : i = j := by
  have hi' : i < (c.rows.map Prod.fst).length := by rwa [List.length_map]
  have hj' : j < (c.rows.map Prod.fst).length := by rwa [List.length_map]
  have hsame : (c.rows.map Prod.fst)[i] = (c.rows.map Prod.fst)[j] := by
    rw [List.getElem_map, List.getElem_map, h]
  exact c.nodup.getElem_inj_iff.mp hsame

section Rows

variable {c c' : Catalog α β} {r : α × β} {weight : β → Nat}

@[simp] theorem snoc_rows (h : ¬ c.Has r.1) : (c.snoc r h).rows = c.rows ++ [r] := rfl

@[simp] theorem total_snoc (h : ¬ c.Has r.1) :
    (c.snoc r h).total weight = c.total weight + weight r.2 := by
  simp [total]

theorem total_le (h : c.rows <+: c'.rows) : c.total weight ≤ c'.total weight := by
  obtain ⟨rs, hrs⟩ := h
  unfold total
  rw [← hrs, List.map_append, List.sum_append]
  exact Nat.le_add_right _ _

end Rows

section Add

variable [DecidableEq α] {c : Catalog α β} {r : α × β} {k : α} {v : β}

theorem add_has (h : c.Has r.1) : c.add r = c := dif_pos h

theorem add_new (h : ¬ c.Has r.1) : c.add r = c.snoc r h := dif_neg h

theorem addAll_cons (rs : List (α × β)) : c.addAll (r :: rs) = (c.add r).addAll rs := rfl

/-- The rows that are there stay, in their order. -/
theorem prefix_add : c.rows <+: (c.add r).rows := by
  by_cases h : c.Has r.1
  · have hsame : (c.add r).rows = c.rows := congrArg rows (add_has h)
    exact hsame ▸ List.prefix_refl _
  · rw [add_new h]
    exact List.prefix_append _ _

theorem prefix_addAll (rs : List (α × β)) : c.rows <+: (c.addAll rs).rows := by
  induction rs generalizing c with
  | nil => exact List.prefix_refl _
  | cons r rs ih => exact prefix_add.trans ih

/-! ## Lookups -/

theorem find_eq_none : c.find k = none ↔ ¬ c.Has k := by
  unfold find Has
  rw [List.lookup_eq_none_iff, List.mem_map]
  constructor
  · rintro h ⟨r, hr, rfl⟩
    simpa using h r hr
  · intro h r hr
    rw [bne_iff_ne]
    exact fun he => h ⟨r, hr, he.symm⟩

/-- What is found is in a row, and in one only. -/
theorem find_eq_some : c.find k = some v ↔ ∃ i, ∃ h : i < c.rows.length, c.rows[i] = (k, v) := by
  unfold find
  rw [List.lookup_eq_some_iff]
  constructor
  · rintro ⟨l₁, l₂, heq, -⟩
    refine ⟨l₁.length, ?_, ?_⟩
    · rw [heq]
      simp
    · simp [heq]
  · rintro ⟨i, hi, heq⟩
    refine ⟨c.rows.take i, c.rows.drop (i + 1), ?_, fun r hr => ?_⟩
    · rw [← heq, List.getElem_cons_drop, List.take_append_drop]
    · obtain ⟨j, hj, rfl⟩ := List.mem_iff_getElem.mp hr
      rw [List.length_take] at hj
      rw [List.getElem_take, bne_iff_ne]
      intro he
      have hsame : c.rows[i].1 = c.rows[j].1 := by rw [heq, ← he]
      have := c.key_inj hsame
      omega

/-- An addition is for a key that was not found. -/
theorem find_add : (c.add r).find k = (c.find k).or ([r].lookup k) := by
  by_cases h : c.Has r.1
  · rw [add_has h]
    by_cases hk : k = r.1
    · subst hk
      cases hfind : c.find r.1 with
      | none => exact absurd h (find_eq_none.mp hfind)
      | some v => rfl
    · have hnone : [r].lookup k = none := by
        refine List.lookup_eq_none_iff.mpr fun r' hr' => ?_
        rw [List.mem_singleton.mp hr']
        exact bne_iff_ne.mpr hk
      rw [hnone, Option.or_none]
  · rw [add_new h]
    exact List.lookup_append

/-- ADDITIONS: the first value of a key is the one that is found. -/
theorem find_addAll (rs : List (α × β)) : (c.addAll rs).find k = (c.find k).or (rs.lookup k) := by
  induction rs generalizing c with
  | nil => exact Option.or_none.symm
  | cons r rs ih =>
    rw [addAll_cons, ih, find_add, Option.or_assoc]
    congr 1
    show _ = List.lookup k ([r] ++ rs)
    rw [List.lookup_append]

theorem find_empty_addAll (rs : List (α × β)) :
    ((empty : Catalog α β).addAll rs).find k = rs.lookup k := by
  rw [find_addAll]
  rfl

end Add

end Catalog

end Myos.Lib
