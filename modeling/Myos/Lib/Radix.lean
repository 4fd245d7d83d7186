import Mathlib.Data.List.Induction
import Mathlib.Logic.Function.Basic

/-!
# Forests of tables

A table is a family of entries; an entry may refer to another table. From a
root, a path of indices leads through the entries to a table (`walk`), and a
family of roots makes a forest (`node`). Page tables are the case this is
for, but nothing here knows about pages: tables, indices, entries and roots
are arbitrary types, and `next` says which table an entry refers to.

A forest is SEPARATED when no table is reached twice, by two paths or from
two roots. That is the whole reason why a store in one table is a change at
one path and nowhere else:

- `node_congr`: the tables reached depend only on the entries passed;
- `node_link`: linking a fresh empty table at a reached, unused entry adds
  exactly one path, and `Separated.link` keeps separation;
- `node_plant`, `Separated.plant`: the same for a fresh root.

Only the paths in a prefix-closed domain `dom` count; entries outside it may
refer to anything.
-/

namespace Myos.Lib.Radix

variable {F ι E R : Type*}

/-- The table a path of indices leads to from a table. -/
def walk (next : E → Option F) (h : F → ι → E) : F → List ι → Option F
  | f, [] => some f
  | f, i :: is => (next (h f i)).bind fun g => walk next h g is

/-- The table a path leads to from a root. -/
def node (next : E → Option F) (h : F → ι → E) (root : R → Option F) (r : R) (p : List ι) :
    Option F :=
  (root r).bind fun f => walk next h f p

variable {next : E → Option F} {h h' : F → ι → E} {root root' : R → Option F}
variable {dom : List ι → Prop}

theorem walk_snoc (f : F) (p : List ι) (i : ι) :
    walk next h f (p ++ [i]) = (walk next h f p).bind fun g => next (h g i) := by
  induction p generalizing f with
  | nil =>
    simp only [List.nil_append, walk, Option.bind_some]
    cases next (h f i) <;> rfl
  | cons j p ih =>
    simp only [List.cons_append, walk]
    cases next (h f j) with
    | none => rfl
    | some g => exact ih g

@[simp] theorem node_nil (r : R) : node next h root r [] = root r := by
  unfold node
  cases root r <;> rfl

theorem node_snoc (r : R) (p : List ι) (i : ι) :
    node next h root r (p ++ [i]) = (node next h root r p).bind fun g => next (h g i) := by
  unfold node
  cases root r with
  | none => rfl
  | some f => exact walk_snoc f p i

/-- The tables reached depend only on the roots and on the entries passed. -/
theorem node_congr (hdom : ∀ p i, dom (p ++ [i]) → dom p) (hroot : root' = root)
    (same : ∀ r p i g, dom (p ++ [i]) → node next h root r p = some g →
      next (h' g i) = next (h g i)) :
    ∀ r p, dom p → node next h' root' r p = node next h root r p := by
  subst hroot
  intro r p
  induction p using List.reverseRecOn with
  | nil => intro _; rw [node_nil, node_nil]
  | append_singleton p i ih =>
    intro hp
    rw [node_snoc, node_snoc, ih (hdom p i hp)]
    cases hn : node next h root' r p with
    | none => rfl
    | some g => exact same r p i g hp hn

/-- No table is reached twice. -/
def Separated (next : E → Option F) (dom : List ι → Prop) (h : F → ι → E)
    (root : R → Option F) : Prop :=
  ∀ {r r' p p' g}, dom p → dom p' → node next h root r p = some g →
    node next h root r' p' = some g → r = r' ∧ p = p'

/-- Separation is a property of the tables reached. -/
theorem Separated.congr (hs : Separated next dom h root)
    (same : ∀ r p, dom p → node next h' root' r p = node next h root r p) :
    Separated next dom h' root' := by
  intro r r' p p' g hp hp' hn hn'
  rw [same r p hp] at hn
  rw [same r' p' hp'] at hn'
  exact hs hp hp' hn hn'

/-- Fewer roots, fewer tables. -/
theorem node_of_roots (sub : ∀ r f, root' r = some f → root r = some f) {r : R} {p : List ι}
    {g : F} (hn : node next h root' r p = some g) : node next h root r p = some g := by
  unfold node at hn ⊢
  cases hr : root' r with
  | none => rw [hr] at hn; cases hn
  | some f =>
    rw [hr] at hn
    rw [sub r f hr]
    exact hn

/-- Dropping roots keeps separation. -/
theorem Separated.roots (hs : Separated next dom h root)
    (sub : ∀ r f, root' r = some f → root r = some f) : Separated next dom h root' :=
  fun hp hp' hn hn' => hs hp hp' (node_of_roots sub hn) (node_of_roots sub hn')

/-! ## Linking a fresh table -/

section Link

variable {r : R} {p : List ι} {i : ι} {g n : F}

/-- What linking the fresh table `n` at entry `i` of the table `g` does to
the tables: the new entry refers to `n`, the entries of `n` refer to
nothing, and every other entry refers to what it did. -/
structure Linked (next : E → Option F) (dom : List ι → Prop) (h h' : F → ι → E)
    (g : F) (i : ι) (n : F) : Prop where
  entry : next (h' g i) = some n
  empty : ∀ q j, dom (q ++ [j]) → next (h' n j) = none
  other : ∀ q f j, dom (q ++ [j]) → f ≠ n → ¬ (f = g ∧ j = i) → next (h' f j) = next (h f j)

open Classical in
/-- Linking a fresh table adds one path: the one that ends in the entry. -/
theorem node_link (hdom : ∀ p i, dom (p ++ [i]) → dom p) (hs : Separated next dom h root)
    (hg : node next h root r p = some g) (hpi : dom (p ++ [i]))
    (unused : next (h g i) = none) (fresh : ∀ r p, dom p → node next h root r p ≠ some n)
    (hl : Linked next dom h h' g i n) (r' : R) (p' : List ι) :
    dom p' → node next h' root r' p' =
      if r' = r ∧ p' = p ++ [i] then some n else node next h root r' p' := by
  induction p' using List.reverseRecOn with
  | nil =>
    intro _
    rw [node_nil, node_nil, if_neg]
    rintro ⟨-, hnil⟩
    simp at hnil
  | append_singleton q j ih =>
    intro hq
    have hdq := hdom q j hq
    rw [node_snoc, ih hdq]
    by_cases hnew : r' = r ∧ q = p ++ [i]
    · -- below the new table there is nothing, and there was nothing before
      obtain ⟨rfl, rfl⟩ := hnew
      rw [if_pos ⟨rfl, rfl⟩, if_neg (by simp), node_snoc, node_snoc, hg]
      simp only [Option.bind_some, unused, Option.bind_none]
      exact hl.empty _ j hq
    · rw [if_neg hnew, node_snoc]
      cases hf : node next h root r' q with
      | none =>
        rw [if_neg]
        · rfl
        · rintro ⟨rfl, heq⟩
          obtain ⟨rfl, -⟩ := List.append_inj' heq rfl
          rw [hg] at hf
          cases hf
      | some f =>
        have hfn : f ≠ n := by rintro rfl; exact fresh r' q hdq hf
        simp only [Option.bind_some]
        by_cases hfg : f = g ∧ j = i
        · obtain ⟨rfl, rfl⟩ := hfg
          obtain ⟨rfl, rfl⟩ := hs hdq (hdom p j hpi) hf hg
          rw [if_pos ⟨rfl, rfl⟩]
          exact hl.entry
        · rw [if_neg, hl.other q f j hq hfn hfg]
          rintro ⟨rfl, heq⟩
          obtain ⟨rfl, hj⟩ := List.append_inj' heq rfl
          rw [hf] at hg
          exact hfg ⟨Option.some.inj hg, List.singleton_inj.mp hj⟩

/-- Linking a fresh table keeps separation. -/
theorem Separated.link (hdom : ∀ p i, dom (p ++ [i]) → dom p) (hs : Separated next dom h root)
    (hg : node next h root r p = some g) (hpi : dom (p ++ [i]))
    (unused : next (h g i) = none) (fresh : ∀ r p, dom p → node next h root r p ≠ some n)
    (hl : Linked next dom h h' g i n) : Separated next dom h' root := by
  classical
  have key := node_link hdom hs hg hpi unused fresh hl
  intro r₁ r₂ p₁ p₂ f hp₁ hp₂ hn₁ hn₂
  rw [key r₁ p₁ hp₁] at hn₁
  rw [key r₂ p₂ hp₂] at hn₂
  by_cases h₁ : r₁ = r ∧ p₁ = p ++ [i]
  · rw [if_pos h₁] at hn₁
    by_cases h₂ : r₂ = r ∧ p₂ = p ++ [i]
    · exact ⟨h₁.1.trans h₂.1.symm, h₁.2.trans h₂.2.symm⟩
    · rw [if_neg h₂, ← hn₁] at hn₂
      exact absurd hn₂ (fresh r₂ p₂ hp₂)
  · rw [if_neg h₁] at hn₁
    by_cases h₂ : r₂ = r ∧ p₂ = p ++ [i]
    · rw [if_pos h₂, ← hn₁] at hn₂
      exact absurd hn₂.symm (fresh r₁ p₁ hp₁)
    · rw [if_neg h₂] at hn₂
      exact hs hp₁ hp₂ hn₁ hn₂

end Link

/-! ## Planting a fresh root -/

section Plant

variable [DecidableEq R] {d : R} {n : F}

/-- The first index of a path in the domain is a path in the domain. -/
theorem dom_head (hdom : ∀ p i, dom (p ++ [i]) → dom p) {i : ι} {p : List ι}
    (h : dom (i :: p)) : dom [i] := by
  induction p using List.reverseRecOn with
  | nil => exact h
  | append_singleton p j ih => exact ih (hdom (i :: p) j h)

/-- A fresh root whose entries refer to nothing adds itself and no more. -/
theorem node_plant (hdom : ∀ p i, dom (p ++ [i]) → dom p)
    (empty : ∀ i, dom [i] → next (h n i) = none) (r : R) (p : List ι) (hp : dom p) :
    node next h (Function.update root d (some n)) r p =
      if r = d then (if p = [] then some n else none) else node next h root r p := by
  unfold node
  by_cases hr : r = d
  · subst hr
    rw [if_pos rfl, Function.update_self, Option.bind_some]
    cases p with
    | nil => rfl
    | cons i p =>
      rw [if_neg (List.cons_ne_nil i p), walk, empty i (dom_head hdom hp)]
      rfl
  · rw [if_neg hr, Function.update_of_ne hr]

/-- Planting a fresh root keeps separation. -/
theorem Separated.plant (hdom : ∀ p i, dom (p ++ [i]) → dom p) (hs : Separated next dom h root)
    (fresh : ∀ r p, dom p → node next h root r p ≠ some n)
    (empty : ∀ i, dom [i] → next (h n i) = none) :
    Separated next dom h (Function.update root d (some n)) := by
  have key : ∀ r p, dom p → node next h (Function.update root d (some n)) r p =
      if r = d then (if p = [] then some n else none) else node next h root r p :=
    node_plant hdom empty
  intro r₁ r₂ p₁ p₂ f hp₁ hp₂ hn₁ hn₂
  rw [key r₁ p₁ hp₁] at hn₁
  rw [key r₂ p₂ hp₂] at hn₂
  by_cases h₁ : r₁ = d <;> by_cases h₂ : r₂ = d
  · subst h₁ h₂
    refine ⟨rfl, ?_⟩
    simp only [if_true] at hn₁ hn₂
    split at hn₁ <;> split at hn₂ <;> simp_all
  · rw [if_pos h₁] at hn₁
    rw [if_neg h₂] at hn₂
    split at hn₁
    · rw [← hn₁] at hn₂
      exact absurd hn₂ (fresh r₂ p₂ hp₂)
    · cases hn₁
  · rw [if_neg h₁] at hn₁
    rw [if_pos h₂] at hn₂
    split at hn₂
    · rw [← hn₂] at hn₁
      exact absurd hn₁ (fresh r₁ p₁ hp₁)
    · cases hn₂
  · rw [if_neg h₁] at hn₁
    rw [if_neg h₂] at hn₂
    exact hs hp₁ hp₂ hn₁ hn₂

end Plant

end Myos.Lib.Radix
