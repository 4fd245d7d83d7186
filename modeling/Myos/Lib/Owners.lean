import Mathlib.Data.Finset.Card
import Mathlib.Data.Finset.Filter
import Mathlib.Logic.Function.Basic

/-!
# Reference counts

Keys own things: each key of a finite set owns at most one, and a thing may
be owned by many. `refs keys owner f` is how many keys own `f`, the number a
reference count in a record is meant to be.

An owner changes at one key at a time; `refs_update` is the bookkeeping of
such a change, and the rest of the file reads off the two numbers that
matter: none, so the thing is free (`refs_pos`), and one, so its owner is the
only one (`refs_eq_one`).
-/

namespace Myos.Lib.Owners

variable {K F : Type*} [DecidableEq F]

/-- How many keys own `f`. -/
def refs (keys : Finset K) (owner : K → Option F) (f : F) : Nat :=
  (keys.filter fun k => owner k = some f).card

variable {keys : Finset K} {owner owner' : K → Option F} {f : F} {k k' : K} {o : Option F}

theorem mem_filter_owner : (k ∈ keys.filter fun k => owner k = some f) ↔
    k ∈ keys ∧ owner k = some f := Finset.mem_filter

/-- Only what the keys own matters. -/
theorem refs_congr (h : ∀ k ∈ keys, owner' k = some f ↔ owner k = some f) :
    refs keys owner' f = refs keys owner f := by
  unfold refs
  congr 1
  exact Finset.filter_congr h

/-- A thing is owned exactly if some key owns it. -/
theorem refs_pos : 0 < refs keys owner f ↔ ∃ k ∈ keys, owner k = some f := by
  rw [refs, Finset.card_pos]
  constructor
  · rintro ⟨k, hk⟩
    exact ⟨k, mem_filter_owner.mp hk⟩
  · rintro ⟨k, hk⟩
    exact ⟨k, mem_filter_owner.mpr hk⟩

/-- A thing that no key owns is not owned. -/
theorem refs_eq_zero (h : ∀ k ∈ keys, owner k ≠ some f) : refs keys owner f = 0 := by
  by_contra hne
  obtain ⟨k, hk, ho⟩ := refs_pos.mp (Nat.pos_of_ne_zero hne)
  exact h k hk ho

/-- A thing owned once has one owner. -/
theorem refs_eq_one (h : refs keys owner f = 1) (hk : k ∈ keys) (hk' : k' ∈ keys)
    (ho : owner k = some f) (ho' : owner k' = some f) : k = k' := by
  obtain ⟨a, ha⟩ := Finset.card_eq_one.mp h
  have h1 : k ∈ ({a} : Finset K) := ha ▸ mem_filter_owner.mpr ⟨hk, ho⟩
  have h2 : k' ∈ ({a} : Finset K) := ha ▸ mem_filter_owner.mpr ⟨hk', ho'⟩
  rw [Finset.mem_singleton.mp h1, Finset.mem_singleton.mp h2]

/-- A thing with one owner is owned once. -/
theorem refs_of_unique (hk : k ∈ keys) (ho : owner k = some f)
    (huniq : ∀ k' ∈ keys, owner k' = some f → k' = k) : refs keys owner f = 1 := by
  refine Finset.card_eq_one.mpr ⟨k, Finset.ext fun k' => ?_⟩
  rw [Finset.mem_singleton]
  constructor
  · intro hk'
    obtain ⟨hmem, ho'⟩ := mem_filter_owner.mp hk'
    exact huniq k' hmem ho'
  · rintro rfl
    exact mem_filter_owner.mpr ⟨hk, ho⟩

/-- The keys but one, and that one. -/
theorem refs_split [DecidableEq K] (owner : K → Option F) (f : F) (hk : k ∈ keys) : refs keys owner f =
    refs (keys.erase k) owner f + if owner k = some f then 1 else 0 := by
  unfold refs
  rw [Finset.filter_erase]
  by_cases ho : owner k = some f
  · have hmem : k ∈ keys.filter fun k => owner k = some f := mem_filter_owner.mpr ⟨hk, ho⟩
    rw [if_pos ho, Finset.card_erase_add_one hmem]
  · have hmem : k ∉ keys.filter fun k => owner k = some f :=
      fun h => ho (mem_filter_owner.mp h).2
    rw [if_neg ho, Finset.erase_eq_of_notMem hmem, Nat.add_zero]

/-- One key changes hands: what it let go of has one owner less, what it took
has one more. -/
theorem refs_update (keys : Finset K) [DecidableEq K] (owner : K → Option F) (f : F) (hk : k ∈ keys)
    (hnew : owner' k = o)
    (hother : ∀ j ∈ keys, j ≠ k → owner' j = owner j) :
    refs keys owner' f + (if owner k = some f then 1 else 0) =
      refs keys owner f + (if o = some f then 1 else 0) := by
  have hsame : refs (keys.erase k) owner' f = refs (keys.erase k) owner f :=
    refs_congr fun j hj => by
      rw [hother j (Finset.mem_of_mem_erase hj) (Finset.ne_of_mem_erase hj)]
  rw [refs_split owner' f hk, refs_split owner f hk, hsame, hnew]
  omega

/-- No more owners than keys. -/
theorem refs_le : refs keys owner f ≤ keys.card := Finset.card_filter_le _ _

end Myos.Lib.Owners
