import Mathlib.Data.List.Nodup
import Myos.Image.InodeNumbers

/-!
# The search for an entry

`alloc_file` counts the entries on from block to block, so it looks at those of the first
block only. What it hands out is empty in any case, and nothing in use is overwritten; but
a block more is appended although a later one has entries left (`directory_slots`).
-/

namespace Myos.Image

open Myos.Lib
open Myos.Kernel (blkSize directSize nameOff)

/-- What the search is for: an empty entry, with every other left as it is, and a block more only if
every entry is in use. -/
structure SlotRight (m : Mem) (c : Call) : Prop where
  empty : ∀ d m₁, allocFile m = .ok (0, some d) m₁ → RootEntry m₁ d ∧ m₁ (d + nameOff) = 0
  kept : ∀ n, vacant m n = false → ∀ k < directSize,
    dirents (c.after m) (directSize * n + k) = dirents m (directSize * n + k)
  thrifty : ∀ d m₁, allocFile m = .ok (0, some d) m₁ → rootBlocks m < rootBlocks m₁ →
    ∀ n < entries * rootBlocks m, vacant m n = false

/-- An entry of the first block is empty, or none of any block is. -/
def FirstOrNone (m : Mem) : Prop :=
  (0 < rootBlocks m ∧ ∃ e < entries, vacant m e = true) ∨
    ∀ n < entries * rootBlocks m, vacant m n = false

section Slots

variable {m : Mem} {c : Call}

theorem handed_eq_none : handed m = none ↔ 0 < rootBlocks m → ∀ e < entries, vacant m e = false := by
  constructor
  · exact handed_none
  · intro h
    cases hhand : handed m with
    | none => rfl
    | some e =>
      obtain ⟨hpos, he, hempty, -⟩ := handed_spec hhand
      rw [h hpos e he] at hempty
      cases hempty

theorem firstOrNone_iff :
    FirstOrNone m ↔ (handed m = none → ∀ n < entries * rootBlocks m, vacant m n = false) := by
  unfold FirstOrNone
  constructor
  · rintro (⟨hpos, e, he, hempty⟩ | hall) hnone
    · rw [handed_eq_none.mp hnone hpos e he] at hempty
      cases hempty
    · exact hall
  · intro h
    cases hhand : handed m with
    | none => exact .inr (h hhand)
    | some e =>
      obtain ⟨hpos, he, hempty, -⟩ := handed_spec hhand
      exact .inl ⟨hpos, e, he, hempty⟩

/-- A block is appended just if nothing was found. -/
theorem Obtained.grows {m₁ : Mem} (h : Obtained m m₁ (slotFor m)) :
    rootBlocks m < rootBlocks m₁ ↔ handed m = none := by
  rw [h.blocks]
  unfold slotFor
  cases hhand : handed m with
  | none =>
    have hdiv : entries * rootBlocks m / entries = rootBlocks m := Nat.mul_div_right _ (by decide)
    refine iff_of_true ?_ rfl
    show rootBlocks m < max (rootBlocks m) (entries * rootBlocks m / entries + 1)
    omega
  | some e =>
    obtain ⟨hpos, he, -⟩ := handed_spec hhand
    refine iff_of_false ?_ (by simp)
    show ¬ rootBlocks m < max (rootBlocks m) (e / entries + 1)
    rw [Nat.div_eq_of_lt he]
    omega

/-- CALL: the search does what it is for just if the first block has an empty entry or no block
has. -/
theorem slotRight_iff (h : Formed m) (hc : c.Enters m) (hfree : 1 ≤ freeInodes m) :
    SlotRight m c ↔ FirstOrNone m := by
  have hK := h.small
  have hend : ∀ d m₁, allocFile m = .ok (0, some d) m₁ →
      d = slotAt m₁ (slotFor m) ∧ Obtained m m₁ (slotFor m) := by
    intro d m₁ halloc
    have hall := allocFile_end h.toRooted hK
    rw [halloc] at hall
    exact (hall.obtained h.toRooted hK).2
  rw [firstOrNone_iff]
  constructor
  · intro hright hnone
    obtain ⟨d, m₁, halloc⟩ := hc.2
    obtain ⟨-, hgot⟩ := hend d m₁ halloc
    exact hright.thrifty d m₁ halloc (hgot.grows.mpr hnone)
  · intro hall
    refine ⟨fun d m₁ halloc => ?_, fun n hn k hk => ?_, fun d m₁ halloc hlt => ?_⟩
    · obtain ⟨rfl, hgot⟩ := hend d m₁ halloc
      refine ⟨slot_rootEntry hgot.slot, ?_⟩
      have hempty := hgot.empty
      rw [vacant, decide_eq_true_iff, ← hgot.dirents, dirents_slot hgot.slot (by decide)] at hempty
      exact hempty
    · obtain ⟨ino, hino, -⟩ := freeIno_table hfree
      have hmade := hc.made h.toRooted hK hino
      have hne : n ≠ slotFor m := by
        rintro rfl
        rw [hmade.empty] at hn
        cases hn
      rw [hmade.dirents, Mem.overlay_out]
      unfold directSize at *
      omega
    · obtain ⟨-, hgot⟩ := hend d m₁ halloc
      exact hall (hgot.grows.mp hlt)

/-- In a row of calls that find inodes of the table, the search is right at all of them just if at
each the first block has an empty entry or no block has. -/
theorem directory_slots {m : Mem} (h : Formed m) (calls : List Call) (hlast : InodesLast m calls) :
    (∀ k (hk : k < calls.length), calls[k].Enters (stateAt m calls k) →
      SlotRight (stateAt m calls k) calls[k]) ↔
    ∀ k (hk : k < calls.length), calls[k].Enters (stateAt m calls k) →
      FirstOrNone (stateAt m calls k) := by
  have hiff : ∀ k (hk : k < calls.length), calls[k].Enters (stateAt m calls k) →
      (SlotRight (stateAt m calls k) calls[k] ↔ FirstOrNone (stateAt m calls k)) :=
    fun k hk hc => slotRight_iff (h.stateAt hlast hk.le) hc (hlast k hk hc)
  constructor
  · intro hright k hk hc
    exact (hiff k hk hc).mp (hright k hk hc)
  · intro hall k hk hc
    exact (hiff k hk hc).mpr (hall k hk hc)

end Slots

/-- The 257th file, which comes to a block with every entry in use. -/
theorem directory_slots_full :
    SlotRight (stateAt (formatted blank) (plainCalls 257) 256) (plainCall 256) := by
  have hlast : InodesLast (formatted blank) (plainCalls 257) := fun k hk _ => by
    rw [plainCalls_length] at hk
    exact (@holding_calls k 257 hk.le hk.le).freeInodes hk.le
  have hfirst : ∀ k (hk : k < (plainCalls 257).length),
      (plainCalls 257)[k].Enters (stateAt (formatted blank) (plainCalls 257) k) →
        FirstOrNone (stateAt (formatted blank) (plainCalls 257) k) := by
    intro k hk _
    rw [plainCalls_length] at hk
    have hold := @holding_calls k 257 hk.le hk.le
    by_cases hfull : k % 256 = 0
    · -- no block yet, or one that is full
      refine .inr fun n hn => ?_
      rw [hold.blocks] at hn
      rw [hold.vacant]
      unfold entries at hn
      exact decide_eq_false (by omega)
    · refine .inl ⟨?_, k, ?_, ?_⟩
      · rw [hold.blocks]
        unfold entries
        omega
      · unfold entries
        omega
      · rw [hold.vacant]
        exact decide_eq_true (Nat.le_refl k)
  have hlt : 256 < (plainCalls 257).length := by
    rw [plainCalls_length]
    decide
  have hright := (directory_slots blank_formed (plainCalls 257) hlast).mpr hfirst 256 hlt
  rw [plainCalls_get hlt] at hright
  exact hright ((@holding_calls 256 257 (by decide) (by decide)).enters (by decide))

/-- The names of the first files differ. -/
theorem plainName_nodup {n : Nat} (hn : n ≤ 258) : ((plainCalls n).map Call.name).Nodup := by
  rw [plainCalls, List.map_map]
  refine List.Nodup.map_on (fun x hx y hy hxy => ?_) List.nodup_range
  rw [List.mem_range] at hx hy
  injection hxy with h0 htail
  injection htail with h1 _
  have hv0 := congrArg UInt8.toNat h0
  have hv1 := congrArg UInt8.toNat h1
  rw [UInt8.toNat_ofNat', UInt8.toNat_ofNat'] at hv0 hv1
  omega

/-- The 258th file gets a block more, although the second block has one entry in use. -/
theorem directory_slots_third : ¬ ∀ (m : Mem) (calls : List Call), Formed m →
    (calls.map Call.name).Nodup → ∀ k (hk : k < calls.length),
      calls[k].Enters (stateAt m calls k) → SlotRight (stateAt m calls k) calls[k] := by
  intro h
  have hlt : 257 < (plainCalls 258).length := by
    rw [plainCalls_length]
    decide
  have hold := @holding_calls 257 258 (by decide) (by decide)
  have henters := hold.enters (by decide)
  have hright := h (formatted blank) (plainCalls 258) blank_formed (plainName_nodup (by decide)) 257 hlt
  rw [plainCalls_get hlt] at hright
  have hnone : handed (stateAt (formatted blank) (plainCalls 258) 257) = none := by
    rw [handed_eq_none]
    intro _ e he
    rw [hold.vacant]
    unfold entries at he
    exact decide_eq_false (by omega)
  obtain ⟨d, m₁, halloc⟩ := henters.2
  have hend := allocFile_end hold.formed.toRooted hold.formed.small
  rw [halloc] at hend
  have hgot := (hend.obtained hold.formed.toRooted hold.formed.small).2.2
  have hfull := (hright henters).thrifty d m₁ halloc (hgot.grows.mpr hnone) 257 ?_
  · rw [hold.vacant] at hfull
    exact absurd hfull (by decide)
  · rw [hold.blocks]
    decide

end Myos.Image
