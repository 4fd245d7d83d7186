import Myos.Lib.Act
import Myos.Lib.Bitmap
import Myos.Lib.Run

/-!
# Drawing numbers from a bitmap

To draw is to look for the first number whose bit is set and to clear that bit. Whatever
the state is that a bitmap is part of, as long as looking finds the first and taking
clears the one, a run of draws hands out each number once, in the order of the numbers,
and nothing once there are none left (`Drawn`).
-/

namespace Myos.Lib.Bitmap

variable {σ : Type}

/-- Look for a number and take it; less than nought is none. -/
def draw (find : Act σ Int) (take : Nat → Act σ Unit) : Act σ Int := do
  let no ← find
  if no < 0 then return -1
  else do
    take no.toNat
    return no

/-- The number that the search comes to, as the code hands it on. -/
def found : Option Nat → Int
  | some k => k
  | none => -1

/-- What was drawn, one after another, of the numbers that have the property, and which have it
then. -/
structure Drawn (size : Nat) (p : Nat → Bool) (rs : List Int) (p' : Nat → Bool) : Prop where
  each : ∀ (i : Nat) (r : Int), rs[i]? = some r →
    (r = -1 ∧ ∀ k, k < size → p k = true → (k : Int) ∈ rs.take i) ∨
      ∃ k : Nat, r = k ∧ k < size ∧ p k = true ∧ (k : Int) ∉ rs.take i ∧
        ∀ j, j < k → p j = true → (j : Int) ∈ rs.take i
  left : ∀ k : Nat, k < size → p' k = (p k && decide ((k : Int) ∉ rs))

section Runs

variable {size k : Nat} {p p₁ p' : Nat → Bool} {r : Int} {rs : List Int}

theorem Drawn.nil (size : Nat) (p : Nat → Bool) : Drawn size p [] p where
  each i r h := by cases h
  left k _ := by rw [decide_eq_true (List.not_mem_nil), Bool.and_true]

/-- One number is drawn before the others. -/
theorem Drawn.cons (h : Drawn size p₁ rs p') (hp : ∀ j, p₁ j = (p j && decide (j ≠ k)))
    (hk : firstFrom p size 0 = some k) : Drawn size p (k :: rs) p' := by
  obtain ⟨-, hlt, hset, hfirst⟩ := firstFrom_eq_some hk
  have hmem : ∀ {j : Nat} {l : List Int}, p j = true → (p₁ j = true → (j : Int) ∈ l) →
      (j : Int) ∈ (k : Int) :: l := fun {j l} hj hl => by
    by_cases hjk : j = k
    · rw [hjk]
      exact List.mem_cons_self
    · exact List.mem_cons_of_mem _ (hl (by rw [hp, hj, decide_eq_true hjk]; rfl))
  refine ⟨fun i r hr => ?_, fun j hj => ?_⟩
  · cases i with
    | zero =>
      cases hr
      refine .inr ⟨k, rfl, by omega, hset, List.not_mem_nil, fun j hj hpj => ?_⟩
      rw [hfirst j (Nat.zero_le j) hj] at hpj
      cases hpj
    | succ i =>
      obtain ⟨rfl, hnone⟩ | ⟨n, rfl, hn, hpn, hnot, hleast⟩ := h.each i r hr
      · exact .inl ⟨rfl, fun j hj hpj => hmem hpj (hnone j hj)⟩
      · rw [hp, Bool.and_eq_true] at hpn
        have hne := of_decide_eq_true hpn.2
        refine .inr ⟨n, rfl, hn, hpn.1, fun hin => ?_, fun j hj hpj => hmem hpj (hleast j hj)⟩
        rcases List.mem_cons.mp hin with he | hin
        · exact hne (Int.ofNat.inj he)
        · exact hnot hin
  · rw [h.left j hj, hp, Bool.and_assoc]
    congr 1
    rw [← Bool.decide_and]
    refine decide_eq_decide.mpr ?_
    rw [List.mem_cons, not_or]
    exact and_congr_left' (not_congr Int.ofNat_inj.symm)

/-- Nothing is drawn where there is nothing. -/
theorem Drawn.cons_none (h : Drawn size p rs p') (hk : firstFrom p size 0 = none) :
    Drawn size p (-1 :: rs) p' := by
  have hnone : ∀ j, j < size → p j = true → False := fun j hj hpj =>
    firstFrom_ne_none (Nat.zero_le j) (by omega) hpj hk
  refine ⟨fun i r hr => ?_, fun j hj => ?_⟩
  · cases i with
    | zero =>
      cases hr
      exact .inl ⟨rfl, fun j hj hpj => absurd hpj fun h => hnone j hj h⟩
    | succ i =>
      obtain ⟨rfl, -⟩ | ⟨n, -, hn, hpn, -⟩ := h.each i r hr
      · exact .inl ⟨rfl, fun j hj hpj => absurd hpj fun h => hnone j hj h⟩
      · exact absurd hpn fun h => hnone n hn h
  · have hpj : p j = false := Bool.eq_false_of_not_eq_true fun h => hnone j hj h
    rw [h.left j hj, hpj, Bool.false_and, Bool.false_and]

/-- From a bitmap with every bit set the numbers come in order. -/
theorem Drawn.eq_range (h : Drawn size p rs p') (hp : ∀ k < size, p k = true)
    (hlen : rs.length ≤ size) : rs = (List.range rs.length).map fun k : Nat => (k : Int) := by
  have hall : ∀ (i : Nat) (r : Int), rs[i]? = some r → r = i := by
    intro i
    induction i using Nat.strong_induction_on with
    | _ i ih =>
      intro r hr
      have hi : i < rs.length := (List.getElem?_eq_some_iff.mp hr).1
      -- the numbers drawn before are those below it
      have hbefore : ∀ k : Nat, (k : Int) ∈ rs.take i → k < i := by
        intro k hk
        obtain ⟨j, hj⟩ := List.mem_iff_getElem?.mp hk
        rw [List.getElem?_take] at hj
        split at hj
        · next hji =>
          have := ih j hji k hj
          omega
        · cases hj
      obtain ⟨-, hnone⟩ | ⟨k, rfl, hk, -, hnot, hleast⟩ := h.each i r hr
      · exact absurd (hbefore i (hnone i (by omega) (hp i (by omega)))) (Nat.lt_irrefl i)
      · have hle : k ≤ i := by
          by_contra hlt
          exact absurd (hbefore i (hleast i (by omega) (hp i (by omega)))) (Nat.lt_irrefl i)
        have hge : ¬ k < i := by
          intro hlt
          refine hnot (List.mem_iff_getElem?.mpr ⟨k, ?_⟩)
          have hkth : rs[k]? = some rs[k] := List.getElem?_eq_getElem (by omega)
          rw [List.getElem?_take, if_pos hlt, hkth, ih k hlt _ hkth]
        have hki : k = i := by omega
        rw [hki]
  refine List.ext_getElem? fun i => ?_
  by_cases hi : i < rs.length
  · have hith : rs[i]? = some rs[i] := List.getElem?_eq_getElem hi
    rw [hith, hall i _ hith, List.getElem?_map, List.getElem?_range hi]
    rfl
  · rw [List.getElem?_eq_none (by omega), List.getElem?_eq_none (by
      rw [List.length_map, List.length_range]
      omega)]

end Runs

section Code

variable {find : Act σ Int} {take : Nat → Act σ Unit} {bits : σ → Nat → Bool} {good : σ → Prop}
  {size : Nat} {s : σ}

/-- A draw comes to its end. -/
theorem draw_run (hfind : ∀ s, good s → find s = .ok (found (firstFrom (bits s) size 0)) s)
    (htake : ∀ s k, good s → k < size →
      ∃ s', take k s = .ok () s' ∧ good s' ∧ ∀ j, bits s' j = (bits s j && decide (j ≠ k)))
    (hs : good s) :
    ∃ s', draw find take s = .ok (found (firstFrom (bits s) size 0)) s' ∧ good s' ∧
      match firstFrom (bits s) size 0 with
      | some k => ∀ j, bits s' j = (bits s j && decide (j ≠ k))
      | none => s' = s := by
  unfold draw
  rw [Act.bind_ok (hfind s hs)]
  cases hk : firstFrom (bits s) size 0 with
  | none =>
    refine ⟨s, ?_, hs, rfl⟩
    rw [found, if_pos (by decide)]
    rfl
  | some k =>
    obtain ⟨-, hlt, -⟩ := firstFrom_eq_some hk
    obtain ⟨s', hrun, hgood, hbits⟩ := htake s k hs (by omega)
    refine ⟨s', ?_, hgood, hbits⟩
    rw [found, if_neg (by omega), Int.toNat_natCast, Act.bind_ok hrun]
    rfl

/-- So does any number of draws, and they hand out what `Drawn` says. -/
theorem draws_run (hfind : ∀ s, good s → find s = .ok (found (firstFrom (bits s) size 0)) s)
    (htake : ∀ s k, good s → k < size →
      ∃ s', take k s = .ok () s' ∧ good s' ∧ ∀ j, bits s' j = (bits s j && decide (j ≠ k)))
    (n : Nat) (hs : good s) :
    ∃ rs s', rs.length = n ∧ Steps (fun s r s' => draw find take s = .ok r s') s rs s' ∧ good s' ∧
      Drawn size (bits s) rs (bits s') := by
  induction n generalizing s with
  | zero => exact ⟨[], s, rfl, .nil s, hs, .nil size (bits s)⟩
  | succ n ih =>
    obtain ⟨s₁, hrun, hgood, hcase⟩ := draw_run hfind htake hs
    obtain ⟨rs, s', hlen, hsteps, hgood', hdrawn⟩ := ih hgood
    refine ⟨_ :: rs, s', by rw [List.length_cons, hlen], .cons hrun hsteps, hgood', ?_⟩
    cases hk : firstFrom (bits s) size 0 with
    | none =>
      rw [hk] at hcase
      rw [show s₁ = s from hcase] at hdrawn
      exact hdrawn.cons_none hk
    | some k =>
      rw [hk] at hcase
      exact hdrawn.cons hcase hk

end Code

end Myos.Lib.Bitmap
