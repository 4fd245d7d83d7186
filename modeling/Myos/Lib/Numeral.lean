import Mathlib.Data.Nat.Digits.Lemmas

/-!
# Numerals

A natural number in a base, the most significant digit first, written with
glyphs; an integer with a sign in front. Mathlib's `Nat.digits` has the least
significant digit first and no digit for nought; a numeral has one.

`digits_step` is the equation a recursive writer follows, `digits_head` says
that there is no leading nought, and `signed_injective` that a numeral is of
one integer only. A row of digits that has the value of a number and no leading
nought is its numeral (`Canonical`).
-/

namespace Myos.Lib.Numeral

/-- The digits of a number, the most significant first. -/
def digits (b n : Nat) : List Nat := if n = 0 then [0] else (Nat.digits b n).reverse

section Digits

variable {b n m d : Nat}

/-- A number below the base is its own digit. -/
theorem digits_of_lt (hn : n < b) : digits b n = [n] := by
  unfold digits
  split
  · next h0 => rw [h0]
  · next h0 => rw [Nat.digits_of_lt b n h0 hn]; rfl

/-- Any other number is its last digit after the numeral of the rest. -/
theorem digits_step (hb : 1 < b) (hn : b ≤ n) : digits b n = digits b (n / b) ++ [n % b] := by
  have hpos : 0 < n / b := Nat.div_pos hn (by omega)
  unfold digits
  rw [if_neg (by omega), if_neg (by omega), Nat.digits_def' hb (by omega), List.reverse_cons]

theorem digits_lt (hb : 1 < b) (hd : d ∈ digits b n) : d < b := by
  unfold digits at hd
  split at hd
  · rw [List.mem_singleton.mp hd]
    omega
  · exact Nat.digits_lt_base hb (List.mem_reverse.mp hd)

/-- The digits are the number's. -/
theorem ofDigits_digits : Nat.ofDigits b (digits b n).reverse = n := by
  unfold digits
  split
  · next h0 => rw [h0]; rfl
  · rw [List.reverse_reverse, Nat.ofDigits_digits]

theorem digits_injective (b : Nat) : Function.Injective (digits b) := by
  intro n m h
  rw [← ofDigits_digits (b := b) (n := n), h, ofDigits_digits]

/-- No numeral but nought's begins with nought. -/
theorem digits_head (hn : n ≠ 0) : (digits b n).head? ≠ some 0 := by
  unfold digits
  rw [if_neg hn, List.head?_reverse]
  have hne : Nat.digits b n ≠ [] := Nat.digits_ne_nil_iff_ne_zero.mpr hn
  rw [List.getLast?_eq_some_getLast hne]
  intro h
  exact Nat.getLast_digit_ne_zero b hn (Option.some.inj h)

theorem digits_ne_nil (b n : Nat) : digits b n ≠ [] := by
  unfold digits
  split
  · exact List.cons_ne_nil 0 []
  · next h0 => exact fun h => Nat.digits_ne_nil_iff_ne_zero.mpr h0 (List.reverse_eq_nil_iff.mp h)

/-- A number has `k` digits at most just if it is below that power of the base. -/
theorem digits_length_le {k : Nat} (hb : 1 < b) (hk : 0 < k) :
    (digits b n).length ≤ k ↔ n < b ^ k := by
  unfold digits
  split
  · next h0 =>
    rw [h0]
    exact iff_of_true hk (Nat.pow_pos (by omega))
  · rw [List.length_reverse, Nat.digits_length_le_iff hb]

end Digits

/-! ## Rows of digits -/

/-- The value of a row of digits, read from the left. -/
def value (b : Nat) (ds : List Nat) : Nat := ds.foldl (fun v d => v * b + d) 0

/-- A row of digits that is the numeral of a number: digits of the base, of the number's value,
and no leading nought but in nought's own. -/
structure Canonical (b n : Nat) (ds : List Nat) : Prop where
  nonempty : ds ≠ []
  digits : ∀ d ∈ ds, d < b
  value : value b ds = n
  leading : ds.head? = some 0 → ds = [0]

section Canonical

variable {b n : Nat} {ds : List Nat}

/-- Mathlib's value of a row has the least significant digit first. -/
theorem value_eq_ofDigits : value b ds = Nat.ofDigits b ds.reverse := by
  induction ds using List.reverseRecOn with
  | nil => rfl
  | append_singleton ds d ih =>
    unfold value at ih ⊢
    rw [List.foldl_append, ih, List.reverse_append, List.reverse_singleton, List.singleton_append,
      Nat.ofDigits_cons, List.foldl_cons, List.foldl_nil]
    ring

theorem digits_canonical (hb : 1 < b) (n : Nat) : Canonical b n (digits b n) where
  nonempty := digits_ne_nil b n
  digits _ hd := digits_lt hb hd
  value := by rw [value_eq_ofDigits, ofDigits_digits]
  leading h := by
    by_cases h0 : n = 0
    · rw [h0]
      rfl
    · exact absurd h (digits_head h0)

/-- There is one such row. -/
theorem Canonical.eq_digits (h : Canonical b n ds) (hb : 1 < b) : ds = Numeral.digits b n := by
  have hval := h.value
  rw [value_eq_ofDigits] at hval
  by_cases hzero : ds.head? = some 0
  · rw [h.leading hzero] at hval ⊢
    rw [← hval]
    rfl
  · have hlast : ∀ hne : ds.reverse ≠ [], ds.reverse.getLast hne ≠ 0 := fun hne he => by
      refine hzero ?_
      rw [← List.getLast?_reverse, List.getLast?_eq_some_getLast hne, he]
    have hdigits : Nat.digits b n = ds.reverse := by
      rw [← hval]
      exact Nat.digits_ofDigits b hb ds.reverse (fun d hd => h.digits d (List.mem_reverse.mp hd))
        hlast
    have hne : n ≠ 0 := fun h0 => by
      rw [h0, Nat.digits_zero] at hdigits
      exact h.nonempty (List.reverse_eq_nil_iff.mp hdigits.symm)
    rw [Numeral.digits, if_neg hne, hdigits, List.reverse_reverse]

end Canonical

section Glyphs

variable {α : Type*} (glyph : Nat → α) (minus : α)

/-- A number written out. -/
def unsigned (b n : Nat) : List α := (digits b n).map glyph

/-- An integer written out: a sign only for the negative ones. -/
def signed (b : Nat) (v : Int) : List α :=
  if v < 0 then minus :: unsigned glyph b v.natAbs else unsigned glyph b v.natAbs

variable {glyph minus} {b : Nat}

/-- Digits with glyphs of their own are told by their glyphs. -/
theorem map_glyph_inj (hglyph : ∀ d < b, ∀ e < b, glyph d = glyph e → d = e) {ds es : List Nat}
    (hds : ∀ d ∈ ds, d < b) (hes : ∀ e ∈ es, e < b) (h : ds.map glyph = es.map glyph) :
    ds = es := by
  induction ds generalizing es with
  | nil => exact (List.map_eq_nil_iff.mp h.symm).symm
  | cons d ds ih =>
    cases es with
    | nil => cases h
    | cons e es =>
      rw [List.forall_mem_cons] at hds hes
      obtain ⟨hhead, htail⟩ := List.cons.inj h
      rw [hglyph d hds.1 e hes.1 hhead, ih hds.2 hes.2 htail]

/-- With glyphs of their own for the digits, a numeral is of one number. -/
theorem unsigned_injective (hb : 1 < b) (hglyph : ∀ d < b, ∀ e < b, glyph d = glyph e → d = e) :
    Function.Injective (unsigned glyph b) := by
  intro n m h
  exact digits_injective b
    (map_glyph_inj hglyph (fun d => digits_lt hb) (fun e => digits_lt hb) h)

/-- With a sign that is no digit's glyph, a numeral is of one integer. -/
theorem signed_injective (hb : 1 < b) (hglyph : ∀ d < b, ∀ e < b, glyph d = glyph e → d = e)
    (hminus : ∀ d < b, glyph d ≠ minus) : Function.Injective (signed glyph minus b) := by
  have hhead : ∀ n (l : List α), unsigned glyph b n ≠ minus :: l := by
    intro n l h
    have hmem : minus ∈ unsigned glyph b n := by
      rw [h]
      exact List.mem_cons_self
    obtain ⟨d, hd, heq⟩ := List.mem_map.mp hmem
    exact hminus d (digits_lt hb hd) heq
  have hinj := unsigned_injective hb hglyph
  intro v w h
  unfold signed at h
  split at h
  · split at h
    · have := hinj (List.cons.inj h).2
      omega
    · exact absurd h.symm (hhead _ _)
  · split at h
    · exact absurd h (hhead _ _)
    · have := hinj h
      omega

end Glyphs

end Myos.Lib.Numeral
