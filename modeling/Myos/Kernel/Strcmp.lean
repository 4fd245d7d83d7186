import Myos.Kernel.Directory

/-!
# `strcmp`

`strcmp` of `lib.c` with all its ways out, on strings wherever the tables map them
(`Mm.Reads`). It tells equal strings from others, and stops at the end of the shorter
one at the latest (`strcmpBy_run`). Where the strings differ it returns
`(*s1 - *s2) ? 1 : -1`, which is 1 whichever of the two is the greater: no result is
negative, and the sign is that of an order for equal strings only (`strcmp_orders_iff`).
-/

namespace Myos.Kernel

open Myos.Lib

/-- `strcmp` for `n` turns of the loop, with a way of reading for each string. -/
def strcmpBy (load1 load2 : Nat → Act Mm Nat) : Nat → Nat → Nat → Act Mm Int
  | 0, _, _ => Act.stop
  | n + 1, s1, s2 => do
    let a ← load1 s1
    let b ← load2 s2
    if a ≠ 0 ∨ b ≠ 0 then
      if a = b then strcmpBy load1 load2 n (s1 + 1) (s2 + 1)
      else return if (a : Int) - b ≠ 0 then 1 else -1
    -- both are nought here: the two tests that follow in the source do not come to more
    else if a = 0 ∧ b = 0 then return 0
    else if a = 0 then return -1
    else return 1

/-- The ways out that `strcmpLoop` leaves out are not taken. -/
theorem strcmpBy_load (n s1 s2 : Nat) : strcmpBy (load 1) (load 1) n s1 s2 = strcmpLoop n s1 s2 := by
  induction n generalizing s1 s2 with
  | zero => rfl
  | succ n ih =>
    rw [strcmpBy, strcmpLoop]
    refine congrArg _ (funext fun a => congrArg _ (funext fun b => ?_))
    by_cases hab : a ≠ 0 ∨ b ≠ 0
    · rw [if_pos hab, if_pos hab, ih]
      by_cases hsame : a = b
      · rw [if_pos hsame, if_pos hsame]
      · rw [if_neg hsame, if_neg hsame, if_pos (by omega)]
    · rw [if_neg hab, if_neg hab, if_pos (by omega)]

/-- A byte at `e` or before it. -/
def loadUpTo (e va : Nat) : Act Mm Nat := if va ≤ e then load 1 va else Act.stop

/-- The sign of the lexicographic order. -/
def lexSign (cs ds : List UInt8) : Int := if cs < ds then -1 else if ds < cs then 1 else 0

/-- `strcmp` is an ordering, for the string at `a` and the one at `b`. -/
structure Orders (s : Mm) (a b : Nat) (cs ds : List UInt8) : Prop where
  /-- It returns, and reads no byte past either terminator. -/
  within : ∃ r, strcmp a b s = .ok r s ∧
    strcmpBy (loadUpTo (a + cs.length)) (loadUpTo (b + ds.length)) (2 ^ 64) a b s = .ok r s
  equal : ∀ r, strcmp a b s = .ok r s → (r = 0 ↔ cs = ds)
  sign : ∀ r, strcmp a b s = .ok r s → r.sign = lexSign cs ds
  opposite : ∀ r r', strcmp a b s = .ok r s → strcmp b a s = .ok r' s → r'.sign = -r.sign
  trans : ∀ (c : Nat) (es : List UInt8), s.Reads c es → es.length < 2 ^ 64 → ∀ r r' r'',
    strcmp a b s = .ok r s → strcmp b c s = .ok r' s → strcmp a c s = .ok r'' s →
    r < 0 → r' < 0 → r'' < 0

section Strings

variable {s : Mm} {a b n : Nat} {cs ds : List UInt8} {load1 load2 : Nat → Act Mm Nat}

/-- The loop tells equal strings from others, and comes to the end of the shorter one at most. -/
theorem strcmpBy_run (ha : s.Reads a cs) (hb : s.Reads b ds)
    (h1 : ∀ x, x ≤ a + cs.length → load1 x s = load 1 x s)
    (h2 : ∀ x, x ≤ b + ds.length → load2 x s = load 1 x s) (hn : min cs.length ds.length < n) :
    strcmpBy load1 load2 n a b s = .ok (if cs = ds then 0 else 1) s := by
  have hzero : ∀ x : UInt8, x ≠ 0 → x.toNat ≠ 0 := fun x hx h => hx (UInt8.toNat_inj.mp h)
  obtain ⟨n, rfl⟩ := Nat.exists_eq_succ_of_ne_zero (Nat.ne_of_gt (Nat.zero_lt_of_lt hn))
  induction cs generalizing a b n ds with
  | nil =>
    have ha0 : load1 a s = .ok 0 s := (h1 a (Nat.le_add_right a _)).trans ha
    rw [strcmpBy, Act.bind_ok ha0]
    cases ds with
    | nil =>
      have hb0 : load2 b s = .ok 0 s := (h2 b (Nat.le_add_right b _)).trans hb
      rw [Act.bind_ok hb0]
      rfl
    | cons d ds =>
      obtain ⟨hd, hne, -⟩ := hb
      have hb0 : load2 b s = .ok d.toNat s := (h2 b (Nat.le_add_right b _)).trans hd
      have hne' := hzero d hne
      rw [Act.bind_ok hb0, if_pos (.inr hne'), if_neg (Ne.symm hne'), if_pos (by omega),
        if_neg (List.cons_ne_nil d ds).symm]
      rfl
  | cons c cs ih =>
    obtain ⟨hc, hne, hrest⟩ := ha
    have ha0 : load1 a s = .ok c.toNat s := (h1 a (Nat.le_add_right a _)).trans hc
    have hne' := hzero c hne
    rw [strcmpBy, Act.bind_ok ha0]
    cases ds with
    | nil =>
      have hb0 : load2 b s = .ok 0 s := (h2 b (Nat.le_add_right b _)).trans hb
      rw [Act.bind_ok hb0, if_pos (.inl hne'), if_neg hne', if_pos (by omega),
        if_neg (List.cons_ne_nil c cs)]
      rfl
    | cons d ds =>
      obtain ⟨hd, -, hrest'⟩ := hb
      have hb0 : load2 b s = .ok d.toNat s := (h2 b (Nat.le_add_right b _)).trans hd
      rw [Act.bind_ok hb0, if_pos (.inl hne')]
      by_cases hcd : c = d
      · rw [List.length_cons] at h1 h2
        rw [List.length_cons, List.length_cons] at hn
        obtain ⟨n, rfl⟩ : ∃ k, n = k + 1 := ⟨n - 1, by omega⟩
        rw [if_pos (congrArg UInt8.toNat hcd), ih hrest hrest' (fun x hx => h1 x (by omega))
          (fun x hx => h2 x (by omega)) n (by omega), hcd]
        simp only [List.cons.injEq, true_and]
      · have hval : c.toNat ≠ d.toNat := fun h => hcd (UInt8.toNat_inj.mp h)
        rw [if_neg hval, if_pos (by omega), if_neg fun h => hcd (List.cons.inj h).1]
        rfl

/-- What `strcmp` returns: 1 for any two strings that differ. -/
theorem strcmp_run (ha : s.Reads a cs) (hb : s.Reads b ds) (hlen : cs.length < 2 ^ 64) :
    strcmp a b s = .ok (if cs = ds then 0 else 1) s := by
  rw [strcmp, ← strcmpBy_load]
  exact strcmpBy_run ha hb (fun _ _ => rfl) (fun _ _ => rfl) ((min_le_left _ _).trans_lt hlen)

theorem loadUpTo_apply {e x : Nat} (h : x ≤ e) : loadUpTo e x s = load 1 x s := by
  rw [loadUpTo, if_pos h]

/-- The sign alone is right just if the first string is not the smaller one. -/
theorem strcmp_sign_iff (ha : s.Reads a cs) (hb : s.Reads b ds) (hlen : cs.length < 2 ^ 64) :
    (∀ r, strcmp a b s = .ok r s → r.sign = lexSign cs ds) ↔ ¬ cs < ds := by
  have hrun := strcmp_run ha hb hlen
  unfold lexSign
  constructor
  · intro h hlt
    have hsign := h _ hrun
    rw [if_pos hlt] at hsign
    split at hsign
    · exact absurd hsign (by decide)
    · exact absurd hsign (by decide)
  · intro hle r hr
    rw [hrun] at hr
    cases hr
    rw [if_neg hle]
    by_cases hsame : cs = ds
    · rw [if_pos hsame, hsame, if_neg (List.lt_irrefl ds)]
      rfl
    · have hgt : ds < cs := (List.le_iff_lt_or_eq.mp (List.not_lt.mp hle)).resolve_right
        fun h => hsame h.symm
      rw [if_neg hsame, if_pos hgt]
      rfl

end Strings

/-- `strcmp` is an ordering for two strings just if they are equal. -/
theorem strcmp_orders_iff {s : Mm} {a b : Nat} {cs ds : List UInt8} (ha : s.Reads a cs)
    (hb : s.Reads b ds) (hlen : cs.length < 2 ^ 64) (hlen' : ds.length < 2 ^ 64) :
    Orders s a b cs ds ↔ cs = ds := by
  have hab := strcmp_run ha hb hlen
  have hba := strcmp_run hb ha hlen'
  constructor
  · intro h
    by_contra hne
    have hopposite := h.opposite _ _ hab hba
    rw [if_neg hne, if_neg (Ne.symm hne)] at hopposite
    exact absurd hopposite (by decide)
  · intro hsame
    rw [if_pos hsame] at hab
    rw [if_pos hsame.symm] at hba
    refine ⟨⟨0, hab, ?_⟩, fun r hr => ?_, ?_, fun r r' hr hr' => ?_, fun c es _ _ r r' r'' hr _ _ hlt => ?_⟩
    · rw [strcmpBy_run ha hb (fun x hx => loadUpTo_apply hx) (fun x hx => loadUpTo_apply hx)
        ((min_le_left _ _).trans_lt hlen), if_pos hsame]
    · rw [hab] at hr
      cases hr
      exact iff_of_true rfl hsame
    · refine (strcmp_sign_iff ha hb hlen).mpr ?_
      rw [hsame]
      exact List.lt_irrefl ds
    · rw [hab] at hr
      rw [hba] at hr'
      cases hr
      cases hr'
      rfl
    · rw [hab] at hr
      cases hr
      exact absurd hlt (by decide)

/-- A string and itself. -/
theorem strcmp_orders_same : Orders sampleTwo.mm (frameVa 4) (frameVa 4) [97] [97] :=
  (strcmp_orders_iff sampleTwo_name.reads sampleTwo_name.reads (by decide) (by decide)).mpr rfl

/-- The empty string against "a": 1 either way round. -/
theorem strcmp_both_greater : ¬ ∀ (s : Mm) (a b : Nat) (cs ds : List UInt8), s.Reads a cs →
    s.Reads b ds → cs.length < 2 ^ 64 → ds.length < 2 ^ 64 → Orders s a b cs ds := by
  intro h
  have hname := sampleTwo_name.reads
  have hempty : sampleTwo.mm.Reads (frameVa 4 + 1) [] := hname.2.2
  have hsign := (h _ _ _ _ _ hempty hname (by decide) (by decide)).sign
  exact (strcmp_sign_iff hempty hname (by decide)).mp hsign (by decide)

end Myos.Kernel
