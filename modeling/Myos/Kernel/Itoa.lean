import Myos.Kernel.Print

/-!
# Numerals

The two routines of `kernel/console.c` that write an unsigned number.
`unsigned_recursion` prints the canonical numeral (`unsigned_recursion_canonical`).
`itoa` fills a buffer of 32 bytes backwards from byte 30 and stops before byte 0, so it
has room for 30 digits: it is the same numeral but for the numbers that have more, in
base 2 (`itoa_agrees_iff`).
-/

namespace Myos.Kernel

open Myos.Lib

/-- `unsigned_recursion` ends, writes the canonical numeral, and returns how many
characters it wrote. -/
theorem unsigned_recursion_canonical (val : UInt64) (base : Nat) (hb : 2 ≤ base) (_ : base ≤ 16)
    (s : Print) : ∃ ds, Numeral.Canonical base val.toNat ds ∧
      unsignedRecursion base hb val.toNat s =
        .ok ds.length { s with out := s.out ++ ds.map strtab } := by
  have hcanonical := Numeral.digits_canonical hb val.toNat
  refine ⟨_, hcanonical, ?_⟩
  have hlen : (Numeral.digits base val.toNat).length ≤ 64 := by
    rw [Numeral.digits_length_le hb (by decide)]
    exact val.toNat_lt.trans_le (Nat.pow_le_pow_left hb 64)
  have hcount : int32 ((numeral base val.toNat).length : Int) =
      (Numeral.digits base val.toNat).length := by
    rw [numeral, Numeral.unsigned, List.length_map]
    exact int32_of_bounds (by omega) (by omega)
  rw [unsignedRecursion_run base hb val.toNat s, hcount]
  rfl

/-- The number with the longest numeral, on an empty screen. -/
theorem unsigned_recursion_canonical_max : ∃ ds,
    Numeral.Canonical 2 (UInt64.ofNat (2 ^ 64 - 1)).toNat ds ∧
      unsignedRecursion 2 (by decide) (UInt64.ofNat (2 ^ 64 - 1)).toNat ⟨0, 0, 0, [], []⟩ =
        .ok ds.length ⟨0, 0, 0, [], [] ++ ds.map strtab⟩ :=
  unsigned_recursion_canonical (UInt64.ofNat (2 ^ 64 - 1)) 2 (by decide) (by decide)
    ⟨0, 0, 0, [], []⟩

/-! ## `itoa` -/

/-- The loop of `itoa`, from position `i` of the buffer down: the last value of `i`. -/
def itoaLoop (base : Nat) : (i : Nat) → i < 32 → Nat → Act (Vector UInt8 32) Nat
  | 0, _, _ => return 0
  | i + 1, h, val =>
    if val = 0 then return i + 1
    else do
      Act.modify fun buf => buf.set (i + 1) (strtab (val % base)) h
      itoaLoop base i (Nat.lt_of_succ_lt h) (val / base)

/-- `itoa`: the position in the static buffer that it returns a pointer to. -/
def itoa (val : UInt32) (base : Nat) : Act (Vector UInt8 32) Nat := do
  Act.modify fun _ => Vector.replicate 32 0
  if val = 0 then
    Act.modify fun buf => buf.set 30 0x30
    return 30
  else do
    let i ← itoaLoop base 30 (by decide) val.toNat
    return i + 1

/-- The string at the head of some bytes: its characters before the first nought, if there is
one. -/
def cstring : List UInt8 → Option (List UInt8)
  | [] => none
  | c :: cs => if c = 0 then some [] else (cstring cs).map (c :: ·)

/-- The string that `itoa` returns ends in its buffer, and is what `unsigned_recursion` prints. -/
def ItoaAgrees (val : UInt32) (base : Nat) (hb : 1 < base) : Prop :=
  ∀ buf : Vector UInt8 32, ∃ p buf' t, itoa val base buf = .ok p buf' ∧
    cstring (buf'.toList.drop p) = some t ∧
    ∀ s : Print, ∃ n, unsignedRecursion base hb val.toNat s = .ok n { s with out := s.out ++ t }

section Itoa

variable {base i val : Nat} {buf : Vector UInt8 32}

theorem strtab_ne_zero : ∀ d < 16, strtab d ≠ 0 := by decide

/-- Characters before a nought. -/
theorem cstring_append {t : List UInt8} (h : 0 ∉ t) (rest : List UInt8) :
    cstring (t ++ 0 :: rest) = some t := by
  induction t with
  | nil => exact if_pos rfl
  | cons c cs ih =>
    rw [List.mem_cons, not_or] at h
    rw [List.cons_append, cstring, if_neg (Ne.symm h.1), ih h.2]
    rfl

/-- The loop writes the last digits, as many as there is room for, before what is there. -/
theorem itoaLoop_run (hb : 1 < base) (hi : i < 32) {tail : List UInt8}
    (htail : buf.toList.drop (i + 1) = tail) : ∃ k buf', itoaLoop base i hi val buf = .ok k buf' ∧
      buf'.toList.drop (k + 1) = ((Nat.digits base val).take i).reverse.map strtab ++ tail := by
  induction i generalizing val buf tail with
  | zero => exact ⟨0, buf, rfl, htail⟩
  | succ i ih =>
    by_cases hval : val = 0
    · refine ⟨i + 1, buf, by rw [itoaLoop, if_pos hval]; rfl, ?_⟩
      rw [hval, Nat.digits_zero]
      exact htail
    · obtain ⟨buf₁, hbuf₁⟩ : ∃ b, b = buf.set (i + 1) (strtab (val % base)) hi := ⟨_, rfl⟩
      have hdrop : buf₁.toList.drop (i + 1) = strtab (val % base) :: tail := by
        have hlt : i + 1 < (buf.toList.set (i + 1) (strtab (val % base))).length := by
          rw [List.length_set, Vector.length_toList]
          exact hi
        rw [hbuf₁, Vector.toList_set, List.drop_eq_getElem_cons hlt, List.getElem_set_self,
          List.drop_set_of_lt (Nat.lt_succ_self _), htail]
      obtain ⟨k, buf', hrun, hend⟩ := ih (Nat.lt_of_succ_lt hi) hdrop
      refine ⟨k, buf', ?_, ?_⟩
      · rw [itoaLoop, if_neg hval, Act.modify_bind_apply, ← hbuf₁]
        exact hrun
      · rw [hend, Nat.digits_def' hb (Nat.pos_of_ne_zero hval), List.take_succ_cons,
          List.reverse_cons, List.map_append, List.append_assoc]
        rfl

/-- What `itoa` returns is the last 30 digits. -/
theorem itoa_run (val : UInt32) (hb : 1 < base) (hb' : base ≤ 16) (buf : Vector UInt8 32) :
    ∃ p buf', itoa val base buf = .ok p buf' ∧ cstring (buf'.toList.drop p) =
      some ((if val = 0 then [0] else ((Nat.digits base val.toNat).take 30).reverse).map strtab) := by
  unfold itoa
  rw [Act.modify_bind_apply]
  by_cases hval : val = 0
  · rw [if_pos hval, if_pos hval, Act.modify_bind_apply]
    exact ⟨30, _, rfl, by decide⟩
  · have htail : (Vector.replicate 32 (0 : UInt8)).toList.drop 31 = [0] := by decide
    obtain ⟨k, buf', hrun, hend⟩ := itoaLoop_run hb (by decide : 30 < 32) htail
    rw [if_neg hval, if_neg hval, Act.bind_ok hrun]
    refine ⟨k + 1, buf', rfl, ?_⟩
    rw [hend]
    refine cstring_append (fun hmem => ?_) []
    obtain ⟨d, hd, hzero⟩ := List.mem_map.mp hmem
    have hlt : d < base :=
      Nat.digits_lt_base hb (List.mem_of_mem_take (List.mem_reverse.mp hd))
    exact strtab_ne_zero d (hlt.trans_le hb') hzero

/-- There is room for the digits just if there are 30 at most. -/
theorem itoa_digits (val : UInt32) (hb : 1 < base) :
    (Nat.digits base val.toNat).length ≤ 30 ↔ (base = 2 → val.toNat < 2 ^ 30) := by
  rw [Nat.digits_length_le_iff hb]
  constructor
  · rintro h rfl
    exact h
  · intro h
    by_cases htwo : base = 2
    · rw [htwo]
      exact h htwo
    · have hbig : 3 ^ 30 ≤ base ^ 30 := Nat.pow_le_pow_left (by omega) 30
      have hval := val.toNat_lt
      omega

/-- What `itoa` returns is what `unsigned_recursion` prints just if there is room for it. -/
theorem itoaAgrees_iff_digits (val : UInt32) (hb : 1 < base) (hb' : base ≤ 16) :
    ItoaAgrees val base hb ↔ (Nat.digits base val.toNat).length ≤ 30 := by
  have hprint := unsignedRecursion_run base hb val.toNat
  constructor
  · intro h
    obtain ⟨p, buf', t, hrun, hstring, hout⟩ := h (Vector.replicate 32 0)
    obtain ⟨p', buf'', hrun', hstring'⟩ := itoa_run val hb hb' (Vector.replicate 32 0)
    rw [hrun] at hrun'
    cases hrun'
    obtain ⟨n, hrec⟩ := hout ⟨0, 0, 0, [], []⟩
    have hsame : numeral base val.toNat = t := by
      have hends := congrArg (fun r => r.state.out) ((hprint _).symm.trans hrec)
      exact hends
    rw [hstring] at hstring'
    have hlen := congrArg List.length (hsame.trans (Option.some.inj hstring'))
    by_cases hval : val = 0
    · rw [hval, UInt32.toNat_zero, Nat.digits_zero]
      exact Nat.zero_le 30
    · have hne : val.toNat ≠ 0 := fun h0 => hval (UInt32.toNat_inj.mp h0)
      rw [if_neg hval, numeral, Numeral.unsigned, Numeral.digits, if_neg hne, List.length_map,
        List.length_map, List.length_reverse, List.length_reverse, List.length_take] at hlen
      omega
  · intro h buf
    obtain ⟨p, buf', hrun, hstring⟩ := itoa_run val hb hb' buf
    refine ⟨p, buf', _, hrun, hstring, fun s => ⟨int32 (numeral base val.toNat).length, ?_⟩⟩
    have hsame : numeral base val.toNat =
        (if val = 0 then [0] else ((Nat.digits base val.toNat).take 30).reverse).map strtab := by
      rw [numeral, Numeral.unsigned, Numeral.digits, List.take_of_length_le h]
      congr 1
      refine if_congr ?_ rfl rfl
      exact ⟨fun h0 => UInt32.toNat_inj.mp h0, fun h0 => by rw [h0]; rfl⟩
    rw [← hsame]
    exact hprint s

end Itoa

/-- The two routines agree on all numbers but those of 31 binary digits and more, in base 2. -/
theorem itoa_agrees_iff (val : UInt32) (base : Nat) (hb : 2 ≤ base) (hb' : base ≤ 16) :
    ItoaAgrees val base hb ↔ (base = 2 → val.toNat < 2 ^ 30) :=
  (itoaAgrees_iff_digits val hb hb').trans (itoa_digits val hb)

/-- The largest number in base 16. -/
theorem itoa_agrees_largest : ItoaAgrees (UInt32.ofNat (2 ^ 32 - 1)) 16 (by decide) :=
  (itoa_agrees_iff (UInt32.ofNat (2 ^ 32 - 1)) 16 (by decide) (by decide)).mpr fun h =>
    absurd h (by decide)

/-- There is no room for a number of 31 binary digits. -/
theorem itoa_drops : ¬ ∀ (val : UInt32) (base : Nat) (hb : 1 < base), base ≤ 16 →
    ItoaAgrees val base hb := by
  intro h
  have hagrees := h (UInt32.ofNat (2 ^ 30)) 2 (by decide) (by decide)
  have hlt := (itoa_digits _ (by decide)).mp
    ((itoaAgrees_iff_digits _ (by decide) (by decide)).mp hagrees) rfl
  rw [UInt32.toNat_ofNat_of_lt' (by decide)] at hlt
  exact Nat.lt_irrefl _ hlt

end Myos.Kernel
