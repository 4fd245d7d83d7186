import Myos.Lib.Act
import Myos.Lib.Numeral
import Myos.Kernel.Mm

/-!
# The formatted output

`print` and `unsigned_recursion` of `kernel/console.c`: a machine that reads the
format a character at a time, with two counters, `pflags` for a percent sign
seen and `lflags` for a letter `l` seen after one. A directive sets `pflags` back
and leaves `lflags` as it is.

An argument is passed in a slot of 64 bits, of which an `int` fills the low half
only; the other half is whatever was there. `Piece` is what a format is built of,
with the argument it takes; `Piece.rendering` is what it stands for.
-/

namespace Myos.Kernel

open Myos.Lib

/-- A variable argument: the slot of an integer, or a string, as its
characters before the terminating nought. -/
inductive PrintArg where
  | word (w : UInt64)
  | str (s : List UInt8)

/-- The variables of `print`, the arguments `va_arg` has not come to, and the
characters handed to `myputchar`. -/
structure Print where
  pflags : Int
  lflags : Int
  num : Int
  args : List PrintArg
  out : List UInt8

/-- Arithmetic in a `long`. -/
def int64 (x : Int) : Int := Int.bmod x (2 ^ 64)

/-- The conversion to `unsigned long`. -/
def ulong (x : Int) : Nat := (x % 2 ^ 64).toNat

/-- `strtab[i]`. -/
def strtab (i : Nat) : UInt8 := if i < 10 then 0x30 + UInt8.ofNat i else 0x61 + UInt8.ofNat (i - 10)

/-- `myputchar`, which keeps the characters in order. -/
def emit (c : UInt8) : Act Print Unit := Act.modify fun s => { s with out := s.out ++ [c] }

/-- `num += n`. -/
def countChars (n : Int) : Act Print Unit :=
  Act.modify fun s => { s with num := int32 (s.num + n) }

/-- `va_arg(arg, …)` of an integer type: the slot. -/
def nextWord : Act Print UInt64 := fun s =>
  match s.args with
  | .word w :: rest => .ok w { s with args := rest }
  | _ => .fault s

/-- `va_arg(arg, char *)`. -/
def nextStr : Act Print (List UInt8) := fun s =>
  match s.args with
  | .str t :: rest => .ok t { s with args := rest }
  | _ => .fault s

/-- `unsigned_recursion`. -/
def unsignedRecursion (base : Nat) (hb : 1 < base) (val : Nat) : Act Print Int :=
  if h : val < base then do
    emit (strtab (val % base))
    return 1
  else do
    have : val / base < val := Nat.div_lt_self (by omega) hb
    let num ← unsignedRecursion base hb (val / base)
    emit (strtab (val % base))
    return int32 (1 + num)
termination_by val

/-- The numeral of a value of type `unsigned long`, counted. -/
def printUnsigned (base : Nat) (hb : 1 < base) (val : Nat) : Act Print Unit := do
  countChars (← unsignedRecursion base hb val)

/-- The two branches of `case 'd'`, for a signed type in which `wrap` is the
arithmetic: the value is negated in it and then converted to `unsigned long`. -/
def printSigned (wrap : Int → Int) (val : Int) : Act Print Unit := do
  if val < 0 then
    let val := wrap (-val)
    emit 0x2D
    countChars 1
    printUnsigned 10 (by decide) (ulong val)
  else
    printUnsigned 10 (by decide) (ulong val)

/-- `case 'd'`. -/
def printD : Act Print Unit := do
  if (← Act.gets Print.lflags) = 0 then
    printSigned int32 (int32 (← nextWord).toNat)
  else
    printSigned int64 (int64 (← nextWord).toNat)
  Act.modify fun s => { s with pflags := 0 }

/-- `case 'x'` and `case 'o'`. -/
def printBase (base : Nat) (hb : 1 < base) : Act Print Unit := do
  if (← Act.gets Print.lflags) = 0 then
    printUnsigned base hb ((← nextWord).toNat % 2 ^ 32)
  else
    printUnsigned base hb (← nextWord).toNat
  Act.modify fun s => { s with pflags := 0 }

/-- The loop of `case 's'` over the characters. -/
def printChars : List UInt8 → Act Print Unit
  | [] => pure ()
  | c :: cs => do
    emit c
    countChars 1
    printChars cs

/-- `case 's'`. -/
def printS : Act Print Unit := do
  printChars (← nextStr)
  Act.modify fun s => { s with pflags := 0 }

/-- The label `label`, which is the default too. -/
def printPlain (c : UInt8) : Act Print Unit := do
  countChars 1
  emit c

/-- A letter: its directive after a percent sign, itself elsewhere. -/
def printLetter (c : UInt8) (directive : Act Print Unit) : Act Print Unit := do
  if (← Act.gets Print.pflags) = 0 then printPlain c else directive

/-- One turn of `print`. -/
def printTurn (c : UInt8) : Act Print Unit :=
  if c = 0x25 then Act.modify fun s => { s with pflags := int32 (s.pflags + 1) }
  else if c = 0x6C then
    printLetter c (Act.modify fun s => { s with lflags := int32 (s.lflags + 1) })
  else if c = 0x64 then printLetter c printD
  else if c = 0x78 then printLetter c (printBase 16 (by decide))
  else if c = 0x6F then printLetter c (printBase 8 (by decide))
  else if c = 0x73 then printLetter c printS
  else printPlain c

/-- The loop of `print` over the format. -/
def printLoop : List UInt8 → Act Print Unit
  | [] => pure ()
  | c :: cs => do
    printTurn c
    printLoop cs

/-- `print`, on the characters of the format before the terminating nought. -/
def print (format : List UInt8) (args : List PrintArg) : Res Print Int :=
  (do printLoop format; Act.gets Print.num : Act Print Int)
    { pflags := 0, lflags := 0, num := 0, args := args, out := [] }

/-! ## Formats and what they stand for -/

/-- A numeral, most significant digit first, without leading noughts. -/
def numeral (base n : Nat) : List UInt8 := Numeral.unsigned strtab base n

/-- The decimal numeral of an integer, with a minus sign exactly when it is negative. -/
def decimal (v : Int) : List UInt8 := Numeral.signed strtab 0x2D 10 v

/-- The letters of the integer directives. -/
inductive Conversion where
  | d
  | x
  | o
deriving DecidableEq, Repr

/-- The character of the letter. -/
def Conversion.letter : Conversion → UInt8
  | d => 0x64
  | x => 0x78
  | o => 0x6F

/-- What a format is built of: characters other than the percent sign, integer
directives with the slot of their argument, strings. No nought is among the
characters, which would end the format or the string. -/
inductive Piece where
  | plain (c : UInt8) (h : c ≠ 0x25) (h0 : c ≠ 0)
  | number (long : Bool) (conv : Conversion) (w : UInt64)
  | text (s : List UInt8) (h : 0 ∉ s)

namespace Piece

/-- The characters in the format. -/
def format : Piece → List UInt8
  | plain c _ _ => [c]
  | number long conv _ => 0x25 :: ((if long then [0x6C] else []) ++ [conv.letter])
  | text _ _ => [0x25, 0x73]

/-- The arguments taken. -/
def args : Piece → List PrintArg
  | plain _ _ _ => []
  | number _ _ w => [.word w]
  | text s _ => [.str s]

/-- An integer of the width `long` says, in a slot. -/
def numberText (long : Bool) (conv : Conversion) (w : UInt64) : List UInt8 :=
  match conv with
  | .d => decimal (if long then int64 w.toNat else int32 w.toNat)
  | .x => numeral 16 (if long then w.toNat else w.toNat % 2 ^ 32)
  | .o => numeral 8 (if long then w.toNat else w.toNat % 2 ^ 32)

/-- What a piece stands for. -/
def rendering : Piece → List UInt8
  | plain c _ _ => [c]
  | number long conv w => numberText long conv w
  | text s _ => s

/-- Whether it is a directive with `l`. -/
def isLong : Piece → Bool
  | number long _ _ => long
  | _ => false

end Piece

/-- The format built of pieces. -/
def formatOf (ps : List Piece) : List UInt8 := ps.flatMap Piece.format

/-- Its arguments. -/
def argsOf (ps : List Piece) : List PrintArg := ps.flatMap Piece.args

/-- What it stands for. -/
def renderingOf (ps : List Piece) : List UInt8 := ps.flatMap Piece.rendering

/-! ## What a run of digits comes to -/

theorem strtab_inj : ∀ d < 16, ∀ e < 16, strtab d = strtab e → d = e := by decide

theorem strtab_ne_minus : ∀ d < 16, strtab d ≠ 0x2D := by decide

theorem numeral_injective {base : Nat} (hb : 1 < base) (hb' : base ≤ 16) :
    Function.Injective (numeral base) :=
  Numeral.unsigned_injective hb fun d hd e he => strtab_inj d (by omega) e (by omega)

theorem decimal_injective : Function.Injective decimal :=
  Numeral.signed_injective (by decide) (fun d hd e he => strtab_inj d (by omega) e (by omega))
    fun d hd => strtab_ne_minus d (by omega)

/-- Every character is counted. -/
def Print.Told (s : Print) : Prop := s.num = int32 s.out.length

/-- More characters, all counted. -/
def Print.say (s : Print) (t : List UInt8) : Print :=
  { s with out := s.out ++ t, num := int32 (s.num + t.length) }

namespace Print

variable {s : Print}

theorem say_num (s : Print) (t : List UInt8) : (s.say t).num = int32 (s.num + t.length) := rfl

theorem say_out (s : Print) (t : List UInt8) : (s.say t).out = s.out ++ t := rfl

theorem Told.say (h : s.Told) (t : List UInt8) : (s.say t).Told := by
  unfold Told at h ⊢
  rw [say_num, say_out, h, int32_add, List.length_append, Nat.cast_add]

theorem say_say (s : Print) (t u : List UInt8) : (s.say t).say u = s.say (t ++ u) := by
  unfold say
  simp only [List.append_assoc, List.length_append, int32_add, Nat.cast_add, Int.add_assoc]

theorem Told.say_nil (h : s.Told) : s.say [] = s := by
  have hnum : int32 (s.num + ([] : List UInt8).length) = s.num := by
    rw [h, int32_add]
    rfl
  unfold Print.say
  rw [List.append_nil, hnum]

/-- What else a directive changes can be changed before its characters. -/
theorem say_pflags (s : Print) (t : List UInt8) (p : Int) :
    { s.say t with pflags := p } = ({ s with pflags := p } : Print).say t := rfl

end Print

/-- The digits come out most significant first; their number is handed on. -/
theorem unsignedRecursion_run (base : Nat) (hb : 1 < base) (val : Nat) (s : Print) :
    unsignedRecursion base hb val s =
      .ok (int32 (numeral base val).length) { s with out := s.out ++ numeral base val } := by
  induction val using Nat.strong_induction_on generalizing s with
  | _ val ih =>
    unfold unsignedRecursion
    by_cases h : val < base
    · have hone : numeral base val = [strtab val] := by
        rw [numeral, Numeral.unsigned, Numeral.digits_of_lt h]
        rfl
      have hcount : int32 (([strtab val].length : Nat) : Int) = 1 := show int32 1 = 1 by decide
      unfold emit
      rw [dif_pos h, hone, Nat.mod_eq_of_lt h, Act.modify_bind_apply, Act.pure_apply, hcount]
    · have hlt : val / base < val := Nat.div_lt_self (by omega) hb
      have hstep : numeral base val = numeral base (val / base) ++ [strtab (val % base)] := by
        unfold numeral Numeral.unsigned
        rw [Numeral.digits_step hb (by omega), List.map_append]
        rfl
      rw [dif_neg h, Act.bind_ok (ih (val / base) hlt s), hstep]
      unfold emit
      rw [Act.modify_bind_apply, Act.pure_apply, List.append_assoc]
      have hlen : ((numeral base (val / base) ++ [strtab (val % base)]).length : Int) =
          (numeral base (val / base)).length + 1 := by
        rw [List.length_append]
        rfl
      rw [hlen, Int.add_comm 1, int32_add]

section Runs

variable {s : Print}

theorem printUnsigned_run (base : Nat) (hb : 1 < base) (val : Nat) :
    printUnsigned base hb val s = .ok () (s.say (numeral base val)) := by
  rw [printUnsigned, Act.bind_ok (unsignedRecursion_run base hb val s)]
  show Res.ok () { s with out := _, num := int32 (s.num + int32 _) } = _
  rw [Int.add_comm, int32_add, Int.add_comm]
  rfl

/-- A character handed on and counted, before more. -/
theorem emit_count {x : Act Print Unit} (c : UInt8) :
    (do emit c; countChars 1; x : Act Print Unit) s = x (s.say [c]) := rfl

theorem printChars_run (t : List UInt8) (hs : s.Told) :
    printChars t s = .ok () (s.say t) := by
  induction t generalizing s with
  | nil =>
    rw [hs.say_nil]
    rfl
  | cons c cs ih =>
    rw [printChars, emit_count c, ih (hs.say [c]), Print.say_say]
    rfl

theorem printPlain_run (c : UInt8) : printPlain c s = .ok () (s.say [c]) := rfl

/-- What `case 'd'` writes. -/
def signedText (wrap : Int → Int) (val : Int) : List UInt8 :=
  if val < 0 then 0x2D :: numeral 10 (ulong (wrap (-val))) else numeral 10 (ulong val)

theorem printSigned_run (wrap : Int → Int) (val : Int) :
    printSigned wrap val s = .ok () (s.say (signedText wrap val)) := by
  unfold printSigned signedText
  by_cases h : val < 0
  · rw [if_pos h, if_pos h, emit_count, printUnsigned_run, Print.say_say]
    rfl
  · rw [if_neg h, if_neg h, printUnsigned_run]

end Runs

/-! ## Which integers come out right -/

theorem int64_bounds (x : Int) : -2 ^ 63 ≤ int64 x ∧ int64 x < 2 ^ 63 := by
  unfold int64
  have h1 := @Int.le_bmod x (2 ^ 64) (by decide)
  have h2 := @Int.bmod_lt x (2 ^ 64) (by decide)
  omega

theorem int64_of_bounds {x : Int} (h1 : -2 ^ 63 ≤ x) (h2 : x < 2 ^ 63) : int64 x = x := by
  unfold int64
  rw [Int.bmod_eq_of_le] <;> omega

theorem ulong_natAbs {v : Int} (h1 : 0 ≤ v) (h2 : v < 2 ^ 63) : ulong v = v.natAbs := by
  unfold ulong
  omega

/-- Every `long` comes out right: the smallest is its own negative, and its
conversion is its absolute value. -/
theorem signedText_long (v : Int) (h1 : -2 ^ 63 ≤ v) (h2 : v < 2 ^ 63) :
    signedText int64 v = decimal v := by
  unfold signedText decimal Numeral.signed
  by_cases hneg : v < 0
  · rw [if_pos hneg, if_pos hneg]
    by_cases hmin : v = -2 ^ 63
    · subst hmin
      rfl
    · rw [int64_of_bounds (by omega) (by omega), ulong_natAbs (by omega) (by omega), Int.natAbs_neg]
      rfl
  · rw [if_neg hneg, if_neg hneg, ulong_natAbs (by omega) h2]
    rfl

/-- Every `int` comes out right but the smallest: that is its own negative, and
its conversion keeps the sign. -/
theorem signedText_int (v : Int) (h1 : -2 ^ 31 ≤ v) (h2 : v < 2 ^ 31) :
    signedText int32 v = decimal v ↔ v ≠ -2 ^ 31 := by
  unfold signedText decimal Numeral.signed
  by_cases hneg : v < 0
  · rw [if_pos hneg, if_pos hneg]
    by_cases hmin : v = -2 ^ 31
    · subst hmin
      constructor
      · intro h
        have hnum : numeral 10 (ulong (int32 (- -2 ^ 31))) = numeral 10 (-2 ^ 31 : Int).natAbs :=
          (List.cons.inj h).2
        have := numeral_injective (by decide) (by decide) hnum
        exact absurd this (by decide)
      · intro h
        exact absurd rfl h
    · rw [int32_of_bounds (by omega) (by omega), ulong_natAbs (by omega) (by omega), Int.natAbs_neg]
      exact ⟨fun _ => hmin, fun _ => rfl⟩
  · rw [if_neg hneg, if_neg hneg, ulong_natAbs (by omega) (by omega)]
    exact ⟨fun _ => by omega, fun _ => rfl⟩

/-! ## What a format comes to -/

/-- What an integer directive writes when `lflags` is up, and when it is not. -/
def shownNumber (l : Bool) (conv : Conversion) (w : UInt64) : List UInt8 :=
  match conv with
  | .d => if l then signedText int64 (int64 w.toNat) else signedText int32 (int32 w.toNat)
  | .x => numeral 16 (if l then w.toNat else w.toNat % 2 ^ 32)
  | .o => numeral 8 (if l then w.toNat else w.toNat % 2 ^ 32)

namespace Piece

/-- `lflags` after a piece. -/
def lflags (p : Piece) (l : Int) : Int := if p.isLong then int32 (l + 1) else l

/-- What `print` writes for a piece, by whether `lflags` is up at its letter. -/
def shown (l : Bool) : Piece → List UInt8
  | plain c _ _ => [c]
  | number _ conv w => shownNumber l conv w
  | text s _ => s

end Piece

/-- The state after a piece. -/
def Print.past (s : Print) (p : Piece) (rest : List PrintArg) : Print :=
  { s with lflags := p.lflags s.lflags, args := rest }.say (p.shown (p.lflags s.lflags ≠ 0))

section Pieces

variable {s s' : Print} {rest : List PrintArg}

theorem printLoop_cons {c : UInt8} {cs : List UInt8} (h : printTurn c s = .ok () s') :
    printLoop (c :: cs) s = printLoop cs s' := Act.bind_ok h

theorem nextWord_ok {w : UInt64} (h : s.args = .word w :: rest) :
    nextWord s = .ok w { s with args := rest } := by
  rw [nextWord, h]

theorem nextStr_ok {t : List UInt8} (h : s.args = .str t :: rest) :
    nextStr s = .ok t { s with args := rest } := by
  rw [nextStr, h]

/-- A letter after a percent sign. -/
theorem printLetter_directive {c : UInt8} {x : Act Print Unit} (h : s.pflags ≠ 0) :
    printLetter c x s = x s := by
  rw [printLetter, Act.gets_bind_apply, if_neg h]

/-- Any character elsewhere. -/
theorem printTurn_plain {c : UInt8} (hc : c ≠ 0x25) (hp : s.pflags = 0) :
    printTurn c s = .ok () (s.say [c]) := by
  have hletter : ∀ x, printLetter c x s = .ok () (s.say [c]) := by
    intro x
    rw [printLetter, Act.gets_bind_apply, if_pos hp, printPlain_run c]
  unfold printTurn
  rw [if_neg hc]
  split
  · exact hletter _
  · split
    · exact hletter _
    · split
      · exact hletter _
      · split
        · exact hletter _
        · split
          · exact hletter _
          · exact printPlain_run c

theorem printD_run {w : UInt64} (h : s.args = .word w :: rest) : printD s =
    .ok () ({ s with pflags := 0, args := rest }.say (shownNumber (s.lflags ≠ 0) .d w)) := by
  unfold printD
  rw [Act.gets_bind_apply]
  by_cases hl : s.lflags = 0
  · rw [if_pos hl, Act.bind_ok (nextWord_ok h), Act.bind_ok (printSigned_run _ _)]
    simp only [hl, ne_eq, not_true, decide_false, Act.modify_apply, Print.say_pflags, shownNumber,
      Bool.false_eq_true, if_false]
  · rw [if_neg hl, Act.bind_ok (nextWord_ok h), Act.bind_ok (printSigned_run _ _)]
    simp only [hl, ne_eq, not_false_eq_true, decide_true, Act.modify_apply, Print.say_pflags,
      shownNumber, if_true]

theorem printBase_run {base : Nat} (hb : 1 < base) {w : UInt64}
    (h : s.args = .word w :: rest) : printBase base hb s =
      .ok () ({ s with pflags := 0, args := rest }.say
        (numeral base (if s.lflags ≠ 0 then w.toNat else w.toNat % 2 ^ 32))) := by
  unfold printBase
  rw [Act.gets_bind_apply]
  by_cases hl : s.lflags = 0
  · rw [if_pos hl, Act.bind_ok (nextWord_ok h), Act.bind_ok (printUnsigned_run _ _ _),
      if_neg (fun hne => hne hl)]
    rfl
  · rw [if_neg hl, Act.bind_ok (nextWord_ok h), Act.bind_ok (printUnsigned_run _ _ _),
      if_pos hl]
    rfl

theorem printS_run {t : List UInt8} (hs : s.Told) (h : s.args = .str t :: rest) :
    printS s = .ok () ({ s with pflags := 0, args := rest }.say t) := by
  have hs' : Print.Told { s with args := rest } := hs
  unfold printS
  rw [Act.bind_ok (nextStr_ok h), Act.bind_ok (printChars_run t hs')]
  rfl

/-- The letter of an integer directive, after a percent sign. -/
theorem printTurn_conversion (conv : Conversion) {w : UInt64} (hp : s.pflags ≠ 0)
    (h : s.args = .word w :: rest) : printTurn conv.letter s =
      .ok () ({ s with pflags := 0, args := rest }.say (shownNumber (s.lflags ≠ 0) conv w)) := by
  cases conv with
  | d =>
    show printLetter 0x64 printD s = _
    rw [printLetter_directive hp, printD_run h]
  | x =>
    show printLetter 0x78 (printBase 16 _) s = _
    rw [printLetter_directive hp, printBase_run _ h]
    simp only [shownNumber, decide_eq_true_eq]
  | o =>
    show printLetter 0x6F (printBase 8 _) s = _
    rw [printLetter_directive hp, printBase_run _ h]
    simp only [shownNumber, decide_eq_true_eq]

/-- STEP: a piece of the format. -/
theorem printLoop_piece (p : Piece) (fmt : List UInt8) (hp : s.pflags = 0) (hs : s.Told)
    (hargs : s.args = p.args ++ rest) :
    printLoop (p.format ++ fmt) s = printLoop fmt (s.past p rest) := by
  have hpercent : printTurn 0x25 s = .ok () { s with pflags := 1 } := by
    show Res.ok () { s with pflags := int32 (s.pflags + 1) } = _
    rw [hp]
    rfl
  have hback : ∀ l, ({ s with pflags := 0, lflags := l, args := rest } : Print) =
      { s with lflags := l, args := rest } := by
    intro l
    rw [← hp]
  cases p with
  | plain c hc _ =>
    show printLoop (c :: fmt) s = _
    rw [printLoop_cons (printTurn_plain hc hp)]
    have hrest : ({ s with args := rest } : Print) = s := by
      rw [← show s.args = rest from hargs]
    show _ = printLoop fmt ({ s with args := rest }.say [c])
    rw [hrest]
  | number long conv w =>
    cases long with
    | false =>
      show printLoop (0x25 :: conv.letter :: fmt) s = _
      rw [printLoop_cons hpercent, printLoop_cons
        (printTurn_conversion (s := { s with pflags := 1 }) conv Int.one_ne_zero hargs)]
      show printLoop fmt ({ s with pflags := 0, lflags := s.lflags, args := rest }.say _) = _
      rw [hback]
      rfl
    | true =>
      have hl : printTurn 0x6C { s with pflags := 1 } =
          .ok () { s with pflags := 1, lflags := int32 (s.lflags + 1) } := rfl
      show printLoop (0x25 :: 0x6C :: conv.letter :: fmt) s = _
      rw [printLoop_cons hpercent, printLoop_cons hl, printLoop_cons (printTurn_conversion
        (s := { s with pflags := 1, lflags := int32 (s.lflags + 1) }) conv Int.one_ne_zero hargs)]
      show printLoop fmt ({ s with
        pflags := 0, lflags := int32 (s.lflags + 1), args := rest }.say _) = _
      rw [hback]
      rfl
  | text t _ =>
    have hs1 : Print.Told { s with pflags := 1 } := hs
    have hturn : printTurn 0x73 { s with pflags := 1 } = printS { s with pflags := 1 } :=
      printLetter_directive (c := 0x73) (x := printS) (s := { s with pflags := 1 }) Int.one_ne_zero
    show printLoop (0x25 :: 0x73 :: fmt) s = _
    rw [printLoop_cons hpercent, printLoop_cons (hturn.trans (printS_run hs1 hargs))]
    show printLoop fmt ({ s with pflags := 0, lflags := s.lflags, args := rest }.say t) = _
    rw [hback]
    rfl

end Pieces

/-- What `print` writes for a format after `k` directives with `l`. -/
def shownOf : Nat → List Piece → List UInt8
  | _, [] => []
  | k, p :: ps =>
    let k := k + p.isLong.toNat
    p.shown (int32 k ≠ 0) ++ shownOf k ps

/-- RUN: a whole format. -/
theorem printLoop_run (ps : List Piece) {s : Print} {k : Nat} {rest : List PrintArg}
    (hp : s.pflags = 0) (hl : s.lflags = int32 k) (hs : s.Told)
    (hargs : s.args = argsOf ps ++ rest) :
    ∃ s', printLoop (formatOf ps) s = .ok () s' ∧ s'.out = s.out ++ shownOf k ps ∧ s'.Told ∧
      s'.args = rest := by
  induction ps generalizing s k with
  | nil => exact ⟨s, rfl, (List.append_nil s.out).symm, hs, hargs⟩
  | cons p ps ih =>
    have hflags : p.lflags s.lflags = int32 (k + p.isLong.toNat : Nat) := by
      unfold Piece.lflags
      cases p.isLong with
      | true => rw [if_pos rfl, hl, int32_add]; rfl
      | false => rw [if_neg (by decide), hl]; rfl
    have hstep := @printLoop_piece s (argsOf ps ++ rest) p (formatOf ps) hp hs (by
      rw [hargs, argsOf, List.flatMap_cons, List.append_assoc]
      rfl)
    have htold : (s.past p (argsOf ps ++ rest)).Told :=
      Print.Told.say (s := { s with lflags := p.lflags s.lflags, args := argsOf ps ++ rest }) hs _
    obtain ⟨s', hrun, hout, hs', hrest⟩ := ih (s := s.past p (argsOf ps ++ rest)) hp hflags htold rfl
    refine ⟨s', ?_, ?_, hs', hrest⟩
    · rw [formatOf, List.flatMap_cons]
      exact hstep.trans hrun
    · rw [hout]
      show s.out ++ p.shown (p.lflags s.lflags ≠ 0) ++ _ = _
      rw [hflags, List.append_assoc]
      rfl

/-- What `print` writes, and what it returns. -/
theorem print_run (ps : List Piece) : ∃ s', print (formatOf ps) (argsOf ps) =
    .ok (int32 (shownOf 0 ps).length) s' ∧ s'.out = shownOf 0 ps ∧ s'.args = [] := by
  have hzero : (0 : Int) = int32 (0 : Nat) := by decide
  obtain ⟨s', hrun, hout, htold, hrest⟩ := printLoop_run ps
    (s := { pflags := 0, lflags := 0, num := 0, args := argsOf ps, out := [] }) (k := 0)
    rfl hzero hzero (List.append_nil _).symm
  have hall : s'.out = shownOf 0 ps := hout
  refine ⟨s', ?_, hall, hrest⟩
  rw [print, Act.bind_ok hrun, Act.gets_apply, htold, hall]

/-! ## Each directive on its own -/

/-- The format comes to what it stands for: the characters written, the
arguments taken, and the number returned. -/
def Rendered (ps : List Piece) : Prop :=
  ∃ s', print (formatOf ps) (argsOf ps) = .ok (renderingOf ps).length s' ∧
    s'.out = renderingOf ps ∧ s'.args = []

/-- A directive without `l` whose slot reads alike at either width, once a
directive with `l` came before; and before that, no smallest `int` for `%d`. -/
def Piece.Alike (after : Bool) : Piece → Prop
  | number false .d w =>
    if after then int64 w.toNat = int32 w.toNat else int32 w.toNat ≠ -2 ^ 31
  | number false _ w => after = true → w.toNat < 2 ^ 32
  | _ => True

theorem int32_natCast (n : Nat) : int32 n = n ↔ n < 2 ^ 31 := by
  constructor
  · intro h
    have := int32_bounds n
    omega
  · intro h
    exact int32_of_bounds (by omega) (by omega)

theorem rendered_iff (ps : List Piece) :
    Rendered ps ↔ shownOf 0 ps = renderingOf ps ∧ (renderingOf ps).length < 2 ^ 31 := by
  obtain ⟨s', hrun, hout, hrest⟩ := print_run ps
  constructor
  · rintro ⟨t, hrun', hout', -⟩
    rw [hrun] at hrun'
    injection hrun' with hnum hst
    have heq : shownOf 0 ps = renderingOf ps := by
      rw [← hout, ← hout', hst]
    rw [heq] at hnum
    exact ⟨heq, (int32_natCast _).mp hnum⟩
  · rintro ⟨heq, hlt⟩
    refine ⟨s', ?_, by rw [hout, heq], hrest⟩
    rw [hrun, heq, (int32_natCast _).mpr hlt]

/-- An integer directive at the wrong width. -/
theorem shownNumber_iff (conv : Conversion) (w : UInt64) (l : Bool) :
    shownNumber l conv w = Piece.numberText false conv w ↔ (Piece.number false conv w).Alike l := by
  have hw : w.toNat < 2 ^ 64 := w.toNat_lt
  have hb64 := int64_bounds w.toNat
  have hb32 := int32_bounds w.toNat
  have hmod : w.toNat = w.toNat % 2 ^ 32 ↔ w.toNat < 2 ^ 32 := by omega
  cases conv with
  | d =>
    cases l with
    | false =>
      simp only [shownNumber, Piece.numberText, Piece.Alike, Bool.false_eq_true, if_false]
      exact signedText_int _ hb32.1 hb32.2
    | true =>
      simp only [shownNumber, Piece.numberText, Piece.Alike, Bool.false_eq_true, if_false, if_true]
      rw [signedText_long _ hb64.1 hb64.2]
      exact decimal_injective.eq_iff
  | x =>
    cases l with
    | false => simp [shownNumber, Piece.numberText, Piece.Alike]
    | true =>
      simp only [shownNumber, Piece.numberText, Piece.Alike, Bool.false_eq_true, if_false, if_true,
        forall_const]
      exact (numeral_injective (by decide) (by decide)).eq_iff.trans hmod
  | o =>
    cases l with
    | false => simp [shownNumber, Piece.numberText, Piece.Alike]
    | true =>
      simp only [shownNumber, Piece.numberText, Piece.Alike, Bool.false_eq_true, if_false, if_true,
        forall_const]
      exact (numeral_injective (by decide) (by decide)).eq_iff.trans hmod

/-- An integer directive with `l` is right. -/
theorem shownNumber_long (conv : Conversion) (w : UInt64) :
    shownNumber true conv w = Piece.numberText true conv w := by
  have hb := int64_bounds w.toNat
  cases conv with
  | d =>
    simp only [shownNumber, Piece.numberText, if_true]
    exact signedText_long _ hb.1 hb.2
  | x => rfl
  | o => rfl

/-- A piece, by whether a directive with `l` came before. -/
theorem shown_iff (p : Piece) (after : Bool) :
    p.shown (after || p.isLong) = p.rendering ↔ p.Alike after := by
  cases p with
  | plain c _ _ => exact ⟨fun _ => trivial, fun _ => rfl⟩
  | text t _ => exact ⟨fun _ => trivial, fun _ => rfl⟩
  | number long conv w =>
    cases long with
    | true =>
      rw [show Piece.isLong (.number true conv w) = true from rfl, Bool.or_true]
      refine ⟨fun _ => ?_, fun _ => shownNumber_long conv w⟩
      cases conv <;> trivial
    | false =>
      rw [show Piece.isLong (.number false conv w) = false from rfl, Bool.or_false]
      exact shownNumber_iff conv w after

/-- The directives with `l` in a format. -/
def longs (ps : List Piece) : Nat := ps.countP Piece.isLong

theorem shownOf_snoc (k : Nat) (ps : List Piece) (p : Piece) : shownOf k (ps ++ [p]) =
    shownOf k ps ++ p.shown (int32 (k + longs ps + p.isLong.toNat : Nat) ≠ 0) := by
  induction ps generalizing k with
  | nil => exact List.append_nil _
  | cons q qs ih =>
    have hk : k + q.isLong.toNat + longs qs = k + longs (q :: qs) := by
      unfold longs
      rw [List.countP_cons]
      cases q.isLong with
      | true => simp only [Bool.toNat_true, if_true]; omega
      | false => simp only [Bool.toNat_false, Bool.false_eq_true, if_false]; omega
    rw [List.cons_append, shownOf, ih, hk, shownOf, List.append_assoc]

theorem numeral_length (b n : Nat) : 1 ≤ (numeral b n).length := by
  rw [numeral, Numeral.unsigned, List.length_map]
  exact List.length_pos_iff.mpr (Numeral.digits_ne_nil b n)

theorem decimal_length (v : Int) : 1 ≤ (decimal v).length := by
  unfold decimal Numeral.signed
  split
  · exact Nat.le_add_left 1 _
  · exact numeral_length 10 _

/-- Every directive with `l` writes a character. -/
theorem longs_le (ps : List Piece) : longs ps ≤ (renderingOf ps).length := by
  have hnumber : ∀ long conv w, 1 ≤ (Piece.numberText long conv w).length := by
    intro long conv w
    cases conv with
    | d => exact decimal_length _
    | x => exact numeral_length 16 _
    | o => exact numeral_length 8 _
  have hpiece : ∀ p : Piece, p.isLong.toNat ≤ p.rendering.length := by
    intro p
    cases p with
    | plain c _ _ => exact Nat.zero_le _
    | text t _ => exact Nat.zero_le _
    | number long conv w => exact Nat.le_trans (Bool.toNat_le long) (hnumber long conv w)
  induction ps with
  | nil => exact Nat.le_refl 0
  | cons p ps ih =>
    have hcount : longs (p :: ps) = longs ps + p.isLong.toNat := by
      unfold longs
      rw [List.countP_cons]
      cases p.isLong <;> rfl
    have hlen : (renderingOf (p :: ps)).length = p.rendering.length + (renderingOf ps).length := by
      rw [renderingOf, List.flatMap_cons, List.length_append]
      rfl
    have := hpiece p
    omega

/-- STEP: a piece more comes out right exactly if it reads alike. -/
theorem shownOf_step {ps : List Piece} {p : Piece} (h : shownOf 0 ps = renderingOf ps)
    (hlt : (renderingOf (ps ++ [p])).length < 2 ^ 31) :
    shownOf 0 (ps ++ [p]) = renderingOf (ps ++ [p]) ↔ p.Alike (ps.any Piece.isLong) := by
  have hle := longs_le (ps ++ [p])
  have hcount : longs (ps ++ [p]) = 0 + longs ps + p.isLong.toNat := by
    unfold longs
    rw [List.countP_append, Nat.zero_add]
    cases hp : p.isLong with
    | true => rw [List.countP_singleton, hp]; rfl
    | false => rw [List.countP_singleton, hp]; rfl
  have hany : (0 < longs ps) ↔ ps.any Piece.isLong = true := by
    unfold longs
    rw [List.countP_pos_iff, List.any_eq_true]
  have hflag : decide (int32 (0 + longs ps + p.isLong.toNat : Nat) ≠ 0) =
      (ps.any Piece.isLong || p.isLong) := by
    rw [(int32_natCast _).mpr (by omega), Bool.eq_iff_iff, decide_eq_true_eq, Bool.or_eq_true,
      ← hany]
    cases p.isLong with
    | true => simp only [Bool.toNat_true, or_true, iff_true]; omega
    | false => simp only [Bool.toNat_false, Bool.false_eq_true, or_false]; omega
  have hsnoc : renderingOf (ps ++ [p]) = renderingOf ps ++ p.rendering := by
    rw [renderingOf, List.flatMap_append, List.flatMap_singleton]
    rfl
  rw [shownOf_snoc, h, hsnoc, List.append_right_inj, hflag]
  exact shown_iff p _

/-- A format and all its initial parts come to what they stand for exactly if
fewer than `2 ^ 31` characters come out and every directive reads alike with
those before it. -/
theorem print_directives_iff (ps : List Piece) : (∀ qs bs, ps = qs ++ bs → Rendered qs) ↔
    (renderingOf ps).length < 2 ^ 31 ∧
      ∀ qs p bs, ps = qs ++ p :: bs → p.Alike (qs.any Piece.isLong) := by
  constructor
  · intro h
    have hall := (rendered_iff ps).mp (h ps [] (List.append_nil ps).symm)
    refine ⟨hall.2, fun qs p bs heq => ?_⟩
    obtain ⟨hshown, hlt⟩ := (rendered_iff _).mp (h (qs ++ [p]) bs (by rw [heq]; simp))
    exact (shownOf_step ((rendered_iff qs).mp (h qs (p :: bs) heq)).1 hlt).mp hshown
  · rintro ⟨hlt, halike⟩
    have hlen : ∀ qs bs, ps = qs ++ bs → (renderingOf qs).length < 2 ^ 31 := by
      intro qs bs heq
      rw [heq, renderingOf, List.flatMap_append, List.length_append] at hlt
      exact Nat.lt_of_le_of_lt (Nat.le_add_right _ _) hlt
    intro qs
    -- the initial parts, shortest first
    induction qs using List.reverseRecOn with
    | nil =>
      intro bs heq
      exact (rendered_iff []).mpr ⟨rfl, hlen [] bs heq⟩
    | append_singleton qs p ih =>
      intro bs heq
      have heq' : ps = qs ++ p :: bs := by
        rw [heq, List.append_assoc]
        rfl
      have hshown := ((rendered_iff qs).mp (ih (p :: bs) heq')).1
      have hlt' := hlen _ bs heq
      exact (rendered_iff _).mpr ⟨(shownOf_step hshown hlt').mpr (halike qs p bs heq'), hlt'⟩

/-- `%ld%d`: the second directive reads a `long`, and `-1` passed in the low half
of its slot is 4294967295. -/
theorem print_stale_flag : ¬ ∀ ps : List Piece, Rendered ps := by
  intro h
  let ps : List Piece := [.number true .d 0]
  have hone := (rendered_iff ps).mp (h ps)
  have htwo := (rendered_iff (ps ++ [.number false .d 0xFFFFFFFF])).mp (h _)
  have halike := (shownOf_step hone.1 htwo.2).mp htwo.1
  exact absurd halike (show ¬ int64 0xFFFFFFFF = int32 0xFFFFFFFF by decide)

/-! ## Signed numbers -/

/-- The numeral of a `long` has at most 20 characters. -/
theorem decimal_length_le {v : Int} (h1 : -2 ^ 63 ≤ v) (h2 : v < 2 ^ 63) :
    (decimal v).length ≤ 20 := by
  have hnum : (numeral 10 v.natAbs).length ≤ 19 := by
    rw [numeral, Numeral.unsigned, List.length_map, Numeral.digits]
    split
    · decide
    · rw [List.length_reverse]
      exact (Nat.digits_length_le_iff (by decide) _).mpr (by omega)
  unfold decimal Numeral.signed
  split
  · rw [List.length_cons]
    exact Nat.succ_le_succ hnum
  · exact Nat.le_succ_of_le hnum

/-- The value in a slot, of a `long` or of an `int`. -/
def slotValue (long : Bool) (w : UInt64) : Int := if long then int64 w.toNat else int32 w.toNat

theorem renderingOf_signed (long : Bool) (w : UInt64) :
    renderingOf [.number long .d w] = decimal (slotValue long w) := by
  simp only [renderingOf, List.flatMap_singleton, Piece.rendering, Piece.numberText, slotValue]

/-- `%ld` writes the numeral of every `long`, and `%d` that of every `int` but
the smallest. -/
theorem print_signed_iff (long : Bool) (w : UInt64) :
    (∃ s', print (if long then [0x25, 0x6C, 0x64] else [0x25, 0x64]) [.word w] =
        .ok (decimal (slotValue long w)).length s' ∧
      s'.out = decimal (slotValue long w) ∧ s'.args = []) ↔
    (long = false → slotValue long w ≠ -2 ^ 31) := by
  have hlt : (renderingOf [.number long .d w]).length < 2 ^ 31 := by
    have hb := int64_bounds w.toNat
    have hb' := int32_bounds w.toNat
    have hle : (decimal (slotValue long w)).length ≤ 20 := by
      unfold slotValue
      split
      · exact decimal_length_le hb.1 hb.2
      · exact decimal_length_le (by omega) (by omega)
    rw [renderingOf_signed]
    omega
  have hstep := @shownOf_step [] (.number long .d w) rfl hlt
  rw [List.nil_append] at hstep
  have hall := (rendered_iff [.number long .d w]).trans ((and_iff_left hlt).trans hstep)
  unfold Rendered at hall
  rw [renderingOf_signed] at hall
  cases long with
  | true =>
    refine hall.trans ⟨fun _ h => ?_, fun _ => trivial⟩
    cases h
  | false =>
    refine hall.trans ?_
    simp only [Piece.Alike, List.any_nil, Bool.false_eq_true, if_false, slotValue, forall_const]

/-- `%d` of the smallest `int`. -/
theorem print_smallest : ¬ ∀ (long : Bool) (w : UInt64),
    ∃ s', print (if long then [0x25, 0x6C, 0x64] else [0x25, 0x64]) [.word w] =
        .ok (decimal (slotValue long w)).length s' ∧
      s'.out = decimal (slotValue long w) ∧ s'.args = [] := by
  intro h
  have hrendered : Rendered [.number false .d 0x80000000] := by
    unfold Rendered
    rw [renderingOf_signed]
    exact h false 0x80000000
  obtain ⟨hshown, hlt⟩ := (rendered_iff _).mp hrendered
  have halike := (@shownOf_step [] (.number false .d 0x80000000) rfl hlt).mp hshown
  simp only [Piece.Alike, List.any_nil, Bool.false_eq_true, if_false] at halike
  exact halike (by decide)

end Myos.Kernel
