import Mathlib.Logic.Function.Basic
import Mathlib.Order.Defs.LinearOrder
import Mathlib.Tactic.Cases

/-!
# The console

`init_vga`, `cls` and `myputchar` of `kernel/console.c`, against a terminal
that never scrolls: its rows go on for ever, and the screen shows the last 24
of them. Video memory is the bytes at offsets from `VIDEO`; an offset may be
any integer, so that a store outside the screen would be one.
-/

namespace Myos.Kernel

def columns : Nat := 80
def lines : Nat := 24
def conSize : Nat := columns * lines
def charAttribute : UInt8 := 7

/-- The static variables: the bytes from `VIDEO` on, and the cursor. -/
structure Console where
  vram : Int → UInt8
  xpos : Int
  ypos : Int

/-- `memcpy` within video memory, byte by byte from the low end. -/
def vramCopy (v : Int → UInt8) (dest src : Int) : Nat → Int → UInt8
  | 0 => v
  | n + 1 => vramCopy (Function.update v dest (v src)) (dest + 1) (src + 1) n

/-- `for (i = lo; …; i++) *(video + i) = 0`, for `n` turns. -/
def vramClear (v : Int → UInt8) (i : Int) : Nat → Int → UInt8
  | 0 => v
  | n + 1 => vramClear (Function.update v i 0) (i + 1) n

/-- The loop of `init_vga`. -/
def clearScreen (v : Int → UInt8) : Int → UInt8 := vramClear v 0 (columns * lines * 2)

/-- `init_vga`; `cls` has the same body. -/
def initVga (s : Console) : Console := { vram := clearScreen s.vram, xpos := 0, ypos := 0 }

/-- The screen moved up by a row: the `memcpy` and the loop of `myputchar`. -/
def scroll (v : Int → UInt8) : Int → UInt8 :=
  vramClear (vramCopy v 0 (columns * 2) ((conSize - columns) * 2)) ((conSize - columns) * 2 : Nat)
    (columns * 2)

/-- `myputchar` from the label `newline` on. -/
def newline (s : Console) : Console :=
  let s := { s with xpos := 0, ypos := s.ypos + 1 }
  if (lines : Int) ≤ s.ypos then { vram := scroll s.vram, xpos := 0, ypos := s.ypos - 1 } else s

/-- A character and its attribute are stored at the cursor, which moves on. -/
def Console.store (s : Console) (ch : UInt8) : Console :=
  let at_ := (s.xpos + s.ypos * columns) * 2
  { s with
    vram := Function.update (Function.update s.vram at_ ch) (at_ + 1) charAttribute
    xpos := s.xpos + 1 }

/-- `myputchar`. -/
def myputchar (s : Console) (c : Int) : Console :=
  if c = 10 ∨ c = 13 then newline s
  else
    let s := s.store (UInt8.ofNat (c % 256).toNat)
    if (columns : Int) ≤ s.xpos then newline s else s

/-! ## The terminal -/

/-- Rows without end, and the place of the next character. -/
structure Terminal where
  cell : Nat → Nat → Option UInt8
  row : Nat
  col : Nat

def Terminal.blank : Terminal := ⟨fun _ _ => none, 0, 0⟩

def Terminal.nextRow (t : Terminal) : Terminal := { t with row := t.row + 1, col := 0 }

/-- A character in the next place of the row. -/
def Terminal.lay (t : Terminal) (ch : UInt8) : Terminal :=
  { t with
    cell := Function.update t.cell t.row (Function.update (t.cell t.row) t.col (some ch))
    col := t.col + 1 }

/-- A character is laid out; the 80th of a row ends it. -/
def Terminal.put (t : Terminal) (c : Int) : Terminal :=
  if c = 10 ∨ c = 13 then t.nextRow
  else
    let t := t.lay (UInt8.ofNat (c % 256).toNat)
    if t.col = columns then t.nextRow else t

/-- The first row the screen shows. -/
def Terminal.top (t : Terminal) : Nat := t.row - (lines - 1)

/-- The two bytes of a cell. -/
def cellByte (odd : Bool) : Option UInt8 → UInt8
  | none => 0
  | some c => if odd then charAttribute else c

/-- What the screen has at an offset. -/
def Terminal.byte (t : Terminal) (o : Nat) : UInt8 :=
  cellByte (o % 2 = 1) (t.cell (t.top + o / (columns * 2)) (o / 2 % columns))

/-! ## The two loops -/

section Loops

variable {v : Int → UInt8} {dest src i o : Int} {n : Nat}

/-- The copy goes to lower addresses, so it reads each byte before it is overwritten. -/
theorem vramCopy_apply (h : dest < src) : vramCopy v dest src n o =
    if dest ≤ o ∧ o < dest + n then v (o + (src - dest)) else v o := by
  induction n generalizing v dest src with
  | zero =>
    rw [if_neg (by omega)]
    rfl
  | succ n ih =>
    rw [vramCopy, ih (by omega)]
    by_cases ho : o = dest
    · subst ho
      rw [if_neg (by omega), if_pos (by omega), Function.update_self]
      congr 1
      omega
    · by_cases hin : dest + 1 ≤ o ∧ o < dest + 1 + n
      · rw [if_pos hin, if_pos (by omega), Function.update_of_ne (by omega)]
        congr 1
        omega
      · rw [if_neg hin, if_neg (by omega), Function.update_of_ne ho]

theorem vramClear_apply : vramClear v i n o = if i ≤ o ∧ o < i + n then 0 else v o := by
  induction n generalizing v i with
  | zero =>
    rw [if_neg (by omega)]
    rfl
  | succ n ih =>
    rw [vramClear, ih]
    by_cases ho : o = i
    · subst ho
      rw [if_neg (by omega), if_pos (by omega), Function.update_self]
    · by_cases hin : i + 1 ≤ o ∧ o < i + 1 + n
      · rw [if_pos hin, if_pos (by omega)]
      · rw [if_neg hin, if_neg (by omega), Function.update_of_ne ho]

end Loops

theorem scroll_apply (v : Int → UInt8) (o : Int) : scroll v o =
    if 0 ≤ o ∧ o < 3680 then v (o + 160) else if 3680 ≤ o ∧ o < 3840 then 0 else v o := by
  unfold scroll conSize columns lines
  rw [vramClear_apply, vramCopy_apply (by decide)]
  by_cases h1 : 0 ≤ o ∧ o < 3680
  · rw [if_neg (by omega), if_pos (by omega), if_pos h1]
    congr 1
  · by_cases h2 : 3680 ≤ o ∧ o < 3840
    · rw [if_pos (by omega), if_neg h1, if_pos h2]
    · rw [if_neg (by omega), if_neg (by omega), if_neg h1, if_neg h2]

theorem clearScreen_apply (v : Int → UInt8) (o : Int) : clearScreen v o =
    if 0 ≤ o ∧ o < 3840 then 0 else v o := by
  unfold clearScreen columns lines
  rw [vramClear_apply]
  by_cases h : 0 ≤ o ∧ o < 3840
  · rw [if_pos (by omega), if_pos h]
  · rw [if_neg (by omega), if_neg h]

/-! ## The screen shows the terminal -/

/-- The bytes outside the screen are those of `v`, the cursor is where the
terminal's is, and the screen shows its last rows; what lies ahead of the
terminal's cursor is blank. -/
structure Shows (v : Int → UInt8) (s : Console) (t : Terminal) : Prop where
  outside : ∀ o : Int, o < 0 ∨ (conSize * 2 : Nat) ≤ o → s.vram o = v o
  xpos : s.xpos = t.col
  ypos : s.ypos = (t.row - t.top : Nat)
  col : t.col < columns
  screen : ∀ o : Nat, o < conSize * 2 → s.vram o = t.byte o
  ahead : ∀ r x, t.row < r ∨ r = t.row ∧ t.col ≤ x → t.cell r x = none

section Shows

variable {v : Int → UInt8} {s : Console} {t : Terminal}

theorem conSize_eq : conSize * 2 = 3840 := rfl

theorem Terminal.row_sub_top (t : Terminal) : t.row - t.top < 24 ∧ t.top ≤ t.row := by
  unfold Terminal.top lines
  omega

/-- The next row moves the screen from the last row on. -/
theorem Terminal.top_nextRow (t : Terminal) :
    t.nextRow.top = if t.row - t.top = 23 then t.top + 1 else t.top := by
  unfold Terminal.nextRow Terminal.top lines
  dsimp only
  split <;> omega

/-- A new row, and the screen moves up if it was on the last one. -/
theorem newline_shows (outside : ∀ o : Int, o < 0 ∨ (conSize * 2 : Nat) ≤ o → s.vram o = v o)
    (ypos : s.ypos = (t.row - t.top : Nat))
    (screen : ∀ o : Nat, o < conSize * 2 → s.vram o = t.byte o)
    (ahead : ∀ r x, t.row < r → t.cell r x = none) : Shows v (newline s) t.nextRow := by
  have hrow : t.nextRow.row = t.row + 1 := rfl
  have hcell : t.nextRow.cell = t.cell := rfl
  have hahead : ∀ r x, t.nextRow.row < r ∨ r = t.nextRow.row ∧ t.nextRow.col ≤ x →
      t.nextRow.cell r x = none := by
    intro r x hr
    rw [hrow] at hr
    exact ahead r x (by omega)
  have htop := t.top_nextRow
  have hin := t.row_sub_top
  have hcol : t.nextRow.col < columns := by
    show 0 < columns
    decide
  rw [conSize_eq] at outside screen
  unfold newline
  dsimp only
  by_cases hlast : (lines : Int) ≤ s.ypos + 1
  · -- the screen was full: everything moves up by a row
    have hfull : t.row - t.top = 23 := by
      unfold lines at hlast
      omega
    rw [if_pos hfull] at htop
    rw [if_pos hlast]
    refine ⟨fun o ho => ?_, rfl, ?_, hcol, fun o ho => ?_, hahead⟩
    · rw [conSize_eq] at ho
      dsimp only
      rw [scroll_apply, if_neg (by omega), if_neg (by omega)]
      exact outside o ho
    · dsimp only
      rw [ypos, htop, hrow]
      omega
    · rw [conSize_eq] at ho
      dsimp only
      rw [scroll_apply, Terminal.byte, hcell, htop]
      unfold columns
      by_cases h1 : o < 3680
      · rw [if_pos (by omega), show (o : Int) + 160 = ((o + 160 : Nat) : Int) by omega,
          screen (o + 160) (by omega), Terminal.byte]
        unfold columns
        rw [show (o + 160) % 2 = o % 2 by omega, show (o + 160) / (80 * 2) = o / (80 * 2) + 1 by omega,
          show (o + 160) / 2 % 80 = o / 2 % 80 by omega,
          show t.top + (o / (80 * 2) + 1) = t.top + 1 + o / (80 * 2) by omega]
      · rw [if_neg (by omega), if_pos (by omega), ahead _ _ (by omega)]
        rfl
  · have hroom : ¬ t.row - t.top = 23 := by
      unfold lines at hlast
      omega
    rw [if_neg hroom] at htop
    rw [if_neg hlast]
    refine ⟨outside, rfl, ?_, hcol, fun o ho => ?_, hahead⟩
    · dsimp only
      rw [ypos, htop, hrow]
      omega
    · dsimp only
      rw [screen o ho, Terminal.byte, Terminal.byte, hcell, htop]

/-- A character stored is the character laid out. -/
theorem Shows.store (h : Shows v s t) (ch : UInt8) :
    (∀ o : Int, o < 0 ∨ (conSize * 2 : Nat) ≤ o → (s.store ch).vram o = v o) ∧
    (s.store ch).xpos = ((t.lay ch).col : Nat) ∧
    (s.store ch).ypos = ((t.lay ch).row - (t.lay ch).top : Nat) ∧
    (∀ o : Nat, o < conSize * 2 → (s.store ch).vram o = (t.lay ch).byte o) ∧
    ∀ r x, (t.lay ch).row < r ∨ r = (t.lay ch).row ∧ (t.lay ch).col ≤ x →
      (t.lay ch).cell r x = none := by
  have hin := t.row_sub_top
  have hcol : t.col < 80 := h.col
  -- the offset of the cell
  obtain ⟨k, hk⟩ : ∃ k : Nat, k = (t.col + (t.row - t.top) * 80) * 2 := ⟨_, rfl⟩
  have hat : (s.xpos + s.ypos * columns) * 2 = (k : Int) := by
    rw [h.xpos, h.ypos, hk]
    rfl
  have hvram : (s.store ch).vram =
      Function.update (Function.update s.vram k ch) (k + 1) charAttribute := by
    unfold Console.store
    dsimp only
    rw [hat]
  have htop : (t.lay ch).top = t.top := rfl
  have hcell : ∀ r x, (t.lay ch).cell r x =
      if r = t.row ∧ x = t.col then some ch else t.cell r x := by
    intro r x
    unfold Terminal.lay
    dsimp only
    by_cases hr : r = t.row
    · subst hr
      rw [Function.update_self]
      by_cases hx : x = t.col
      · rw [hx, Function.update_self, if_pos ⟨rfl, rfl⟩]
      · rw [Function.update_of_ne hx, if_neg fun hrx => hx hrx.2]
    · rw [Function.update_of_ne hr, if_neg fun hrx => hr hrx.1]
  refine ⟨fun o ho => ?_, ?_, h.ypos, fun o ho => ?_, fun r x hrx => ?_⟩
  · rw [hvram, ← h.outside o ho]
    rw [conSize_eq] at ho
    rw [Function.update_of_ne (by omega), Function.update_of_ne (by omega)]
  · show s.xpos + 1 = ((t.col + 1 : Nat) : Int)
    rw [h.xpos]
    rfl
  · have hold := h.screen o ho
    rw [conSize_eq] at ho
    rw [hvram, Terminal.byte, htop, hcell]
    unfold columns
    by_cases hin : o = k ∨ o = k + 1
    · rw [if_pos (by omega)]
      rcases hin with rfl | rfl
      · rw [Function.update_of_ne (by omega), Function.update_self, cellByte,
          if_neg (by rw [decide_eq_true_eq]; omega)]
      · rw [show ((k + 1 : Nat) : Int) = (k : Int) + 1 from rfl, Function.update_self, cellByte,
          if_pos (by rw [decide_eq_true_eq]; omega)]
    · rw [if_neg (by omega), Function.update_of_ne (by omega), Function.update_of_ne (by omega),
        hold]
      rfl
  · have hrow : (t.lay ch).row = t.row := rfl
    have hcol : (t.lay ch).col = t.col + 1 := rfl
    rw [hrow, hcol] at hrx
    rw [hcell, if_neg (by omega)]
    exact h.ahead r x (by omega)

/-- STEP: a character goes to the screen as it goes to the terminal. -/
theorem Shows.put (h : Shows v s t) (c : Int) : Shows v (myputchar s c) (t.put c) := by
  unfold myputchar Terminal.put
  by_cases hc : c = 10 ∨ c = 13
  · rw [if_pos hc, if_pos hc]
    exact newline_shows h.outside h.ypos h.screen fun r x hr => h.ahead r x (.inl hr)
  rw [if_neg hc, if_neg hc]
  dsimp only
  obtain ⟨houtside, hx, hy, hscreen, hahead⟩ := h.store (UInt8.ofNat (c % 256).toNat)
  have hcol : (t.lay (UInt8.ofNat (c % 256).toNat)).col ≤ columns := h.col
  rw [hx]
  by_cases hend : (t.lay (UInt8.ofNat (c % 256).toNat)).col = columns
  · rw [if_pos (by omega), if_pos hend]
    exact newline_shows houtside hy hscreen fun r x hr => hahead r x (.inl hr)
  · rw [if_neg (by omega), if_neg hend]
    exact ⟨houtside, hx, hy, by omega, hscreen, hahead⟩

/-- The cleared screen shows the blank terminal. -/
theorem initVga_shows (s : Console) : Shows s.vram (initVga s) Terminal.blank := by
  have hvram : (initVga s).vram = clearScreen s.vram := by simp only [initVga]
  refine ⟨fun o ho => ?_, rfl, rfl, by decide, fun o ho => ?_, fun _ _ _ => rfl⟩
  · rw [conSize_eq] at ho
    rw [hvram, clearScreen_apply, if_neg (by omega)]
  · rw [conSize_eq] at ho
    rw [hvram, clearScreen_apply, if_pos (by omega)]
    rfl

end Shows

/-- CONSOLE: whatever is printed on a cleared screen, no byte outside it is
written, the cursor stays on it, and it shows the last 24 rows of the terminal. -/
theorem console_refines (s : Console) (cs : List Int) :
    (∀ o : Int, o < 0 ∨ (conSize * 2 : Nat) ≤ o →
      (cs.foldl myputchar (initVga s)).vram o = s.vram o) ∧
    (0 ≤ (cs.foldl myputchar (initVga s)).xpos ∧ (cs.foldl myputchar (initVga s)).xpos < columns) ∧
    (0 ≤ (cs.foldl myputchar (initVga s)).ypos ∧ (cs.foldl myputchar (initVga s)).ypos < lines) ∧
    ∀ o : Nat, o < conSize * 2 → (cs.foldl myputchar (initVga s)).vram o =
      (cs.foldl Terminal.put .blank).byte o := by
  have hrun : ∀ (cs : List Int) (s' : Console) (t : Terminal), Shows s.vram s' t →
      Shows s.vram (cs.foldl myputchar s') (cs.foldl Terminal.put t) := by
    intro cs
    induction cs with
    | nil => exact fun _ _ h => h
    | cons c cs ih => exact fun _ _ h => ih _ _ (h.put c)
  have h := hrun cs _ _ (initVga_shows s)
  have hlines := (cs.foldl Terminal.put .blank).row_sub_top.1
  have hcol := h.col
  refine ⟨h.outside, ?_, ?_, h.screen⟩
  · rw [h.xpos]
    omega
  · rw [h.ypos]
    unfold lines
    omega

end Myos.Kernel
