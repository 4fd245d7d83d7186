import Myos.Lib.Mem

/-!
# Stacks of words

A stack of 64-bit words that grows downwards in a byte memory. What was pushed is found
from the top up, the last word first (`Stack.words_pushes`), and nothing else was stored
to (`Stack.pushes_mem`).
-/

namespace Myos.Lib

/-- The memory and the address of the top. -/
structure Stack where
  mem : Mem
  sp : Nat

namespace Stack

/-- A word on top. -/
def push (s : Stack) (v : Nat) : Stack := ⟨s.mem.wr 8 (s.sp - 8) v, s.sp - 8⟩

/-- The words of `vs`, the first one first. -/
def pushes (s : Stack) (vs : List Nat) : Stack := vs.foldl push s

/-- The `n` words from `a` up. -/
def words (m : Mem) : Nat → Nat → List Nat
  | 0, _ => []
  | n + 1, a => m.rd 8 a :: words m n (a + 8)

variable {s : Stack} {v : Nat} {vs : List Nat}

theorem words_congr {m m' : Mem} {n a : Nat} (h : ∀ x, a ≤ x → x < a + 8 * n → m' x = m x) :
    words m' n a = words m n a := by
  induction n generalizing a with
  | zero => rfl
  | succ n ih =>
    rw [words, words, Mem.rd_congr fun x h₁ h₂ => h x h₁ (by omega),
      ih fun x h₁ h₂ => h x (by omega) (by omega)]

theorem pushes_append (s : Stack) (vs ws : List Nat) :
    s.pushes (vs ++ ws) = (s.pushes vs).pushes ws := List.foldl_append

theorem pushes_sp (s : Stack) (vs : List Nat) : (s.pushes vs).sp = s.sp - 8 * vs.length := by
  induction vs generalizing s with
  | nil => rfl
  | cons v vs ih =>
    show ((s.push v).pushes vs).sp = _
    rw [ih, List.length_cons]
    show s.sp - 8 - 8 * vs.length = _
    omega

/-- Only the words of the stack were stored to. -/
theorem pushes_mem {x : Nat} (hfit : 8 * vs.length ≤ s.sp) (h : x < (s.pushes vs).sp ∨ s.sp ≤ x) :
    (s.pushes vs).mem x = s.mem x := by
  rw [pushes_sp] at h
  induction vs generalizing s with
  | nil => rfl
  | cons v vs ih =>
    rw [List.length_cons] at hfit h
    have hsp : (s.push v).sp = s.sp - 8 := rfl
    show ((s.push v).pushes vs).mem x = _
    rw [ih (by omega) (by omega)]
    exact Mem.wr_out (by omega)

/-- THE TOP: the words that were pushed, the last one first, and then what was there. -/
theorem words_pushes (k : Nat) (hfit : 8 * vs.length ≤ s.sp) (hv : ∀ v ∈ vs, v < 2 ^ 64) :
    words (s.pushes vs).mem (vs.length + k) (s.pushes vs).sp =
      vs.reverse ++ words s.mem k s.sp := by
  induction vs generalizing s k with
  | nil =>
    show words s.mem (0 + k) s.sp = _
    rw [Nat.zero_add, List.reverse_nil, List.nil_append]
  | cons v vs ih =>
    rw [List.length_cons] at hfit
    have hsp : (s.push v).sp + 8 = s.sp := by
      show s.sp - 8 + 8 = s.sp
      omega
    have hrest := ih (s := s.push v) (k + 1) (by omega) fun w hw => hv w (List.mem_cons_of_mem v hw)
    have hword : (s.push v).mem.rd 8 (s.push v).sp = v := by
      show Mem.rd 8 (Mem.wr 8 s.mem (s.sp - 8) v) (s.sp - 8) = v
      rw [Mem.rd_wr_same]
      exact Nat.mod_eq_of_lt (hv v List.mem_cons_self)
    have habove : words (s.push v).mem k ((s.push v).sp + 8) = words s.mem k s.sp := by
      rw [hsp]
      exact words_congr fun x h₁ _ => Mem.wr_out (by omega)
    rw [List.length_cons, Nat.add_assoc, Nat.add_comm 1 k]
    show words ((s.push v).pushes vs).mem _ ((s.push v).pushes vs).sp = _
    rw [hrest, words, hword, habove, List.reverse_cons, List.append_assoc]
    rfl

end Stack

end Myos.Lib
