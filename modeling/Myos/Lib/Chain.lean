import Mathlib.Logic.Function.Basic
import Mathlib.Data.List.Nodup

/-!
# Intrusive singly linked lists

A list threaded through its members: a head, and for each member the member
after it. `Chain next h l` says that following `next` from the head `h`
visits exactly `l` and then ends. It says at once that the list is finite;
that it is free of repetitions follows (`Chain.nodup`), because the way on
from a member is a function of the member.
-/

namespace Myos.Lib

variable {α : Type*}

/-- Following `next` from the head visits exactly this list, and ends. -/
inductive Chain (next : α → Option α) : Option α → List α → Prop
  | nil : Chain next none []
  | cons {a : α} {l : List α} : Chain next (next a) l → Chain next (some a) (a :: l)

namespace Chain

variable {next next' : α → Option α} {h : Option α} {a : α} {l l' : List α}

/-- A head is followed in one way only. -/
theorem unique (c : Chain next h l) (c' : Chain next h l') : l = l' := by
  induction c generalizing l' with
  | nil => cases c'; rfl
  | cons _ ih =>
    cases c' with
    | cons c' => rw [ih c']

/-- The members from any member on are a chain of their own. -/
theorem drop {l₁ l₂ : List α} (c : Chain next h (l₁ ++ a :: l₂)) :
    Chain next (some a) (a :: l₂) := by
  induction l₁ generalizing h with
  | nil =>
    cases c with
    | cons c => exact .cons c
  | cons b l₁ ih =>
    cases c with
    | cons c => exact ih c

/-- A finite chain repeats no member: what follows a member is determined,
and no list is its own proper tail. -/
theorem nodup (c : Chain next h l) : l.Nodup := by
  induction c with
  | nil => exact List.nodup_nil
  | @cons a l c ih =>
    refine List.nodup_cons.mpr ⟨fun hmem => ?_, ih⟩
    obtain ⟨l₁, l₂, rfl⟩ := List.append_of_mem hmem
    have htail := (Chain.cons c : Chain next (some a) _).unique c.drop
    have hlen := congrArg List.length htail
    simp only [List.length_cons, List.length_append] at hlen
    omega

/-- Only the members' own links matter. -/
theorem congr (c : Chain next h l) (hn : ∀ b ∈ l, next' b = next b) : Chain next' h l := by
  induction c with
  | nil => exact .nil
  | @cons a l c ih =>
    have ha : next' a = next a := hn a List.mem_cons_self
    have hrest := ih fun b hb => hn b (List.mem_cons_of_mem _ hb)
    exact .cons (by rw [ha]; exact hrest)

/-- An ended head has no members. -/
theorem of_none (c : Chain next none l) : l = [] := by
  cases c; rfl

/-- A head names the first member, and its link heads the rest. -/
theorem of_some (c : Chain next (some a) l) : ∃ l', l = a :: l' ∧ Chain next (next a) l' := by
  cases c with
  | cons c => exact ⟨_, rfl, c⟩

/-- The first member is the head, and its link heads the rest. -/
theorem of_cons (c : Chain next h (a :: l)) : h = some a ∧ Chain next (next a) l := by
  cases c with
  | cons c => exact ⟨rfl, c⟩

/-- Push: a stranger linked to the head heads the list with it in front. -/
theorem push [DecidableEq α] (c : Chain next h l) (ha : a ∉ l) :
    Chain (Function.update next a h) (some a) (a :: l) := by
  refine .cons ?_
  rw [Function.update_self]
  refine c.congr fun b hb => ?_
  rw [Function.update_of_ne]
  rintro rfl
  exact ha hb

end Chain

end Myos.Lib
