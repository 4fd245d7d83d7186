import Mathlib.Logic.Basic
import Mathlib.Tactic.Cases

/-!
# Actions — straight-line imperative code over a state

An action runs from a state and either hands on a value with the state it
left behind, or stops in a state. Stopping is not an error value the code
could look at: it is the place where the machine does not carry on (an
access through a pointer nothing is mapped at), and the state it stopped in
is kept, because what had been stored before is still stored.

Everything here is generic: a state type, a value type, and the rules by
which a property of one action is had from the properties of its parts.

- `bind_ok`, `bind_fault`, `bind_eq_ok` run a sequence one step at a time.
- `Within r x` says that `x` moves every state to an `r`-related one,
  wherever it ends. For a preorder it composes (`Within.bind`), so a frame
  fact about a long function is had from the primitives it is written with.
- `zoom` runs an action of a part of the state on the whole.
- `Lifts h x' x` says that `x'` on a larger state does what `x` does on the part
  that `h` takes; `Ignores h x` that `x` does not look at what `h` changes.
- `Raises` is the relation of a flag that stays up: what ends with it down
  had it down all along (`Raises.of_bind`).
- `Refines x y` says that `y` hands on what `x` does where `x` hands on anything, as
  a loop with more turns to go does.
-/

namespace Myos.Lib

universe u v

/-- What running an action ends in: a value and a state, or the state in
which it stopped. -/
inductive Res (σ : Type u) (α : Type v) where
  | ok (a : α) (s : σ)
  | fault (s : σ)

/-- The state an action ended in, whichever way it ended. -/
def Res.state {σ : Type u} {α : Type v} : Res σ α → σ
  | .ok _ s => s
  | .fault s => s

@[simp] theorem Res.state_ok {σ : Type u} {α : Type v} (a : α) (s : σ) :
    (Res.ok a s).state = s := rfl

@[simp] theorem Res.state_fault {σ : Type u} {α : Type v} (s : σ) :
    (Res.fault s : Res σ α).state = s := rfl

/-- The same end, in the state `h` makes of it. -/
def Res.map {σ τ : Type u} {α : Type v} (h : τ → σ) : Res τ α → Res σ α
  | .ok a s => .ok a (h s)
  | .fault s => .fault (h s)

/-- Code over a state. -/
def Act (σ : Type u) (α : Type v) : Type (max u v) := σ → Res σ α

namespace Act

variable {σ τ : Type u} {α β : Type v}

/-- Run `x`, then `f` on its value; a stop in `x` is a stop of both. -/
def andThen (x : Act σ α) (f : α → Act σ β) : Act σ β := fun s =>
  match x s with
  | .ok a s' => f a s'
  | .fault s' => .fault s'

instance : Monad (Act σ) where
  pure a := fun s => .ok a s
  bind := andThen

/-- Read a function of the state. -/
def gets (f : σ → α) : Act σ α := fun s => .ok (f s) s

/-- Change the state. -/
def modify (f : σ → σ) : Act σ Unit := fun s => .ok () (f s)

/-- Stop. -/
def stop : Act σ α := fun s => .fault s

/-- Follow a pointer; a null pointer stops the code. -/
def deref : Option α → Act σ α
  | some a => fun s => .ok a s
  | none => stop

@[simp] theorem deref_some_apply (a : α) (s : σ) : deref (some a) s = .ok a s := rfl

@[simp] theorem pure_apply (a : α) (s : σ) : (pure a : Act σ α) s = .ok a s := rfl

@[simp] theorem gets_apply (f : σ → α) (s : σ) : gets f s = .ok (f s) s := rfl

@[simp] theorem modify_apply (f : σ → σ) (s : σ) : modify f s = .ok () (f s) := rfl

@[simp] theorem stop_apply (s : σ) : (stop : Act σ α) s = .fault s := rfl

/-- A sequence whose first part hands on a value. -/
theorem bind_ok {x : Act σ α} {f : α → Act σ β} {s s' : σ} {a : α}
    (h : x s = .ok a s') : (x >>= f) s = f a s' := by
  show andThen x f s = _
  rw [andThen, h]

/-- A sequence whose first part stops. -/
theorem bind_fault {x : Act σ α} {f : α → Act σ β} {s s' : σ}
    (h : x s = .fault s') : (x >>= f) s = .fault s' := by
  show andThen x f s = _
  rw [andThen, h]

/-- A sequence goes alike from two states that its first part goes alike from. -/
theorem bind_congr {x : Act σ α} {s s' : σ} (h : x s = x s') (f : α → Act σ β) :
    (x >>= f) s = (x >>= f) s' := by
  show andThen x f s = andThen x f s'
  rw [andThen, andThen, h]

/-! These are not stated by `rfl`: rewriting with them then leaves a proof to
check, where a definitional step would leave the whole term to evaluate. -/

@[simp] theorem pure_bind_apply (a : α) (f : α → Act σ β) (s : σ) :
    ((pure a : Act σ α) >>= f) s = f a s := bind_ok (pure_apply a s)

@[simp] theorem gets_bind_apply (g : σ → α) (f : α → Act σ β) (s : σ) :
    (gets g >>= f) s = f (g s) s := bind_ok (gets_apply g s)

@[simp] theorem modify_bind_apply {β : Type} (g : σ → σ) (f : Unit → Act σ β) (s : σ) :
    (modify g >>= f) s = f () (g s) := bind_ok (modify_apply g s)

@[simp] theorem deref_bind_apply (a : α) (f : α → Act σ β) (s : σ) :
    (deref (some a) >>= f) s = f a s := bind_ok (deref_some_apply a s)

/-- A sequence that hands on a value did so through a value of its first part. -/
theorem bind_eq_ok {x : Act σ α} {f : α → Act σ β} {s s'' : σ} {b : β} :
    (x >>= f) s = .ok b s'' ↔ ∃ a s', x s = .ok a s' ∧ f a s' = .ok b s'' := by
  constructor
  · intro h
    cases hx : x s with
    | ok a s' => exact ⟨a, s', rfl, by rw [← bind_ok (f := f) hx]; exact h⟩
    | fault s' => rw [bind_fault hx] at h; cases h
  · rintro ⟨a, s', hx, hf⟩
    rw [bind_ok hx]; exact hf

theorem bind_assoc {γ : Type v} (x : Act σ α) (f : α → Act σ β) (g : β → Act σ γ) :
    x >>= f >>= g = x >>= fun a => f a >>= g := by
  funext s
  cases hx : x s with
  | ok a s' =>
    rw [bind_ok hx]
    cases hf : f a s' with
    | ok b s'' => rw [bind_ok (bind_ok hx |>.trans hf), bind_ok hf]
    | fault s'' => rw [bind_fault (bind_ok hx |>.trans hf), bind_fault hf]
  | fault s' => rw [bind_fault (bind_fault hx), bind_fault hx]

theorem pure_bind (a : α) (f : α → Act σ β) : ((pure a : Act σ α) >>= f) = f a :=
  funext fun s => pure_bind_apply a f s

/-- A result that is thrown away leaves the state where it was. -/
theorem state_discard (x : Act σ α) (b : β) (s : σ) :
    ((x >>= fun _ => (pure b : Act σ β)) s).state = (x s).state := by
  cases hx : x s with
  | ok a s' => rw [bind_ok hx]; rfl
  | fault s' => rw [bind_fault hx]; rfl

/-- A branch was taken. -/
theorem ite_cases {c : Prop} [Decidable c] {x y : Act σ α} {s : σ} {r : Res σ α}
    (h : (if c then x else y) s = r) : (c ∧ x s = r) ∨ (¬ c ∧ y s = r) := by
  by_cases hc : c
  · rw [if_pos hc] at h
    exact .inl ⟨hc, h⟩
  · rw [if_neg hc] at h
    exact .inr ⟨hc, h⟩

/-! ## Where an action can move a state -/

/-- Wherever `x` ends, it ends in a state `r` relates to the first. -/
def Within (r : σ → σ → Prop) (x : Act σ α) : Prop := ∀ s, r s (x s).state

section Within

variable {r : σ → σ → Prop}

theorem Within.pure (hrefl : ∀ s, r s s) (a : α) : Within r (Pure.pure a : Act σ α) :=
  fun s => hrefl s

theorem Within.gets (hrefl : ∀ s, r s s) (f : σ → α) : Within r (Act.gets f) :=
  fun s => hrefl s

theorem Within.stop (hrefl : ∀ s, r s s) : Within r (Act.stop : Act σ α) :=
  fun s => hrefl s

/-- Sequencing: for a transitive relation the parts' moves compose. -/
theorem Within.bind (htrans : ∀ {a b c}, r a b → r b c → r a c)
    {x : Act σ α} {f : α → Act σ β} (hx : Within r x) (hf : ∀ a, Within r (f a)) :
    Within r (x >>= f) := by
  intro s
  have h := hx s
  cases hxs : x s with
  | ok a s' =>
    rw [hxs] at h
    rw [bind_ok hxs]
    exact htrans h (hf a s')
  | fault s' =>
    rw [hxs] at h
    rw [bind_fault hxs]
    exact h

end Within

/-! ## Acting on a part of the state -/

/-- Run an action of a part on the whole: read the part, run, put it back. -/
def zoom (get : τ → σ) (put : σ → τ → τ) (x : Act σ α) : Act τ α := fun t =>
  match x (get t) with
  | .ok a s => .ok a (put s t)
  | .fault s => .fault (put s t)

theorem zoom_ok {get : τ → σ} {put : σ → τ → τ} {x : Act σ α} {t : τ} {a : α} {s : σ}
    (h : x (get t) = .ok a s) : zoom get put x t = .ok a (put s t) := by
  rw [zoom, h]

theorem zoom_fault {get : τ → σ} {put : σ → τ → τ} {x : Act σ α} {t : τ} {s : σ}
    (h : x (get t) = .fault s) : zoom get put x t = .fault (put s t) := by
  rw [zoom, h]

theorem zoom_state {get : τ → σ} {put : σ → τ → τ} (x : Act σ α) (t : τ) :
    (zoom get put x t).state = put (x (get t)).state t := by
  unfold zoom
  cases x (get t) <;> rfl

theorem zoom_eq_ok {get : τ → σ} {put : σ → τ → τ} {x : Act σ α} {t t' : τ} {a : α} :
    zoom get put x t = .ok a t' ↔ ∃ s, x (get t) = .ok a s ∧ t' = put s t := by
  unfold zoom
  cases x (get t) with
  | ok b s =>
    constructor
    · intro h; cases h; exact ⟨s, rfl, rfl⟩
    · rintro ⟨s', h, rfl⟩; cases h; rfl
  | fault s =>
    constructor
    · intro h; cases h
    · rintro ⟨s', h, _⟩; cases h

/-- A sequence of a part is a sequence of the whole. -/
theorem zoom_bind {get : τ → σ} {put : σ → τ → τ} (hget : ∀ s t, get (put s t) = s)
    (hput : ∀ s s' t, put s' (put s t) = put s' t) (x : Act σ α) (f : α → Act σ β) :
    zoom get put (x >>= f) = zoom get put x >>= fun a => zoom get put (f a) := by
  funext t
  cases hx : x (get t) with
  | ok a s =>
    rw [bind_ok (zoom_ok hx), zoom, zoom, bind_ok hx, hget]
    cases f a s with
    | ok b s' => exact congrArg (Res.ok b) (hput s s' t).symm
    | fault s' => exact congrArg Res.fault (hput s s' t).symm
  | fault s => rw [bind_fault (zoom_fault hx), zoom, bind_fault hx]

/-- A part's moves are moves of the whole. -/
theorem Within.zoom {get : τ → σ} {put : σ → τ → τ} {r : σ → σ → Prop} {r' : τ → τ → Prop}
    (h : ∀ t s, r (get t) s → r' t (put s t)) {x : Act σ α} (hx : Within r x) :
    Within r' (Act.zoom get put x) := fun t => by
  rw [zoom_state]
  exact h t _ (hx (get t))

/-! ## Actions on a larger state -/

/-- What `x'` comes to, seen through `h`, is what `x` comes to. -/
def Lifts (h : τ → σ) (x' : Act τ α) (x : Act σ α) : Prop := ∀ t, x (h t) = (x' t).map h

namespace Lifts

variable {h : τ → σ}

theorem pure (a : α) : Lifts h (Pure.pure a) (Pure.pure a) := fun _ => rfl

theorem stop : Lifts h (Act.stop : Act τ α) Act.stop := fun _ => rfl

/-- Sequencing. -/
theorem bind {x' : Act τ α} {x : Act σ α} {f' : α → Act τ β} {f : α → Act σ β}
    (hx : Lifts h x' x) (hf : ∀ a, Lifts h (f' a) (f a)) : Lifts h (x' >>= f') (x >>= f) := by
  intro t
  have hxt := hx t
  cases ht : x' t with
  | ok a t' =>
    rw [ht] at hxt
    rw [bind_ok ht, bind_ok hxt]
    exact hf a t'
  | fault t' =>
    rw [ht] at hxt
    rw [bind_fault ht, bind_fault hxt]
    rfl

/-- An action of the part, run on the whole. -/
theorem zoom {put : σ → τ → τ} (x : Act σ α) (hput : ∀ s t, h (put s t) = s) :
    Lifts h (Act.zoom h put x) x := by
  intro t
  unfold Act.zoom
  cases x (h t) with
  | ok a s => exact congrArg (Res.ok a) (hput s t).symm
  | fault s => exact congrArg Res.fault (hput s t).symm

/-- What the part has no share in. -/
theorem modify_bind {β : Type} {f : τ → τ} {x' : Act τ β} {x : Act σ β} (hf : ∀ t, h (f t) = h t)
    (hx : Lifts h x' x) : Lifts h (Act.modify f >>= fun _ => x') x := by
  intro t
  have hxt := hx (f t)
  rw [hf] at hxt
  rw [hxt, show (Act.modify f >>= fun _ => x') t = x' (f t) from bind_ok (modify_apply f t)]

end Lifts

/-- To change the state by `h` before `x` is to change it so after `x`. -/
def Ignores (h : σ → σ) (x : Act σ α) : Prop := Lifts h x x

namespace Ignores

variable {h : σ → σ}

theorem pure (a : α) : Ignores h (Pure.pure a : Act σ α) := Lifts.pure a

theorem gets {f : σ → α} (hf : ∀ s, f (h s) = f s) : Ignores h (Act.gets f) := fun s => by
  show Res.ok (f (h s)) (h s) = .ok (f s) (h s)
  rw [hf]

theorem bind {x : Act σ α} {f : α → Act σ β} (hx : Ignores h x) (hf : ∀ a, Ignores h (f a)) :
    Ignores h (x >>= f) := Lifts.bind hx hf

/-- What lies outside of the part an action runs on. -/
theorem zoom {h : τ → τ} {get : τ → σ} {put : σ → τ → τ} (x : Act σ α)
    (hget : ∀ t, get (h t) = get t) (hput : ∀ s t, put s (h t) = h (put s t)) :
    Ignores h (Act.zoom get put x) := by
  intro t
  unfold Act.zoom
  rw [hget]
  cases x (get t) with
  | ok a s => exact congrArg (Res.ok a) (hput s t)
  | fault s => exact congrArg Res.fault (hput s t)

end Ignores

/-! ## A flag that stays up -/

/-- A flag of the state, once up, is up for good. -/
def Raises (flag : σ → Bool) (s s' : σ) : Prop := flag s = true → flag s' = true

namespace Raises

variable {flag : σ → Bool}

theorem refl (s : σ) : Raises flag s s := fun h => h

theorem trans {a b c : σ} (h : Raises flag a b) (h' : Raises flag b c) : Raises flag a c :=
  fun ha => h' (h ha)

theorem pure (a : α) : Within (Raises flag) (Pure.pure a : Act σ α) := Within.pure refl a

theorem gets (f : σ → α) : Within (Raises flag) (Act.gets f) := Within.gets refl f

theorem modify {f : σ → σ} (h : ∀ s, flag (f s) = flag s) :
    Within (Raises flag) (Act.modify f) := fun s hs => by
  show flag (f s) = true
  rw [h, hs]

theorem deref (o : Option α) : Within (Raises flag) (Act.deref o) := by
  cases o with
  | none => exact Within.stop refl
  | some a => exact pure a

theorem bind {x : Act σ α} {f : α → Act σ β} (hx : Within (Raises flag) x)
    (hf : ∀ a, Within (Raises flag) (f a)) : Within (Raises flag) (x >>= f) :=
  Within.bind (r := Raises flag) trans hx hf

/-- A sequence that ends with the flag down had it down after its first part. -/
theorem of_bind {x : Act σ α} {f : α → Act σ β} {s : σ}
    (hf : ∀ a, Within (Raises flag) (f a)) (h : flag ((x >>= f) s).state = false) :
    flag (x s).state = false := by
  cases hx : x s with
  | ok a s' =>
    rw [bind_ok hx] at h
    cases hs : flag s' with
    | false => exact hs
    | true =>
      rw [hf a s' hs] at h
      cases h
  | fault s' =>
    rw [bind_fault hx] at h
    exact h

end Raises

/-! ## Handing on the same -/

/-- What `x` hands on, `y` does. -/
def Refines (x y : Act σ α) : Prop := ∀ s a s', x s = .ok a s' → y s = .ok a s'

namespace Refines

theorem refl (x : Act σ α) : Refines x x := fun _ _ _ h => h

theorem trans {x y z : Act σ α} (h : Refines x y) (h' : Refines y z) : Refines x z :=
  fun s a s' hx => h' s a s' (h s a s' hx)

theorem stop (x : Act σ α) : Refines Act.stop x := fun _ _ _ h => by cases h

/-- Sequencing. -/
theorem bind {x y : Act σ α} {f g : α → Act σ β} (h : Refines x y) (hf : ∀ a, Refines (f a) (g a)) :
    Refines (x >>= f) (y >>= g) := by
  intro s b s'' hrun
  obtain ⟨a, s', hx, hfa⟩ := bind_eq_ok.mp hrun
  rw [bind_ok (h s a s' hx)]
  exact hf a s' b s'' hfa

/-- Both branches. -/
theorem ite {c : Prop} [Decidable c] {x y x' y' : Act σ α} (h : Refines x y) (h' : Refines x' y') :
    Refines (if c then x else x') (if c then y else y') := by
  split
  · exact h
  · exact h'

/-- A loop that hands on the same with one more turn does so with any number more. -/
theorem le {x : Nat → Act σ α} (h : ∀ n, Refines (x n) (x (n + 1))) {n k : Nat} (hk : n ≤ k) :
    Refines (x n) (x k) := by
  induction hk with
  | refl => exact refl _
  | step _ ih => exact ih.trans (h _)

end Refines

end Act

end Myos.Lib
