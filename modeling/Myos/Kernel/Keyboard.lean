import Mathlib.Data.List.TakeDrop
import Mathlib.Data.List.Infix
import Myos.Lib.Ring
import Myos.Kernel.State

/-!
# The keyboard buffer

`add_kbdata` and `get_kbdata` of `kernel/console.c`, against a queue that
keeps the last 1023 bytes. The writer never looks at `rpos`: the byte that
fills the ring brings `wpos` back to it, and what was unread is gone. Up to
that byte the ring is the queue.
-/

namespace Myos.Kernel

open Myos.Lib

def kbBufSize : Nat := 1024

/-- `init_kbdata`. -/
def initKbdata (k : Kbs) : Kbs := { k with rpos := 0, wpos := 0 }

/-- `add_kbdata`. -/
def addKbdata (data : UInt8) (k : Kbs) : Kbs :=
  { k with buf := Function.update k.buf k.wpos data, wpos := (k.wpos + 1) % kbBufSize }

/-- `get_kbdata`. -/
def getKbdata (k : Kbs) : Int × Kbs :=
  if k.rpos ≠ k.wpos then ((k.buf k.rpos).toNat, { k with rpos := (k.rpos + 1) % kbBufSize })
  else (-1, k)

/-- A key arrives, or a byte is asked for. -/
inductive KbEvent where
  | add (data : UInt8)
  | get
deriving DecidableEq, Repr

def Kbs.step (k : Kbs) : KbEvent → Kbs
  | .add data => addKbdata data k
  | .get => (getKbdata k).2

def Kbs.run (k : Kbs) (es : List KbEvent) : Kbs := es.foldl Kbs.step k

/-- What the next `n` reads return. -/
def Kbs.reads (k : Kbs) : Nat → List Int
  | 0 => []
  | n + 1 => (getKbdata k).1 :: (getKbdata k).2.reads n

/-! ## The queue -/

/-- The unread bytes, the oldest first. -/
abbrev KbQueue := List UInt8

/-- A byte that arrives goes to the end, and the oldest goes if there are too many. -/
def KbQueue.step (q : KbQueue) : KbEvent → KbQueue
  | .add data => (q ++ [data]).drop (q.length + 1 - (kbBufSize - 1))
  | .get => q.tail

def KbQueue.run (q : KbQueue) (es : List KbEvent) : KbQueue := es.foldl KbQueue.step q

/-- What a read returns: the first of the unread bytes, or -1. -/
def KbQueue.answer : KbQueue → Int
  | [] => -1
  | b :: _ => b.toNat

/-- What the next `n` reads return. -/
def KbQueue.reads (q : KbQueue) : Nat → List Int
  | 0 => []
  | n + 1 => q.answer :: KbQueue.reads q.tail n

/-! ## The ring is the queue until it is full -/

section Ring

variable {k : Kbs} {q : KbQueue} {es : List KbEvent} {data : UInt8}

/-- The indices are inside the buffer. -/
def Kbs.Inside (k : Kbs) : Prop := k.rpos < kbBufSize ∧ k.wpos < kbBufSize

/-- How many bytes are unread, going by the indices. -/
def Kbs.unread (k : Kbs) : Nat := Ring.gap kbBufSize k.rpos k.wpos

/-- The bytes between the indices. -/
def Kbs.pending (k : Kbs) : KbQueue := Ring.window kbBufSize k.buf k.rpos k.unread

theorem Kbs.pending_length (k : Kbs) : k.pending.length = k.unread := Ring.window_length

theorem Kbs.Inside.step (h : k.Inside) (e : KbEvent) : (k.step e).Inside := by
  cases e with
  | add data => exact ⟨h.1, Nat.mod_lt _ (by decide : 0 < kbBufSize)⟩
  | get =>
    show (getKbdata k).2.Inside
    unfold getKbdata
    split
    · exact ⟨Nat.mod_lt _ (by decide : 0 < kbBufSize), h.2⟩
    · exact h

theorem Kbs.Inside.run (h : k.Inside) (es : List KbEvent) : (k.run es).Inside := by
  induction es generalizing k with
  | nil => exact h
  | cons e es ih => exact ih (h.step e)

/-- An arrival with room for it. -/
theorem Kbs.pending_add (h : k.Inside) (hroom : k.unread < kbBufSize - 1) :
    (addKbdata data k).pending = k.pending ++ [data] := by
  have hunread : (addKbdata data k).unread = k.unread + 1 := by
    refine (Ring.gap_succ h.1 h.2).trans (if_neg ?_)
    show k.unread + 1 ≠ kbBufSize
    omega
  rw [Kbs.pending, hunread]
  exact Ring.window_push h.1 h.2

/-- The arrival that fills the ring empties it. -/
theorem Kbs.pending_full (h : k.Inside) (hfull : k.unread = kbBufSize - 1) :
    (addKbdata data k).pending = [] := by
  have hunread : (addKbdata data k).unread = 0 := by
    refine (Ring.gap_succ h.1 h.2).trans (if_pos ?_)
    show k.unread + 1 = kbBufSize
    rw [hfull]
    rfl
  rw [Kbs.pending, hunread, Ring.window_zero]

/-- A read returns the first of what is pending, if there is any. -/
theorem Kbs.pending_get (h : k.Inside) : (getKbdata k).2.pending = k.pending.tail ∧
    (getKbdata k).1 = k.pending.answer := by
  by_cases hne : k.rpos ≠ k.wpos
  · have hget : getKbdata k =
        (((k.buf k.rpos).toNat : Int), { k with rpos := (k.rpos + 1) % kbBufSize }) := if_pos hne
    have hunread : k.unread = (getKbdata k).2.unread + 1 := by
      rw [hget]
      exact (Ring.gap_pred h.1 h.2 hne).symm
    rw [Kbs.pending, Kbs.pending, hunread, Ring.window_cons h.1, hget]
    exact ⟨rfl, rfl⟩
  · have hget : getKbdata k = (-1, k) := if_neg hne
    have hempty : k.pending = [] := by
      have hz : k.unread = 0 := (Ring.gap_eq_zero h.1 h.2).mpr (not_not.mp hne)
      rw [Kbs.pending, hz, Ring.window_zero]
    rw [hget, hempty]
    exact ⟨rfl, rfl⟩

/-- What is pending is what reading returns. -/
theorem Kbs.reads_eq (h : k.Inside) (n : Nat) : k.reads n = KbQueue.reads k.pending n := by
  induction n generalizing k with
  | zero => rfl
  | succ n ih =>
    obtain ⟨htail, hhead⟩ := Kbs.pending_get h
    rw [Kbs.reads, KbQueue.reads, hhead, ih (k := (getKbdata k).2) (h.step .get), htail]

/-- A queue is known by what reading returns. -/
theorem KbQueue.reads_inj {q q' : KbQueue} (h : ∀ n, q.reads n = q'.reads n) : q = q' := by
  have hanswer : ∀ {q q' : KbQueue}, (∀ n, q.reads n = q'.reads n) → q.answer = q'.answer :=
    fun h => (List.cons.inj (h 1)).1
  induction q generalizing q' with
  | nil =>
    cases q' with
    | nil => rfl
    | cons b q' =>
      have h1 : (-1 : Int) = b.toNat := hanswer h
      omega
  | cons b q ih =>
    cases q' with
    | nil =>
      have h1 : (b.toNat : Int) = -1 := hanswer h
      omega
    | cons b' q' =>
      have htail : ∀ n, KbQueue.reads q n = KbQueue.reads q' n :=
        fun n => (List.cons.inj (h (n + 1))).2
      have h1 : (b.toNat : Int) = b'.toNat := hanswer h
      rw [ih htail, UInt8.toNat_inj.mp (Int.ofNat.inj h1)]

/-- STEP: an event with room for it keeps the ring the queue. -/
theorem Kbs.pending_step (h : k.Inside) (e : KbEvent)
    (hroom : ∀ data, e = .add data → k.unread < kbBufSize - 1) :
    (k.step e).pending = k.pending.step e := by
  cases e with
  | add data =>
    have hlt := hroom data rfl
    have hdrop : k.pending.length + 1 - (kbBufSize - 1) = 0 := by
      rw [Kbs.pending_length]
      omega
    rw [KbQueue.step, hdrop, List.drop_zero]
    exact Kbs.pending_add h hlt
  | get => exact (Kbs.pending_get h).1

end Ring

/-! ## Whole runs -/

/-- At every moment the kernel would deliver what the queue would: the unread
bytes in the order they came, the last 1023 of them, and then -1. -/
def Kbs.Delivers (k : Kbs) (es : List KbEvent) : Prop :=
  ∀ pre, pre <+: es → ∀ n, (k.run pre).reads n = (KbQueue.run [] pre).reads n

/-- No key arrives when 1023 bytes are unread. -/
def Kbs.Roomy (k : Kbs) (es : List KbEvent) : Prop :=
  ∀ pre data, pre ++ [.add data] <+: es → (k.run pre).unread < kbBufSize - 1

section Runs

variable {k : Kbs} {es : List KbEvent}

theorem initKbdata_inside (k : Kbs) : (initKbdata k).Inside :=
  ⟨(by decide : 0 < kbBufSize), (by decide : 0 < kbBufSize)⟩

theorem initKbdata_pending (k : Kbs) : (initKbdata k).pending = [] := by
  have hz : (initKbdata k).unread = 0 := by
    show Ring.gap kbBufSize 0 0 = 0
    decide
  rw [Kbs.pending, hz, Ring.window_zero]

theorem Kbs.run_snoc (k : Kbs) (es : List KbEvent) (e : KbEvent) :
    k.run (es ++ [e]) = (k.run es).step e := List.foldl_concat ..

theorem KbQueue.run_snoc (q : KbQueue) (es : List KbEvent) (e : KbEvent) :
    q.run (es ++ [e]) = KbQueue.step (q.run es) e := List.foldl_concat ..

/-- RUN: while there is room the ring is the queue. -/
theorem Kbs.Roomy.pending (h : (initKbdata k).Roomy es) :
    ((initKbdata k).run es).pending = KbQueue.run [] es := by
  induction es using List.reverseRecOn with
  | nil => exact initKbdata_pending k
  | append_singleton es e ih =>
    have hpre : (initKbdata k).Roomy es := fun pre data hp =>
      h pre data (hp.trans (List.prefix_append es [e]))
    rw [Kbs.run_snoc, KbQueue.run_snoc, ← ih hpre]
    refine Kbs.pending_step ((initKbdata_inside k).run es) e fun data he => ?_
    exact h es data (by rw [he])

/-- The queue never runs over, and is not empty after an arrival. -/
theorem KbQueue.step_add_ne_nil (q : KbQueue) (data : UInt8) (hq : q.length ≤ kbBufSize - 1) :
    q.step (.add data) ≠ [] := by
  intro hnil
  have hlen := congrArg List.length hnil
  unfold KbQueue.step at hlen
  simp only [List.length_drop, List.length_append, List.length_singleton,
    List.length_nil] at hlen
  unfold kbBufSize at hq hlen
  omega

/-- The arrival that fills the ring loses what was unread. -/
theorem Kbs.Roomy.lost {pre : List KbEvent} (data : UInt8) (h : (initKbdata k).Roomy pre)
    (hfull : ¬ ((initKbdata k).run pre).unread < kbBufSize - 1) :
    ¬ (initKbdata k).Delivers (pre ++ [.add data]) := by
  intro hdel
  have hinside := (initKbdata_inside k).run pre
  have hlt : ((initKbdata k).run pre).unread < kbBufSize := Ring.gap_lt hinside.1
  have heq : ((initKbdata k).run pre).unread = kbBufSize - 1 := by omega
  have hpending := h.pending
  have hreads := hdel (pre ++ [.add data]) (List.prefix_refl _)
  rw [Kbs.run_snoc, KbQueue.run_snoc] at hreads
  have hsame : (((initKbdata k).run pre).step (.add data)).pending =
      KbQueue.step (KbQueue.run [] pre) (.add data) :=
    KbQueue.reads_inj fun n => by
      rw [← Kbs.reads_eq (hinside.step _)]
      exact hreads n
  rw [← hpending] at hsame
  refine KbQueue.step_add_ne_nil _ data ?_ (hsame.symm.trans (Kbs.pending_full hinside heq))
  rw [Kbs.pending_length, heq]

/-- Up to the first arrival without room there is room. -/
theorem Kbs.roomy_or (k : Kbs) (es : List KbEvent) : k.Roomy es ∨
    ∃ pre data, pre ++ [.add data] <+: es ∧ k.Roomy pre ∧
      ¬ (k.run pre).unread < kbBufSize - 1 := by
  induction es using List.reverseRecOn with
  | nil =>
    refine .inl fun pre data hp => ?_
    have := List.eq_nil_of_prefix_nil hp
    simp at this
  | append_singleton es e ih =>
    rcases ih with hroomy | ⟨pre, data, hp, hrest⟩
    · by_cases hlast : ∃ data, e = .add data ∧ ¬ (k.run es).unread < kbBufSize - 1
      · obtain ⟨data, rfl, hfull⟩ := hlast
        exact .inr ⟨es, data, List.prefix_refl _, hroomy, hfull⟩
      · refine .inl fun pre data hp => ?_
        rcases List.prefix_concat_iff.mp hp with heq | hp'
        · obtain ⟨rfl, he⟩ := List.append_inj' heq rfl
          by_contra hfull
          exact hlast ⟨data, (List.cons.inj he).1.symm, hfull⟩
        · exact hroomy pre data hp'
    · exact .inr ⟨pre, data, hp.trans (List.prefix_append es [e]), hrest⟩

/-- KEYBOARD QUEUE: the indices stay inside the buffer, and the kernel delivers
what the queue does exactly if no key arrives when 1023 bytes are unread. -/
theorem keyboard_queue (k : Kbs) (es : List KbEvent) : ((initKbdata k).run es).Inside ∧
    ((initKbdata k).Delivers es ↔ (initKbdata k).Roomy es) := by
  refine ⟨(initKbdata_inside k).run es, fun hdel => ?_, fun hroomy pre hpre n => ?_⟩
  · rcases Kbs.roomy_or (initKbdata k) es with hroomy | ⟨pre, data, hp, hroomy, hfull⟩
    · exact hroomy
    · exact absurd (fun pre' hpre' => hdel pre' (hpre'.trans hp)) (hroomy.lost _ hfull)
  · have hroomy' : (initKbdata k).Roomy pre := fun pre' data hp => hroomy pre' data (hp.trans hpre)
    rw [Kbs.reads_eq ((initKbdata_inside k).run pre), hroomy'.pending]

end Runs

/-- Keys that nobody reads. -/
theorem Kbs.unread_adds (k : Kbs) (data : UInt8) (n : Nat) :
    ((initKbdata k).run (List.replicate n (.add data))).unread = n % kbBufSize := by
  have hrun : ∀ n, ((initKbdata k).run (List.replicate n (.add data))).rpos = 0 ∧
      ((initKbdata k).run (List.replicate n (.add data))).wpos = n % kbBufSize := by
    intro n
    induction n with
    | zero => exact ⟨rfl, rfl⟩
    | succ n ih =>
      rw [List.replicate_succ', Kbs.run, List.foldl_append]
      refine ⟨ih.1, ?_⟩
      show (((initKbdata k).run (List.replicate n (.add data))).wpos + 1) % kbBufSize = _
      rw [ih.2, Nat.mod_add_mod]
  obtain ⟨hr, hw⟩ := hrun n
  rw [Kbs.unread, hr, hw, Ring.gap, Nat.sub_zero, Nat.add_mod_right, Nat.mod_mod]

/-- After 1024 keys nothing is left to read. -/
theorem keyboard_queue_full : ¬ (initKbdata ⟨fun _ => 0, 0, 0⟩).Delivers
    (List.replicate 1024 (.add 97)) := by
  have hroomy : (initKbdata ⟨fun _ => 0, 0, 0⟩).Roomy (List.replicate 1023 (.add 97)) := by
    intro pre data hp
    obtain ⟨suf, hsuf⟩ := hp
    have hlen := congrArg List.length hsuf
    simp only [List.length_append, List.length_singleton, List.length_replicate] at hlen
    have hpre : pre = List.replicate pre.length (.add 97) := by
      refine List.eq_replicate_of_mem fun e he => ?_
      refine List.eq_of_mem_replicate (n := 1023) ?_
      rw [← hsuf]
      exact List.mem_append_left _ (List.mem_append_left _ he)
    have hlt : pre.length < 1023 := by omega
    rw [hpre, Kbs.unread_adds, Nat.mod_eq_of_lt (Nat.lt_trans hlt (by decide))]
    exact hlt
  have hfull := hroomy.lost 97 (by rw [Kbs.unread_adds]; decide)
  have hrep : List.replicate 1023 (KbEvent.add 97) ++ [.add 97] =
      List.replicate 1024 (.add 97) := (List.replicate_succ' (n := 1023)).symm
  rwa [hrep] at hfull

end Myos.Kernel
