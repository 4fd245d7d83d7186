import Mathlib.Data.Finset.Prod
import Myos.Lib.Owners
import Myos.Kernel.Descriptors
import Myos.Kernel.Slots

/-!
# The references to open files

The count in an entry of `filetable` against the descriptors of the live
processes that point to it (`RefsRight`). `FileEvent` is what moves either.
`sys_fork` and `sys_exit` keep the two in step, and so does a call that opens
while descriptor 0 is free. `sys_close` clears the descriptor only when the
last reference goes, and a call that opens while descriptor 0 is taken lets
its file go without counting.
-/

namespace Myos.Kernel

open Myos.Lib

/-! ## References -/

/-- The descriptors there are: a slot and an index each. -/
def fdKeys : Finset (Nat × Nat) := Finset.range maxProc ×ˢ Finset.range maxOpenFile

/-- Where a descriptor points to, if its process is live. -/
def KState.fdOwner (k : KState) (x : Nat × Nat) : Option Nat :=
  if (k.procs x.1).status = .runnable then (k.procs x.1).fdtable x.2 else none

/-- How many descriptors point to an entry. -/
def KState.fileRefs (k : KState) (f : Nat) : Nat := Owners.refs fdKeys k.fdOwner f

/-- Every entry counts its references. -/
def RefsRight (k : KState) : Prop := ∀ f, (k.filetable f).refcount = k.fileRefs f

/-! ## What happens -/

/-- What moves the descriptors and the open files. -/
inductive FileEvent where
  | open (fname : Nat)
  | opencons
  | close (fd : Int)
  | slot (e : SlotEvent)

def fileStep (k : KState) : FileEvent → KState → Prop
  | .open fname, k' => ∃ r, sysOpen fname k = .ok r k'
  | .opencons, k' => ∃ r, sysOpencons k = .ok r k'
  | .close fd, k' => ∃ r, sysClose fd k = .ok r k'
  | .slot e, k' => slotStep k e k'

/-- Descriptor 0 is not overwritten: it is free, or the call fails before. -/
def KState.ZeroFree (k : KState) (found : Prop) : Prop :=
  ∀ p, k.current = some p → k.HasFd p → k.HasFile → found → (k.procs p).fdtable 0 = none

/-- A descriptor that is closed held the last reference to its file. -/
def KState.LastRef (k : KState) (fd : Int) : Prop :=
  ∀ p f, k.current = some p → 0 ≤ fd → fd < maxOpenFile →
    (k.procs p).fdtable fd.toNat = some f → (k.filetable f).refcount = 1

/-- What an event is to meet for the counts to stay right. -/
def FileEvent.Counted (k : KState) : FileEvent → Prop
  | .open fname => k.ZeroFree (k.Finds fname)
  | .opencons => k.ZeroFree True
  | .close fd => k.LastRef fd
  | .slot _ => True

/-- Before any process was made no file was open. -/
def FileBooted (k : KState) : Prop := Booted k ∧ ∀ f, (k.filetable f).refcount = 0

/-! ## Counting -/

section Counting

variable {k k' : KState} {p q f i : Nat}

theorem mem_fdKeys {x : Nat × Nat} : x ∈ fdKeys ↔ x.1 < maxProc ∧ x.2 < maxOpenFile := by
  rw [fdKeys, Finset.mem_product, Finset.mem_range, Finset.mem_range]

/-- A count is far from the end of its range. -/
theorem refs_small (owner : Nat × Nat → Option Nat) (f : Nat) :
    Owners.refs fdKeys owner f ≤ 320 :=
  Owners.refs_le.trans (Nat.le_of_eq (by
    rw [fdKeys, Finset.card_product, Finset.card_range, Finset.card_range]
    rfl))

/-- The count of an entry set. -/
def KState.recount (k : KState) (f : Nat) (c : Int) : KState :=
  k.setFile f { k.filetable f with refcount := c }

theorem KState.recount_refcount (k : KState) (f g : Nat) (c : Int) :
    ((k.recount f c).filetable g).refcount = if g = f then c else (k.filetable g).refcount := by
  rw [KState.recount, KState.setFile_filetable]
  split <;> rfl

/-- The descriptors of `p` below `i` let go. -/
def KState.ownerFrom (k : KState) (p i : Nat) (x : Nat × Nat) : Option Nat :=
  if x.1 = p ∧ x.2 < i then none else k.fdOwner x

/-- The descriptors of `p` below `i` are copies of those of `cur`. -/
def KState.ownerTo (k : KState) (cur p i : Nat) (x : Nat × Nat) : Option Nat :=
  if x.1 = p then if x.2 < i then (k.procs cur).fdtable x.2 else none else k.fdOwner x

theorem ownerFrom_succ {k₀ : KState} (hlive : k₀.Live p) (hp : p < maxProc)
    (hi : i < maxOpenFile) (f : Nat) :
    Owners.refs fdKeys (k₀.ownerFrom p i) f = Owners.refs fdKeys (k₀.ownerFrom p (i + 1)) f +
      if (k₀.procs p).fdtable i = some f then 1 else 0 := by
  have hold : k₀.ownerFrom p i (p, i) = (k₀.procs p).fdtable i := by
    unfold KState.ownerFrom KState.fdOwner
    rw [if_neg fun h => Nat.lt_irrefl i h.2]
    exact if_pos hlive
  have hnew : k₀.ownerFrom p (i + 1) (p, i) = none := if_pos ⟨rfl, Nat.lt_succ_self i⟩
  have hupdate := Owners.refs_update fdKeys (k₀.ownerFrom p i) f
    (mem_fdKeys.mpr ⟨hp, hi⟩) hnew fun x _ hx => by
      unfold KState.ownerFrom
      by_cases hxp : x.1 = p
      · have hxi : x.2 ≠ i := fun hxi => hx (Prod.ext hxp hxi)
        simp only [hxp, true_and]
        congr 1
        exact propext ⟨fun h => by omega, fun h => by omega⟩
      · rw [if_neg fun h => hxp h.1, if_neg fun h => hxp h.1]
  rw [hold] at hupdate
  simp only [reduceCtorEq, if_false, Nat.add_zero] at hupdate
  exact hupdate.symm

theorem ownerTo_succ (k₀ : KState) (cur : Nat) (hp : p < maxProc) (hi : i < maxOpenFile)
    (f : Nat) : Owners.refs fdKeys (k₀.ownerTo cur p (i + 1)) f =
      Owners.refs fdKeys (k₀.ownerTo cur p i) f +
        if (k₀.procs cur).fdtable i = some f then 1 else 0 := by
  have hold : k₀.ownerTo cur p i (p, i) = none := by
    unfold KState.ownerTo
    rw [if_pos rfl, if_neg (Nat.lt_irrefl i)]
  have hnew : k₀.ownerTo cur p (i + 1) (p, i) = (k₀.procs cur).fdtable i := by
    unfold KState.ownerTo
    rw [if_pos rfl, if_pos (Nat.lt_succ_self i)]
  have hupdate := Owners.refs_update fdKeys (k₀.ownerTo cur p i) f
    (mem_fdKeys.mpr ⟨hp, hi⟩) hnew fun x _ hx => by
      unfold KState.ownerTo
      by_cases hxp : x.1 = p
      · have hxi : x.2 ≠ i := fun hxi => hx (Prod.ext hxp hxi)
        rw [if_pos hxp, if_pos hxp]
        congr 1
        exact propext ⟨fun h => by omega, fun h => by omega⟩
      · rw [if_neg hxp, if_neg hxp]
  rw [hold] at hupdate
  simp only [reduceCtorEq, if_false, Nat.add_zero] at hupdate
  exact hupdate

/-- RELEASE: the counts go down with the references. -/
theorem releaseFiles_refs {k₀ : KState} (hlive : k₀.Live p) (hp : p < maxProc) (n i : Nat)
    (hi : i + n = maxOpenFile)
    (hcount : ∀ f, (k.filetable f).refcount = Owners.refs fdKeys (k₀.ownerFrom p i) f)
    (hfd : ∀ j, i ≤ j → (k.procs p).fdtable j = (k₀.procs p).fdtable j) :
    ∃ k', releaseFiles p n i k = .ok () k' ∧
      (∀ f, (k'.filetable f).refcount = Owners.refs fdKeys (k₀.ownerFrom p maxOpenFile) f) ∧
      ∀ q, q ≠ p → k'.procs q = k.procs q := by
  induction n generalizing i k with
  | zero =>
    rw [Nat.add_zero] at hi
    rw [hi] at hcount
    exact ⟨k, rfl, hcount, fun _ _ => rfl⟩
  | succ n ih =>
    have hsucc := ownerFrom_succ hlive hp (by omega : i < maxOpenFile)
    rw [← hfd i (Nat.le_refl i)] at hsucc
    unfold releaseFiles
    rw [Act.gets_bind_apply]
    cases hf : (k.procs p).fdtable i with
    | none =>
      rw [hf] at hsucc
      refine ih (i + 1) (by omega) (fun f => ?_) fun j hj => hfd j (by omega)
      rw [hcount, hsucc]
      simp only [reduceCtorEq, if_false, Nat.add_zero]
    | some f =>
      rw [hf] at hsucc
      simp only [Option.some.injEq] at hsucc
      -- the entry has one reference less
      have hrest : ∀ g, ((k.recount f (int32 ((k.filetable f).refcount - 1))).filetable g).refcount =
          Owners.refs fdKeys (k₀.ownerFrom p (i + 1)) g := fun g => by
        have hsmall := refs_small (k₀.ownerFrom p (i + 1)) f
        rw [KState.recount_refcount]
        by_cases hg : g = f
        · have hone := hsucc f
          rw [if_pos rfl] at hone
          rw [if_pos hg, hg, hcount, hone, int32_of_bounds (by omega) (by omega)]
          omega
        · have hsame := hsucc g
          rw [if_neg fun hfg => hg hfg.symm, Nat.add_zero] at hsame
          rw [if_neg hg, hcount, hsame]
      obtain ⟨k₁, hset, hk₁⟩ : ∃ k₁, setFile f (fun x => { x with
          refcount := int32 (x.refcount - 1) }) k = .ok () k₁ ∧
          k₁ = k.recount f (int32 ((k.filetable f).refcount - 1)) := ⟨_, rfl, rfl⟩
      have hprocs : k₁.procs = k.procs := by rw [hk₁]; rfl
      rw [← hk₁] at hrest
      dsimp only
      rw [Act.bind_ok hset, Act.gets_bind_apply]
      by_cases hz : (k₁.filetable f).refcount = 0
      · rw [if_pos hz, Act.bind_ok (setProc_apply _ _ _)]
        obtain ⟨k', hrun, hcount', hother⟩ := ih (i + 1) (k := k₁.setProc p { k₁.procs p with
            fdtable := Function.update (k₁.procs p).fdtable i none }) (by omega) hrest
          fun j hj => by
            rw [KState.setProc_self, hprocs]
            exact (Function.update_of_ne (by omega) _ _).trans (hfd j (by omega))
        refine ⟨k', hrun, hcount', fun q hq => ?_⟩
        rw [hother q hq, KState.setProc_procs, if_neg hq, hprocs]
      · rw [if_neg hz]
        obtain ⟨k', hrun, hcount', hother⟩ := ih (i + 1) (by omega) hrest fun j hj => by
          rw [hprocs]
          exact hfd j (by omega)
        exact ⟨k', hrun, hcount', fun q hq => by rw [hother q hq, hprocs]⟩

/-- COPY: the counts go up with the references. -/
theorem copyFiles_refs (k₀ : KState) {cur : Nat} (hne : cur ≠ p) (hp : p < maxProc) (n i : Nat)
    (hi : i + n = maxOpenFile)
    (hcount : ∀ f, (k.filetable f).refcount = Owners.refs fdKeys (k₀.ownerTo cur p i) f)
    (hcur : (k.procs cur).fdtable = (k₀.procs cur).fdtable)
    (hfd : ∀ j, (k.procs p).fdtable j = if j < i then (k₀.procs cur).fdtable j else none) :
    ∃ k', copyFiles cur p n i k = .ok () k' ∧
      (∀ f, (k'.filetable f).refcount = Owners.refs fdKeys (k₀.ownerTo cur p maxOpenFile) f) ∧
      (∀ j, (k'.procs p).fdtable j =
        if j < maxOpenFile then (k₀.procs cur).fdtable j else none) ∧
      ∀ q, q ≠ p → k'.procs q = k.procs q := by
  induction n generalizing i k with
  | zero =>
    rw [Nat.add_zero] at hi
    rw [hi] at hcount hfd
    exact ⟨k, rfl, hcount, hfd, fun _ _ => rfl⟩
  | succ n ih =>
    have hsucc := ownerTo_succ k₀ cur hp (by omega : i < maxOpenFile)
    rw [← hcur] at hsucc
    unfold copyFiles
    rw [Act.gets_bind_apply]
    cases hf : (k.procs cur).fdtable i with
    | none =>
      rw [hf] at hsucc
      refine ih (i + 1) (by omega) (fun f => ?_) hcur fun j => ?_
      · rw [hcount, hsucc]
        simp only [reduceCtorEq, if_false, Nat.add_zero]
      · rw [hfd]
        by_cases hj : j = i
        · rw [hj, if_neg (Nat.lt_irrefl i), if_pos (Nat.lt_succ_self i), ← hcur, hf]
        · congr 1
          exact propext ⟨fun h => by omega, fun h => by omega⟩
    | some f =>
      rw [hf] at hsucc
      simp only [Option.some.injEq] at hsucc
      obtain ⟨k₁, hset, hk₁⟩ : ∃ k₁, setProc p (fun r => { r with
          fdtable := Function.update r.fdtable i (some f) }) k = .ok () k₁ ∧
          k₁ = k.setProc p { k.procs p with
            fdtable := Function.update (k.procs p).fdtable i (some f) } := ⟨_, rfl, rfl⟩
      obtain ⟨k₂, hset₂, hk₂⟩ : ∃ k₂, setFile f (fun x => { x with
          refcount := int32 (x.refcount + 1) }) k₁ = .ok () k₂ ∧
          k₂ = k₁.recount f (int32 ((k.filetable f).refcount + 1)) := by
        rw [hk₁]
        exact ⟨_, rfl, rfl⟩
      have hprocs : k₂.procs = k₁.procs := by rw [hk₂]; rfl
      have hother₁ : ∀ q, q ≠ p → k₂.procs q = k.procs q := fun q hq => by
        rw [hprocs, hk₁, KState.setProc_procs, if_neg hq]
      dsimp only
      rw [Act.bind_ok hset, Act.bind_ok hset₂]
      obtain ⟨k', hrun, hcount', hfd', hother⟩ := ih (i + 1) (k := k₂) (by omega)
        (fun g => by
          have hsmall := refs_small (k₀.ownerTo cur p i) f
          rw [hk₂, KState.recount_refcount]
          by_cases hg : g = f
          · have hone := hsucc f
            rw [if_pos rfl] at hone
            rw [if_pos hg, hg, hone, hcount, int32_of_bounds (by omega) (by omega)]
            omega
          · have hsame := hsucc g
            rw [if_neg fun hfg => hg hfg.symm, Nat.add_zero] at hsame
            rw [if_neg hg, hsame, hk₁]
            exact hcount g)
        (by rw [hother₁ cur hne, hcur])
        fun j => by
          rw [hprocs, hk₁, KState.setProc_self]
          show Function.update (k.procs p).fdtable i (some f) j = _
          rw [Function.update_apply, hfd]
          by_cases hj : j = i
          · rw [if_pos hj, hj, if_pos (Nat.lt_succ_self i), ← hcur, hf]
          · rw [if_neg hj]
            congr 1
            exact propext ⟨fun h => by omega, fun h => by omega⟩
      exact ⟨k', hrun, hcount', hfd', fun q hq => by rw [hother q hq, hother₁ q hq]⟩

end Counting

/-! ## The events, one by one -/

section Events

variable {k k' : KState} {l : List Nat} {p q f : Nat} {r : Int}

/-- What the files and the descriptors of the live processes are decides. -/
theorem RefsRight.congr (h : RefsRight k)
    (hcount : ∀ f, (k'.filetable f).refcount = (k.filetable f).refcount)
    (howner : ∀ x, k'.fdOwner x = k.fdOwner x) : RefsRight k' := fun f => by
  rw [hcount, h f, KState.fileRefs, KState.fileRefs, funext howner]

theorem fdOwner_live {i : Nat} (h : k.Live p) : k.fdOwner (p, i) = (k.procs p).fdtable i := if_pos h

theorem fdOwner_dead {i : Nat} (h : ¬ k.Live p) : k.fdOwner (p, i) = none := if_neg h

/-- CREATE: the new process has no descriptors. -/
theorem RefsRight.create (h : RefsRight k) (hdead : ¬ k.Live q) (hnew : k.Created q k') :
    RefsRight (k'.running q) := by
  refine h.congr (fun f => ?_) fun x => ?_
  · rw [KState.running_filetable, hnew.fds.filetable]
  · obtain ⟨p, i⟩ := x
    have hown : (k'.running q).fdOwner (p, i) = k'.fdOwner (p, i) := by
      unfold KState.fdOwner
      rw [KState.running_procs]
    rw [hown]
    by_cases hpq : p = q
    · rw [hpq, fdOwner_dead hdead, fdOwner_live hnew.live, hnew.noFds]
    · unfold KState.fdOwner
      rw [hnew.touches.status p hpq, hnew.fds.fdtable p hpq, KState.taken, KState.setProc_procs,
        if_neg hpq]

/-- FORK: the new process has the descriptors of the caller, and each is counted. -/
theorem RefsRight.fork (h : RefsRight k) (hlive : k.Live p) (hdead : ¬ k.Live q)
    (hq : q < maxProc) (hfork : Forking k p q r k') : RefsRight k' := by
  have hpq : p ≠ q := fun hpq => hdead (hpq ▸ hlive)
  cases hfork with
  | @noFrame m none =>
    have hdead' : ¬ (k.forking p q 0 m).Live q := by
      unfold KState.Live
      rw [KState.forking, KState.setProc_self]
      exact ProcStatus.noConfusion
    refine h.congr (fun _ => rfl) fun x => ?_
    obtain ⟨p', i⟩ := x
    by_cases hp' : p' = q
    · rw [hp', fdOwner_dead hdead, fdOwner_dead hdead']
    · unfold KState.fdOwner
      rw [KState.forking_procs hp' p 0 m]
  | @forked d m₁ m k₁ dir ne files =>
    obtain ⟨k₂, hrun, hcount, hfds, hother⟩ := copyFiles_refs k (k := k.forking p q d m)
      hpq hq maxOpenFile 0 (Nat.zero_add _)
      (fun f => by
        refine (h f).trans (congrArg _ (Owners.refs_congr fun x _ => ?_))
        obtain ⟨p', i⟩ := x
        unfold KState.ownerTo
        by_cases hp' : p' = q
        · rw [if_pos hp', if_neg (Nat.not_lt_zero i), hp', fdOwner_dead hdead]
        · rw [if_neg hp'])
      (by rw [KState.forking_procs hpq])
      (fun j => by
        rw [if_neg (Nat.not_lt_zero j), KState.forking, KState.setProc_self])
    cases hrun.symm.trans files
    intro f
    rw [KState.setProc_filetable, hcount f]
    refine congrArg _ (Owners.refs_congr fun x hx => ?_)
    obtain ⟨p', i⟩ := x
    have hi : i < maxOpenFile := (mem_fdKeys.mp hx).2
    unfold KState.ownerTo
    by_cases hp' : p' = q
    · rw [if_pos hp', if_pos hi, hp', fdOwner_live (by rw [KState.Live, KState.setProc_self]),
        KState.setProc_self]
      show (k.procs p).fdtable i = some f ↔ (k₁.procs q).fdtable i = some f
      rw [hfds, if_pos hi]
    · unfold KState.fdOwner
      rw [if_neg hp', KState.setProc_procs, if_neg hp', hother p' hp', KState.forking_procs hp']

/-- EXIT: the descriptors of the process are gone, and their references. -/
theorem RefsRight.exit (h : RefsRight k) (hlive : k.Live p) (hp : p < maxProc) {c : Ctl Int}
    (hexit : Exiting k p c k') : RefsRight k' := by
  have hends : ∀ {m k₁}, releaseFiles p maxOpenFile 0 (k.ended p m) = .ok () k₁ →
      RefsRight (k₁.stopped p) := by
    intro m k₁ hfiles
    have hended : ∀ p', ((k.ended p m).procs p').fdtable = (k.procs p').fdtable ∧
        ((k.ended p m).procs p').status = (k.procs p').status := fun p' => by
      rw [KState.ended, KState.setProc_procs]
      split
      · next hp' => exact ⟨by rw [hp'], by rw [hp']⟩
      · exact ⟨rfl, rfl⟩
    obtain ⟨k₂, hrun, hcount, hother⟩ := releaseFiles_refs (k := k.ended p m) hlive hp maxOpenFile 0
      (Nat.zero_add _)
      (fun f => by
        refine (h f).trans (congrArg _ (Owners.refs_congr fun x _ => ?_))
        unfold KState.ownerFrom
        rw [if_neg fun hx => Nat.not_lt_zero x.2 hx.2])
      (fun j _ => by rw [(hended p).1])
    cases hrun.symm.trans hfiles
    intro f
    have htable : (k₁.stopped p).filetable = k₁.filetable := rfl
    rw [htable, hcount f]
    refine congrArg _ (Owners.refs_congr fun x hx => ?_)
    obtain ⟨p', i⟩ := x
    have hi : i < maxOpenFile := (mem_fdKeys.mp hx).2
    unfold KState.ownerFrom
    by_cases hp' : p' = p
    · rw [if_pos ⟨hp', hi⟩, hp', fdOwner_dead (KState.stopped_dead k₁ p)]
    · rw [if_neg fun hk => hp' hk.1]
      unfold KState.fdOwner
      rw [KState.stopped_procs, if_neg hp', hother p' hp', (hended p').1, (hended p').2]
  cases hexit with
  | @run m k₁ q files runnable =>
    refine (hends files).congr (fun f => ?_) fun x => ?_
    · rw [KState.running_filetable]
    · unfold KState.fdOwner
      rw [KState.running_procs]
  | halt files => exact hends files

/-- One descriptor of a live process changes. -/
theorem fileRefs_setFd (k' : KState) (hlive : k.Live p) (hp : p < maxProc) {i : Nat} (hi : i < maxOpenFile)
    {o : Option Nat} (hprocs : k'.procs = Function.update k.procs p { k.procs p with
      fdtable := Function.update (k.procs p).fdtable i o }) (g : Nat) :
    k'.fileRefs g + (if (k.procs p).fdtable i = some g then 1 else 0) =
      k.fileRefs g + (if o = some g then 1 else 0) := by
  have hself : k'.procs p = { k.procs p with
      fdtable := Function.update (k.procs p).fdtable i o } := by
    rw [hprocs, Function.update_self]
  have hlive' : k'.Live p := by
    rw [KState.Live, hself]
    exact hlive
  have hnew : k'.fdOwner (p, i) = o := by
    rw [fdOwner_live hlive', hself]
    exact Function.update_self i o (k.procs p).fdtable
  have hupdate := Owners.refs_update fdKeys k.fdOwner g (mem_fdKeys.mpr ⟨hp, hi⟩) hnew
    fun x _ hx => by
      obtain ⟨p', j⟩ := x
      by_cases hp' : p' = p
      · have hj : j ≠ i := fun hj => hx (by rw [hp', hj])
        rw [hp', fdOwner_live hlive', fdOwner_live hlive, hself]
        exact Function.update_of_ne hj _ _
      · unfold KState.fdOwner
        rw [hprocs, Function.update_of_ne hp']
  rw [fdOwner_live hlive] at hupdate
  exact hupdate

/-- OPEN: the counts stay right exactly if descriptor 0 was free, or nothing was opened. -/
theorem RefsRight.open (h : RefsRight k) (hlive : k.Live p) (hp : p < maxProc)
    (hcur : k.current = some p) {found : Prop} (hopen : Opening k p found r k') :
    RefsRight k' ↔ k.ZeroFree found := by
  have hzero : (0 : Nat) < maxOpenFile := by decide
  cases hopen with
  | @opened f x s fd hf free there one =>
    have hiff : k.ZeroFree found ↔ (k.procs p).fdtable 0 = none := by
      refine ⟨fun hz => hz p hcur fd ⟨f, hf, free⟩ there, fun hnone p' hp' _ _ _ => ?_⟩
      cases hcur.symm.trans hp'
      exact hnone
    obtain ⟨k₁, hk₁⟩ : ∃ k₁, k₁ = { k.setFile f x with fs := s }.setProc p { k.procs p with
      fdtable := Function.update (k.procs p).fdtable 0 (some f) } := ⟨_, rfl⟩
    have hrefs := fileRefs_setFd k₁ hlive hp hzero (by rw [hk₁]; rfl)
    have hcount : ∀ g, (k₁.filetable g).refcount =
        if g = f then 1 else (k.filetable g).refcount := fun g => by
      rw [hk₁, KState.setProc_filetable, KState.setFile_filetable]
      split
      · exact one
      · rfl
    have hf₀ : k.fileRefs f = 0 := by
      have := h f
      omega
    rw [hiff, ← hk₁]
    constructor
    · intro h'
      by_contra hne
      obtain ⟨g, hg⟩ := Option.ne_none_iff_exists'.mp hne
      -- the file that was open there keeps its count and loses the reference
      have hlost := hrefs g
      have hg' := h' g
      rw [hcount] at hg'
      rw [if_pos hg] at hlost
      by_cases hgf : g = f
      · subst hgf
        rw [if_pos rfl] at hlost hg'
        omega
      · rw [if_neg (by simpa using Ne.symm hgf)] at hlost
        rw [if_neg hgf, h g] at hg'
        omega
    · intro hnone g
      have hgain := hrefs g
      rw [hnone] at hgain
      rw [hcount]
      by_cases hgf : g = f
      · subst hgf
        simp only [reduceCtorEq, if_false, if_true] at hgain
        rw [if_pos rfl]
        omega
      · simp only [reduceCtorEq, if_false, Option.some.injEq, if_neg (Ne.symm hgf)] at hgain
        rw [if_neg hgf, h g]
        omega
  | noFd none =>
    refine ⟨fun _ p' hp' hfd => ?_, fun _ => h⟩
    cases hcur.symm.trans hp'
    exact absurd hfd none
  | noFile fd none => exact ⟨fun _ p' _ _ hfile => absurd hfile none, fun _ => h⟩
  | @notFound f x s fd hf free missing zero =>
    refine ⟨fun _ p' _ _ _ hfound => absurd hfound missing, fun _ => ?_⟩
    refine h.congr (fun g => ?_) fun _ => rfl
    rw [KState.setFile_filetable]
    split
    · next hg => rw [zero, hg, free]
    · rfl

/-- How `sys_close` comes out. -/
inductive Closing (k : KState) (p : Nat) (fd : Int) : Int → KState → Prop where
  | refused (none : ∀ f, 0 ≤ fd → fd < maxOpenFile → (k.procs p).fdtable fd.toNat ≠ some f) :
      Closing k p fd (-1) k
  | closed {f : Nat} (lo : 0 ≤ fd) (hi : fd < maxOpenFile)
      (isOpen : (k.procs p).fdtable fd.toNat = some f)
      (zero : int32 ((k.filetable f).refcount - 1) = 0) :
      Closing k p fd 0 ((k.setFile f { refcount := 0 }).setProc p { k.procs p with
        fdtable := Function.update (k.procs p).fdtable fd.toNat none })
  | shared {f : Nat} (lo : 0 ≤ fd) (hi : fd < maxOpenFile)
      (isOpen : (k.procs p).fdtable fd.toNat = some f)
      (rest : int32 ((k.filetable f).refcount - 1) ≠ 0) :
      Closing k p fd 0 (k.recount f (int32 ((k.filetable f).refcount - 1)))

theorem sysClose_run (hcur : k.current = some p) (fd : Int) :
    ∃ r k', sysClose fd k = .ok r k' ∧ Closing k p fd r k' := by
  unfold sysClose
  by_cases hbad : fd < 0 ∨ fd > maxOpenFile - 1
  · rw [if_pos hbad]
    exact ⟨-1, k, rfl, .refused fun f h1 h2 => by omega⟩
  · have hlo : 0 ≤ fd := by omega
    have hhi : fd < maxOpenFile := by omega
    rw [if_neg hbad, Act.bind_ok (currentProc_ok hcur), Act.gets_bind_apply]
    cases hf : (k.procs p).fdtable fd.toNat with
    | none => exact ⟨-1, k, rfl, .refused fun f _ _ h => by rw [hf] at h; cases h⟩
    | some f =>
      dsimp only
      have hset : setFile f (fun x => { x with refcount := int32 (x.refcount - 1) }) k =
          .ok () (k.recount f (int32 ((k.filetable f).refcount - 1))) := rfl
      rw [Act.bind_ok hset, Act.gets_bind_apply, KState.recount_refcount, if_pos rfl]
      by_cases hz : int32 ((k.filetable f).refcount - 1) = 0
      · refine ⟨0, _, ?_, .closed hlo hhi hf hz⟩
        rw [if_pos hz]
        unfold setFd
        rw [Act.bind_ok (setProc_apply _ _ _), Act.bind_ok (setFile_apply _ _ _), Act.pure_apply, hz]
        congr 1
        simp only [KState.recount, KState.setFile, KState.setProc, Function.update_self,
          Function.update_idem]
      · refine ⟨0, _, ?_, .shared hlo hhi hf hz⟩
        rw [if_neg hz]
        rfl

/-- CLOSE: the counts stay right exactly if the last reference goes, or none. -/
theorem RefsRight.close (h : RefsRight k) (hlive : k.Live p) (hp : p < maxProc)
    (hcur : k.current = some p) {fd : Int} (hclose : Closing k p fd r k') :
    RefsRight k' ↔ k.LastRef fd := by
  cases hclose with
  | refused none =>
    refine ⟨fun _ p' f hp' hlo hhi hf => ?_, fun _ => h⟩
    cases hcur.symm.trans hp'
    exact absurd hf (none f hlo hhi)
  | @closed f lo hi isOpen zero =>
    have hsmall := refs_small k.fdOwner f
    have hf := h f
    have hone : (k.filetable f).refcount = 1 := by
      rw [KState.fileRefs] at hf
      rw [int32_of_bounds (by omega) (by omega)] at zero
      omega
    refine ⟨fun _ p' f' hp' _ _ hf' => ?_, fun _ g => ?_⟩
    · cases hcur.symm.trans hp'
      cases isOpen.symm.trans hf'
      exact hone
    · obtain ⟨k₁, hk₁⟩ : ∃ k₁, k₁ = (k.setFile f { refcount := 0 }).setProc p { k.procs p with
        fdtable := Function.update (k.procs p).fdtable fd.toNat none } := ⟨_, rfl⟩
      have hrefs := fileRefs_setFd k₁ hlive hp (i := fd.toNat) (o := none) (by omega)
        (by rw [hk₁]; rfl) g
      rw [isOpen] at hrefs
      simp only [Option.some.injEq, reduceCtorEq, if_false, Nat.add_zero] at hrefs
      rw [← hk₁, show (k₁.filetable g).refcount = if g = f then 0 else (k.filetable g).refcount by
        rw [hk₁, KState.setProc_filetable, KState.setFile_filetable]; split <;> rfl]
      by_cases hg : g = f
      · subst hg
        rw [if_pos rfl] at hrefs ⊢
        rw [KState.fileRefs] at hf
        rw [KState.fileRefs, KState.fileRefs] at hrefs
        rw [KState.fileRefs]
        omega
      · rw [if_neg (Ne.symm hg), Nat.add_zero] at hrefs
        rw [if_neg hg, h g, hrefs]
  | @shared f lo hi isOpen rest =>
    have hsmall := refs_small k.fdOwner f
    have hf := h f
    have hne : (k.filetable f).refcount ≠ 1 := fun hone => rest (by rw [hone]; decide)
    refine ⟨fun h' => ?_, fun hlast => absurd (hlast p f hcur lo hi isOpen) hne⟩
    have hf' := h' f
    have hsame : (k.recount f (int32 ((k.filetable f).refcount - 1))).fileRefs f = k.fileRefs f :=
      rfl
    rw [KState.recount_refcount, if_pos rfl, hsame, ← hf] at hf'
    rw [KState.fileRefs] at hf
    rw [int32_of_bounds (by omega) (by omega)] at hf'
    omega

/-- The list of slots, the running process, and the counts. -/
structure FileInv (k : KState) : Prop where
  slots : ∃ l, SlotInv k l
  refs : RefsRight k

/-- What opens and closes leaves the slots alone. -/
theorem SlotInv.congr (h : SlotInv k l) (hhead : k'.procHead = k.procHead)
    (hcur : k'.current = k.current) (hlink : ∀ p, (k'.procs p).link = (k.procs p).link)
    (hstatus : ∀ p, (k'.procs p).status = (k.procs p).status)
    (hpid : ∀ p, (k'.procs p).pid = (k.procs p).pid) : SlotInv k' l := by
  refine ⟨h.toListed.congr hhead hlink hstatus hpid, fun {p} hp => ?_⟩
  rw [KState.Live, hstatus]
  exact h.current (hcur.symm.trans hp)

theorem SlotInv.setFd (h : SlotInv k l) (hhead : k'.procHead = k.procHead)
    (hcur : k'.current = k.current) {fds : Nat → Option Nat}
    (hprocs : k'.procs = Function.update k.procs p { k.procs p with fdtable := fds }) :
    SlotInv k' l := by
  have hproc : ∀ q, (k'.procs q).link = (k.procs q).link ∧
      (k'.procs q).status = (k.procs q).status ∧ (k'.procs q).pid = (k.procs q).pid := fun q => by
    rw [hprocs, Function.update_apply]
    split
    · next hq => exact ⟨by rw [hq], by rw [hq], by rw [hq]⟩
    · exact ⟨rfl, rfl, rfl⟩
  exact h.congr hhead hcur (fun q => (hproc q).1) (fun q => (hproc q).2.1) fun q => (hproc q).2.2

theorem Opening.slots {found : Prop} (hopen : Opening k p found r k') (h : SlotInv k l) :
    SlotInv k' l := by
  cases hopen with
  | opened fd hf free there one => exact h.setFd rfl rfl rfl
  | noFd none => exact h
  | noFile fd none => exact h
  | notFound fd hf free missing zero =>
    exact h.congr rfl rfl (fun _ => rfl) (fun _ => rfl) fun _ => rfl

theorem Closing.slots {fd : Int} (hclose : Closing k p fd r k') (h : SlotInv k l) :
    SlotInv k' l := by
  cases hclose with
  | refused none => exact h
  | closed lo hi isOpen zero => exact h.setFd rfl rfl rfl
  | shared lo hi isOpen rest =>
    exact h.congr rfl rfl (fun _ => rfl) (fun _ => rfl) fun _ => rfl

/-- Nothing opens or closes without a running process. -/
theorem currentProc_of_ok {α : Type} {x : Nat → Act KState α} {a : α}
    (hrun : (currentProc >>= x) k = .ok a k') : ∃ p, k.current = some p := by
  obtain ⟨p, k₁, hcur, -⟩ := Act.bind_eq_ok.mp hrun
  exact ⟨p, (currentProc_eq_ok.mp hcur).1⟩

theorem current_of_allocfd {α : Type} {x : Int → Act KState α} {a : α}
    (hrun : (allocfd >>= x) k = .ok a k') : ∃ p, k.current = some p := by
  obtain ⟨fd, k₁, hfd, -⟩ := Act.bind_eq_ok.mp hrun
  exact currentProc_of_ok hfd

theorem current_of_open {fname : Nat} {r : Int} (hrun : sysOpen fname k = .ok r k') :
    ∃ p, k.current = some p := by
  obtain ⟨u, k₁, hprint, hbody⟩ := Act.bind_eq_ok.mp hrun
  obtain ⟨-, hk⟩ := onMm_printStr_eq_ok hprint
  rw [hk] at hbody
  exact current_of_allocfd hbody

/-- STEP: an event keeps the slots in order, and the counts right exactly if it is counted. -/
theorem FileInv.step (h : FileInv k) {e : FileEvent} (hstep : fileStep k e k') :
    (∃ l, SlotInv k' l) ∧ (RefsRight k' ↔ e.Counted k) := by
  obtain ⟨⟨l, hslots⟩, hrefs⟩ := h
  cases e with
  | «open» fname =>
    obtain ⟨r, hrun⟩ := hstep
    obtain ⟨p, hcur⟩ := current_of_open hrun
    have hlive := hslots.current hcur
    obtain ⟨-, hopen⟩ := sysOpen_run hcur hrun
    exact ⟨⟨l, hopen.slots hslots⟩, hrefs.open hlive (hslots.live hlive) hcur hopen⟩
  | opencons =>
    obtain ⟨r, hrun⟩ := hstep
    obtain ⟨p, hcur⟩ := current_of_allocfd hrun
    have hlive := hslots.current hcur
    obtain ⟨r₁, k₁, hrun₁, hopen⟩ := sysOpencons_run hcur
    cases hrun.symm.trans hrun₁
    exact ⟨⟨l, hopen.slots hslots⟩, hrefs.open hlive (hslots.live hlive) hcur hopen⟩
  | close fd =>
    obtain ⟨r, hrun⟩ := hstep
    cases hcur : k.current with
    | none =>
      by_cases hbad : fd < 0 ∨ fd > maxOpenFile - 1
      · unfold sysClose at hrun
        rw [if_pos hbad] at hrun
        cases hrun
        exact ⟨⟨l, hslots⟩, fun _ p f _ _ _ _ => by omega, fun _ => hrefs⟩
      · unfold sysClose at hrun
        rw [if_neg hbad] at hrun
        obtain ⟨p, hp⟩ := currentProc_of_ok hrun
        cases hcur.symm.trans hp
    | some p =>
      have hlive := hslots.current hcur
      obtain ⟨r₁, k₁, hrun₁, hclose⟩ := sysClose_run hcur fd
      cases hrun.symm.trans hrun₁
      exact ⟨⟨l, hclose.slots hslots⟩, hrefs.close hlive (hslots.live hlive) hcur hclose⟩
  | slot e =>
    obtain ⟨l', hslots', -⟩ := hslots.step hstep
    refine ⟨⟨l', hslots'⟩, fun _ => trivial, fun _ => ?_⟩
    cases e with
    | create binary =>
      obtain ⟨q, hrun⟩ := hstep
      obtain ⟨hhead, k₁, hnew, rfl⟩ := createProc_eq_ok hrun
      obtain ⟨l₁, rfl⟩ := hslots.head hhead
      exact hrefs.create (hslots.free List.mem_cons_self).2 hnew
    | fork =>
      obtain ⟨r, hrun⟩ := hstep
      obtain ⟨p, q, hcur, hhead, hfork⟩ := sysFork_eq_ok hrun
      obtain ⟨l₁, rfl⟩ := hslots.head hhead
      obtain ⟨hq, hdead⟩ := hslots.free List.mem_cons_self
      exact hrefs.fork (hslots.current hcur) hdead hq hfork
    | exit =>
      obtain ⟨c, hrun⟩ := hstep
      cases hcur : k.current with
      | none =>
        cases (sysExit_idle hcur).symm.trans hrun
        exact hrefs
      | some p =>
        have hlive := hslots.current hcur
        exact hrefs.exit hlive (hslots.live hlive) (sysExit_eq_ok hcur hrun)
    | run p =>
      obtain ⟨hlive, hrun⟩ := hstep
      rw [runProc_ok] at hrun
      cases hrun
      refine hrefs.congr (fun f => ?_) fun x => ?_
      · rw [KState.running_filetable]
      · unfold KState.fdOwner
        rw [KState.running_procs]

/-- Without a reference the count is nought. -/
theorem RefsRight.zero (h : RefsRight k)
    (hnone : ∀ p i, p < maxProc → i < maxOpenFile → k.Live p → (k.procs p).fdtable i ≠ some f) :
    (k.filetable f).refcount = 0 := by
  rw [h f, Int.natCast_eq_zero]
  by_contra hne
  obtain ⟨⟨p, i⟩, hx, hown⟩ := Owners.refs_pos.mp (Nat.pos_of_ne_zero hne)
  obtain ⟨hp, hi⟩ := mem_fdKeys.mp hx
  by_cases hlive : k.Live p
  · rw [fdOwner_live hlive] at hown
    exact hnone p i hp hi hlive hown
  · rw [fdOwner_dead hlive] at hown
    cases hown

/-- What is free has no references. -/
theorem RefsRight.unreferenced (h : RefsRight k) (hz : (k.filetable f).refcount = 0) {i : Nat}
    (hp : p < maxProc) (hi : i < maxOpenFile) (hlive : k.Live p) :
    (k.procs p).fdtable i ≠ some f := fun hfd => by
  have hpos : 0 < k.fileRefs f :=
    Owners.refs_pos.mpr ⟨(p, i), mem_fdKeys.mpr ⟨hp, hi⟩, (fdOwner_live hlive).trans hfd⟩
  have := h f
  omega

theorem FileBooted.inv (h : FileBooted k) : FileInv k := by
  obtain ⟨⟨l, hslots, -⟩, hdead⟩ := h.1.inv
  refine ⟨⟨l, hslots⟩, fun f => ?_⟩
  have hzero : k.fileRefs f = 0 := by
    by_contra hne
    obtain ⟨⟨p, i⟩, -, hown⟩ := Owners.refs_pos.mp (Nat.pos_of_ne_zero hne)
    rw [fdOwner_dead (hdead p)] at hown
    cases hown
  rw [h.2, hzero]
  rfl

end Events

/-- THE COUNTS: in a run from the boot whose events are counted, every entry of
`filetable` counts the descriptors that point to it. So `allocfile` takes none
that a descriptor points to, and one that none points to is free. The next
event keeps the counts right exactly if it is counted too. -/
theorem open_file_refs {k₀ k : KState} {es : List FileEvent} (hboot : FileBooted k₀)
    (hrun : Steps (fun k e k' => e.Counted k ∧ fileStep k e k') k₀ es k) :
    RefsRight k ∧
      (∀ f k', allocfile k = .ok (some f) k' → ∀ p i, p < maxProc → i < maxOpenFile → k.Live p →
        (k.procs p).fdtable i ≠ some f) ∧
      (∀ f, (∀ p i, p < maxProc → i < maxOpenFile → k.Live p → (k.procs p).fdtable i ≠ some f) →
        (k.filetable f).refcount = 0) ∧
      ∀ e k', fileStep k e k' → (RefsRight k' ↔ e.Counted k) := by
  have hinv : FileInv k := by
    refine Steps.invariant FileInv ?_ hrun hboot.inv
    intro s e t hs hstep
    obtain ⟨hslots, hrefs⟩ := hs.step hstep.2
    exact ⟨hslots, hrefs.mpr hstep.1⟩
  refine ⟨hinv.refs, fun f k' halloc p i hp hi hlive => ?_, fun f hnone => hinv.refs.zero hnone,
    fun e k' hstep => (hinv.step hstep).2⟩
  rcases allocfile_run k with ⟨f', hf', hz, hrun'⟩ | ⟨-, hrun'⟩
  · cases halloc.symm.trans hrun'
    exact hinv.refs.unreferenced hz hp hi hlive
  · cases halloc.symm.trans hrun'

/-! ## Opening twice -/

/-- The first process opens the console: the counts are right, and descriptor 0 is taken. -/
theorem oneFrame_opencons : ∃ k₁ k₂ f, createProc (frameVa 0) oneFrameBooted = .ok 0 k₁ ∧
    (∃ r, sysOpencons k₁ = .ok r k₂) ∧ FileInv k₁ ∧ k₁.ZeroFree True ∧ k₂.current = some 0 ∧
    (k₂.procs 0).fdtable = Function.update (fun _ => none) 0 (some f) ∧
    ∀ g, g ≠ f → (k₂.filetable g).refcount = 0 := by
  obtain ⟨k₁, hcreate, -, -⟩ := oneFrame_create
  have hinv : FileInv oneFrameBooted := FileBooted.inv ⟨oneFrame_booted, fun _ => rfl⟩
  have hstep : fileStep oneFrameBooted (.slot (.create (frameVa 0))) k₁ := ⟨0, hcreate⟩
  obtain ⟨hslots, hrefs⟩ := hinv.step hstep
  obtain ⟨-, k, hnew, hrunning⟩ := createProc_eq_ok hcreate
  have hcur : k₁.current = some 0 := by
    rw [hrunning]
    exact KState.running_current k 0
  have hfds : (k₁.procs 0).fdtable = fun _ => none := by
    rw [hrunning, KState.running_procs, hnew.noFds]
  have hfiles : ∀ g, (k₁.filetable g).refcount = 0 := fun g => by
    rw [hrunning, KState.running_filetable, hnew.fds.filetable]
    rfl
  have hhas : k₁.HasFd 0 := ⟨1, by decide, by rw [hfds]⟩
  obtain ⟨r, k₂, hrun, hopen⟩ := sysOpencons_run hcur
  cases hopen with
  | @opened f x s fd hf free there one =>
    refine ⟨k₁, _, f, hcreate, ⟨_, hrun⟩, ⟨hslots, hrefs.mpr trivial⟩, fun p hp _ _ _ => ?_, hcur,
      ?_, fun g hg => ?_⟩
    · cases hcur.symm.trans hp
      rw [hfds]
    · rw [KState.setProc_self, hfds]
    · rw [KState.setProc_filetable, KState.setFile_filetable, if_neg hg]
      exact hfiles g
  | noFd none => exact absurd hhas none
  | noFile fd none => exact absurd ⟨0, by decide, hfiles 0⟩ none
  | notFound fd hf free missing zero => exact absurd trivial missing

/-- The second time descriptor 0 is overwritten, and its file keeps a count. -/
theorem open_file_refs_twice : ¬ ∀ k₀ es k, FileBooted k₀ → Steps fileStep k₀ es k →
    RefsRight k := by
  intro hall
  obtain ⟨k₁, k₂, f, hcreate, ⟨r, hopen⟩, hinv, hfree, hcur, hfds, hfiles⟩ := oneFrame_opencons
  have hstep₁ : fileStep oneFrameBooted (.slot (.create (frameVa 0))) k₁ := ⟨0, hcreate⟩
  have hstep₂ : fileStep k₁ .opencons k₂ := ⟨r, hopen⟩
  obtain ⟨r₃, k₃, hrun, -⟩ := sysOpencons_run hcur
  have hstep₃ : fileStep k₂ .opencons k₃ := ⟨r₃, hrun⟩
  obtain ⟨hslots, hrefs⟩ := hinv.step hstep₂
  have hinv₂ : FileInv k₂ := ⟨hslots, hrefs.mpr hfree⟩
  have hright := hall oneFrameBooted _ k₃ ⟨oneFrame_booted, fun _ => rfl⟩
    (.cons hstep₁ (.cons hstep₂ (.cons hstep₃ (.nil k₃))))
  have hfile : k₂.HasFile := by
    by_cases hf : f = 0
    · exact ⟨1, by decide, hfiles 1 (by omega)⟩
    · exact ⟨0, by decide, hfiles 0 (by omega)⟩
  have hzero := (hinv₂.step hstep₃).2.mp hright 0 hcur ⟨1, by decide, by rw [hfds]; rfl⟩ hfile
    trivial
  rw [hfds, Function.update_self] at hzero
  cases hzero

/-- The first process has the console open. -/
theorem open_file_refs_once : ∃ k es, Steps (fun k e k' => e.Counted k ∧ fileStep k e k')
    oneFrameBooted es k ∧ RefsRight k := by
  obtain ⟨k₁, k₂, f, hcreate, ⟨r, hopen⟩, -, hfree, -⟩ := oneFrame_opencons
  have hrun : Steps (fun k e k' => e.Counted k ∧ fileStep k e k') oneFrameBooted
      [.slot (.create (frameVa 0)), .opencons] k₂ :=
    .cons ⟨trivial, ⟨0, hcreate⟩⟩ (.cons ⟨hfree, ⟨r, hopen⟩⟩ (.nil k₂))
  exact ⟨k₂, _, hrun, (open_file_refs ⟨oneFrame_booted, fun _ => rfl⟩ hrun).1⟩

end Myos.Kernel
