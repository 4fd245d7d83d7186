import Myos.Lib.Run
import Myos.Kernel.Page

/-!
# The page cache

`kernel/cache.c`: 32 entries on a circular list with a sentinel, each with the
number of the block it holds, a reference count and a page. Entries are never
moved, so from `init_cache_page` on the list goes through the array, forwards
along `prev` and backwards along `next`.

`find_cache_page` starts its loop at the sentinel, where the loop ends.

The state has one ghost, `last`: the entry and the page of the last successful
`read_cache_page` of a block. It says what a lookup is to return.
-/

namespace Myos.Kernel

open Myos.Lib

/-- `MAXPAGECACHE`. -/
def maxpagecache : Nat := 32

/-- A `struct pagecache *` that is not null: `&pcachehead` or `&pcaches[i]`. -/
inductive Node where
  | head
  | entry (i : Nat)
deriving DecidableEq, Repr

/-- `struct pagecache`. -/
structure CacheEntry where
  blockno : Int
  refcount : Int
  status : Int
  pp : Option Nat
  next : Option Node
  prev : Option Node

/-- `UPTODATE`. -/
def uptodate : Int := 1

/-- `pcaches` and `pcachehead`, beside the page frames. -/
structure PageCache where
  mm : Mm
  pcaches : Nat → CacheEntry
  pcachehead : CacheEntry
  /-- Ghost: the entry and the page of the last successful read of a block. -/
  last : Int → Option (Nat × Nat)

namespace PageCache

/-- The structure a pointer points to. -/
def node (s : PageCache) : Node → CacheEntry
  | .head => s.pcachehead
  | .entry i => s.pcaches i

/-- A store to the structure. -/
def setNode (s : PageCache) : Node → CacheEntry → PageCache
  | .head, e => { s with pcachehead := e }
  | .entry i, e => { s with pcaches := Function.update s.pcaches i e }

@[simp] theorem setNode_entry (s : PageCache) (i : Nat) (e : CacheEntry) :
    s.setNode (.entry i) e = { s with pcaches := Function.update s.pcaches i e } := rfl

@[simp] theorem setNode_entry_head (s : PageCache) (i : Nat) (e : CacheEntry) :
    (s.setNode (.entry i) e).pcachehead = s.pcachehead := rfl

end PageCache

/-- The loop of `free_cache_page` from `pc` on, given up after so many turns. -/
def freeLoop (blockno : Int) : Nat → Option Node → Act PageCache Unit
  | 0, _ => Act.stop
  | n + 1, pc => do
    if pc = some .head then
      return ()
    else
      let pc ← Act.deref pc
      let e ← Act.gets fun s => s.node pc
      if e.blockno = blockno then
        Act.modify fun s => s.setNode pc { e with refcount := int32 (e.refcount - 1) }
      freeLoop blockno n e.next

/-- `free_cache_page`. -/
def freeCachePage (turns : Nat) (blockno : Int) : Act PageCache Unit := do
  freeLoop blockno turns (← Act.gets fun s => s.pcachehead.next)

/-- An entry given to a block. -/
def PageCache.assign (s : PageCache) (pc : Node) (blockno : Int) : PageCache :=
  let e := s.node pc
  s.setNode pc { e with blockno := blockno, refcount := int32 (e.refcount + 1) }

/-- The ghost after a read through an entry that returned `r`. -/
def PageCache.remember (s : PageCache) (pc : Node) (blockno : Int) (r : Option Nat) : PageCache :=
  match pc, r with
  | .entry i, some p => { s with last := Function.update s.last blockno (some (i, p)) }
  | _, _ => s

/-- The loop of `read_cache_page` from `pc` on, given up after so many turns. -/
def readLoop (blockno : Int) : Nat → Option Node → Act PageCache (Option Nat)
  | 0, _ => Act.stop
  | n + 1, pc => do
    if pc = some .head then
      return none
    else
      let pc ← Act.deref pc
      let e ← Act.gets fun s => s.node pc
      if e.refcount = 0 then
        Act.modify fun s => s.assign pc blockno
        Act.modify fun s => s.remember pc blockno e.pp
        return e.pp
      else
        readLoop blockno n e.prev

/-- `read_cache_page`. -/
def readCachePage (turns : Nat) (blockno : Int) : Act PageCache (Option Nat) := do
  readLoop blockno turns (← Act.gets fun s => s.pcachehead.prev)

/-- The loop of `find_cache_page` from `pc` on, given up after so many turns. -/
def lookLoop (blockno : Int) : Nat → Option Node → Act PageCache (Option Nat)
  | 0, _ => Act.stop
  | n + 1, pc => do
    if pc = some .head then
      return none
    else
      let pc ← Act.deref pc
      let e ← Act.gets fun s => s.node pc
      if e.blockno = blockno then return e.pp else lookLoop blockno n e.next

/-- `find_cache_page`: the loop starts at `&pcachehead`. -/
def findCachePage (turns : Nat) (blockno : Int) : Act PageCache (Option Nat) :=
  lookLoop blockno turns (some .head)

/-- A turn of `init_cache_page`, for `pc = &pcaches[i]`. -/
def initEntry (i : Nat) : Act PageCache Unit := do
  let next ← Act.gets fun s => s.pcachehead.next
  let pp ← Act.zoom PageCache.mm (fun m s => { s with mm := m }) (allocPage 0)
  Act.modify fun s => s.setNode (.entry i)
    { blockno := -1, refcount := 0, status := uptodate, pp := pp, next := next, prev := some .head }
  let first ← Act.deref (← Act.gets fun s => s.pcachehead.next)
  Act.modify fun s => s.setNode first { s.node first with prev := some (.entry i) }
  Act.modify fun s => s.setNode .head { s.pcachehead with next := some (.entry i) }

/-- The loop of `init_cache_page` from `i` on, with `n` turns to go. -/
def initEntries : Nat → Nat → Act PageCache Unit
  | 0, _ => pure ()
  | n + 1, i => do
    initEntry i
    initEntries n (i + 1)

/-- `init_cache_page`. -/
def initCachePage : Act PageCache Unit := do
  Act.modify fun s => s.setNode .head
    { s.pcachehead with next := some .head, prev := some .head }
  initEntries maxpagecache 0

/-! ## The list -/

/-- Where `next` leads to from the `i`-th entry: to the one put in before it. -/
def nodeBelow : Nat → Option Node
  | 0 => some .head
  | i + 1 => some (.entry i)

/-- Where `prev` leads to when the next entry would be the `i`-th of `n`. -/
def nodeAbove (n i : Nat) : Option Node := if i < n then some (.entry i) else some .head

/-- The first `n` entries are on the list, in the order of the array. -/
structure Linked (n : Nat) (s : PageCache) : Prop where
  headNext : s.pcachehead.next = nodeBelow n
  headPrev : s.pcachehead.prev = nodeAbove n 0
  next : ∀ {i}, i < n → (s.pcaches i).next = nodeBelow i
  prev : ∀ {i}, i < n → (s.pcaches i).prev = nodeAbove n (i + 1)

/-- An entry as `init_cache_page` leaves it. -/
def PageCache.Blank (s : PageCache) (i : Nat) : Prop :=
  (s.pcaches i).blockno = -1 ∧ (s.pcaches i).refcount = 0

section Init

variable {s : PageCache} {i n : Nat}

/-- Without `GFP_ZERO`, `alloc_page` always returns: the head of the free list. -/
theorem allocPage_plain (m : Mm) : ∃ m', allocPage 0 m = .ok m.phead m' := by
  unfold allocPage
  rw [Act.gets_bind_apply]
  cases m.phead with
  | none => exact ⟨_, rfl⟩
  | some p => exact ⟨_, rfl⟩

/-- TURN: one entry more on the list, and a blank one. -/
theorem initEntry_run (h : Linked i s) (hblank : ∀ j < i, s.Blank j) :
    ∃ t, initEntry i s = .ok () t ∧ Linked (i + 1) t ∧ (∀ j < i + 1, t.Blank j) ∧
      (t.pcaches i).pp = s.mm.phead ∧ ∀ j < i, (t.pcaches j).pp = (s.pcaches j).pp := by
  obtain ⟨m, hm⟩ := allocPage_plain s.mm
  have halloc : Act.zoom PageCache.mm (fun m s => { s with mm := m }) (allocPage 0) s =
      .ok s.mm.phead { s with mm := m } := Act.zoom_ok hm
  unfold initEntry
  rw [Act.gets_bind_apply, Act.bind_ok halloc, Act.modify_bind_apply, Act.gets_bind_apply]
  cases i with
  | zero =>
    have hfirst : s.pcachehead.next = some .head := h.headNext
    simp only [PageCache.setNode_entry_head, hfirst, Act.deref_bind_apply]
    refine ⟨_, rfl, ⟨rfl, rfl, fun {j} hj => ?_, fun {j} hj => ?_⟩, fun j hj => ?_, rfl,
      fun j hj => absurd hj (Nat.not_lt_zero j)⟩
    · obtain rfl : j = 0 := by omega
      rfl
    · obtain rfl : j = 0 := by omega
      rfl
    · obtain rfl : j = 0 := by omega
      exact ⟨rfl, rfl⟩
  | succ k =>
    have hfirst : s.pcachehead.next = some (.entry k) := h.headNext
    have hne : k ≠ k + 1 := by omega
    simp only [PageCache.setNode_entry_head, hfirst, Act.deref_bind_apply]
    -- the entry put in before, and the new one
    have hold : ∀ {e f : CacheEntry}, Function.update (Function.update s.pcaches (k + 1) e) k f k = f :=
      Function.update_self ..
    have hnew : ∀ {e f : CacheEntry}, Function.update (Function.update s.pcaches (k + 1) e) k f
        (k + 1) = e := by
      intro e f
      rw [Function.update_of_ne hne.symm, Function.update_self]
    have hrest : ∀ {e f : CacheEntry} {j}, j ≠ k → j ≠ k + 1 →
        Function.update (Function.update s.pcaches (k + 1) e) k f j = s.pcaches j := by
      intro e f j h1 h2
      rw [Function.update_of_ne h1, Function.update_of_ne h2]
    refine ⟨_, rfl, ⟨rfl, h.headPrev, fun {j} hj => ?_, fun {j} hj => ?_⟩, fun j hj => ?_, ?_,
      fun j hj => ?_⟩
    · show (Function.update (Function.update s.pcaches (k + 1) _) k _ j).next = _
      obtain rfl | rfl | hj' : j = k + 1 ∨ j = k ∨ j < k := by omega
      · rw [hnew]
        rfl
      · rw [hold]
        show (Function.update s.pcaches (j + 1) _ j).next = _
        rw [Function.update_of_ne hne]
        exact h.next (Nat.lt_succ_self j)
      · rw [hrest (by omega) (by omega)]
        exact h.next (by omega)
    · show (Function.update (Function.update s.pcaches (k + 1) _) k _ j).prev = _
      obtain rfl | rfl | hj' : j = k + 1 ∨ j = k ∨ j < k := by omega
      · rw [hnew, nodeAbove, if_neg (by omega)]
      · rw [hold, nodeAbove, if_pos (by omega)]
      · rw [hrest (by omega) (by omega), h.prev (by omega), nodeAbove, nodeAbove,
          if_pos (by omega), if_pos (by omega)]
    · show (Function.update (Function.update s.pcaches (k + 1) _) k _ j).blockno = -1 ∧
        (Function.update (Function.update s.pcaches (k + 1) _) k _ j).refcount = 0
      obtain rfl | rfl | hj' : j = k + 1 ∨ j = k ∨ j < k := by omega
      · rw [hnew]
        exact ⟨rfl, rfl⟩
      · rw [hold]
        show (Function.update s.pcaches (j + 1) _ j).blockno = -1 ∧
          (Function.update s.pcaches (j + 1) _ j).refcount = 0
        rw [Function.update_of_ne hne]
        exact hblank j (Nat.lt_succ_self j)
      · rw [hrest (by omega) (by omega)]
        exact hblank j (by omega)
    · show (Function.update (Function.update s.pcaches (k + 1) _) k _ (k + 1)).pp = _
      rw [hnew]
    · show (Function.update (Function.update s.pcaches (k + 1) _) k _ j).pp = _
      obtain rfl | hj' : j = k ∨ j < k := by omega
      · rw [hold]
        show (Function.update s.pcaches (j + 1) _ j).pp = _
        rw [Function.update_of_ne hne]
      · rw [hrest (by omega) (by omega)]

/-- The rest of the loop. -/
theorem initEntries_run (n : Nat) : ∀ {i : Nat} {s : PageCache}, Linked i s →
    (∀ j < i, s.Blank j) → ∃ t, initEntries n i s = .ok () t ∧ Linked (i + n) t ∧
      (∀ j < i + n, t.Blank j) ∧ ∀ j < i, (t.pcaches j).pp = (s.pcaches j).pp := by
  induction n with
  | zero => exact fun {i s} h hblank => ⟨s, rfl, h, hblank, fun _ _ => rfl⟩
  | succ n ih =>
    intro i s h hblank
    obtain ⟨t, ht, hlink, hblank', -, hpp⟩ := initEntry_run h hblank
    obtain ⟨u, hu, hlink', hblank'', hpp'⟩ := ih hlink hblank'
    have hn : i + (n + 1) = i + 1 + n := by omega
    refine ⟨u, ?_, hn ▸ hlink', hn ▸ hblank'', fun j hj => ?_⟩
    · unfold initEntries
      rw [Act.bind_ok ht, hu]
    · rw [hpp' j (by omega), hpp j hj]

/-- INIT: from any state on, all entries are on the list, and blank; the first
one has the first page of the free list. -/
theorem initCachePage_run (s : PageCache) : ∃ t, initCachePage s = .ok () t ∧
    Linked maxpagecache t ∧ (∀ i < maxpagecache, t.Blank i) ∧ (t.pcaches 0).pp = s.mm.phead := by
  have hempty : Linked 0 (s.setNode .head
      { s.pcachehead with next := some .head, prev := some .head }) :=
    ⟨rfl, rfl, fun hi => absurd hi (Nat.not_lt_zero _), fun hi => absurd hi (Nat.not_lt_zero _)⟩
  obtain ⟨t, ht, hlink, hblank, hpage, -⟩ :=
    initEntry_run hempty fun j hj => absurd hj (Nat.not_lt_zero j)
  obtain ⟨u, hu, hlink', hblank', hpp⟩ := initEntries_run 31 hlink hblank
  refine ⟨u, ?_, hlink', hblank', (hpp 0 (Nat.succ_pos 0)).trans hpage⟩
  unfold initCachePage
  rw [Act.modify_bind_apply, maxpagecache, initEntries, Act.bind_ok ht, hu]

end Init

/-! ## The calls on a linked cache -/

/-- The entries below the `n`-th that hold the block, with one reference less. -/
def PageCache.release (s : PageCache) (blockno : Int) (n : Nat) : PageCache :=
  { s with pcaches := fun i =>
      if i < n ∧ (s.pcaches i).blockno = blockno then
        { s.pcaches i with refcount := int32 ((s.pcaches i).refcount - 1) }
      else
        s.pcaches i }

/-- The state after a read through the `i`-th entry. -/
def PageCache.taken (s : PageCache) (i : Nat) (blockno : Int) : PageCache :=
  (s.assign (.entry i) blockno).remember (.entry i) blockno (s.pcaches i).pp

/-- An entry nobody uses. -/
def PageCache.Idle (s : PageCache) (i : Nat) : Prop := (s.pcaches i).refcount = 0

/-- The idle entry that comes first. -/
def PageCache.FirstIdle (s : PageCache) (i : Nat) : Prop :=
  i < maxpagecache ∧ s.Idle i ∧ ∀ j < i, ¬s.Idle j

/-- More turns than the list has entries. -/
def scanTurns : Nat := maxpagecache + 1

section Calls

variable {s : PageCache} {b : Int} {i j n : Nat}

theorem nodeAbove_of_lt (h : i < n) : nodeAbove n i = some (.entry i) := if_pos h

theorem nodeAbove_end : nodeAbove n n = some .head := if_neg (Nat.lt_irrefl n)

@[simp] theorem PageCache.taken_blockno (s : PageCache) (i : Nat) (b : Int) :
    ((s.taken i b).pcaches j).blockno = if j = i then b else (s.pcaches j).blockno := by
  have hassign : ((s.assign (.entry i) b).pcaches j).blockno =
      if j = i then b else (s.pcaches j).blockno := by
    unfold PageCache.assign
    rw [PageCache.setNode_entry]
    show (Function.update s.pcaches i _ j).blockno = _
    rw [Function.update_apply]
    split <;> rfl
  unfold PageCache.taken
  cases (s.pcaches i).pp <;> exact hassign

theorem PageCache.taken_last {p : Nat} (h : (s.pcaches i).pp = some p) :
    (s.taken i b).last = Function.update s.last b (some (i, p)) := by
  unfold PageCache.taken
  rw [h]
  rfl

theorem PageCache.FirstIdle.eq (hi : s.FirstIdle i) (hj : s.FirstIdle j) : i = j := by
  rcases Nat.lt_trichotomy i j with h | h | h
  · exact absurd hi.2.1 (hj.2.2 i h)
  · exact h
  · exact absurd hj.2.1 (hi.2.2 j h)

/-- The list and its links are as before. -/
theorem Linked.taken (h : Linked n s) : Linked n (s.taken i b) := by
  have hlinks : ∀ j, ((s.taken i b).pcaches j).next = (s.pcaches j).next ∧
      ((s.taken i b).pcaches j).prev = (s.pcaches j).prev := by
    intro j
    have hassign : ((s.assign (.entry i) b).pcaches j).next = (s.pcaches j).next ∧
        ((s.assign (.entry i) b).pcaches j).prev = (s.pcaches j).prev := by
      unfold PageCache.assign
      rw [PageCache.setNode_entry]
      show (Function.update s.pcaches i _ j).next = _ ∧ (Function.update s.pcaches i _ j).prev = _
      rw [Function.update_apply]
      split
      · next hj =>
        subst hj
        exact ⟨rfl, rfl⟩
      · exact ⟨rfl, rfl⟩
    unfold PageCache.taken
    cases (s.pcaches i).pp <;> exact hassign
  have hhead : (s.taken i b).pcachehead = s.pcachehead := by
    unfold PageCache.taken
    cases (s.pcaches i).pp <;> rfl
  refine ⟨?_, ?_, fun {j} hj => ?_, fun {j} hj => ?_⟩
  · rw [hhead, h.headNext]
  · rw [hhead, h.headPrev]
  · rw [(hlinks j).1, h.next hj]
  · rw [(hlinks j).2, h.prev hj]

theorem PageCache.release_zero (s : PageCache) (b : Int) : s.release b 0 = s := by
  have hnone : ∀ i, ¬(i < 0 ∧ (s.pcaches i).blockno = b) := fun i h => Nat.not_lt_zero i h.1
  unfold PageCache.release
  simp only [if_neg (hnone _)]

/-- The entry above loses a reference, and then those below. -/
theorem PageCache.release_held (hb : (s.pcaches n).blockno = b) :
    (s.setNode (.entry n) { s.pcaches n with refcount := int32 ((s.pcaches n).refcount - 1) }).release
      b n = s.release b (n + 1) := by
  unfold PageCache.release
  rw [PageCache.setNode_entry]
  simp only [PageCache.mk.injEq, and_true, true_and]
  funext i
  rw [Function.update_apply]
  rcases Nat.lt_trichotomy i n with h | rfl | h
  · simp only [if_neg (Nat.ne_of_lt h), h, Nat.lt_succ_of_lt h]
  · simp only [if_true, Nat.lt_irrefl, false_and, if_false, Nat.lt_succ_self, true_and, if_pos hb]
  · simp only [if_neg (Nat.ne_of_gt h), Nat.not_lt_of_gt h, show ¬i < n + 1 by omega, false_and,
      if_false]

/-- An entry of another block does not. -/
theorem PageCache.release_other (hb : (s.pcaches n).blockno ≠ b) :
    s.release b n = s.release b (n + 1) := by
  unfold PageCache.release
  simp only [PageCache.mk.injEq, and_true, true_and]
  funext i
  rcases Nat.lt_trichotomy i n with h | rfl | h
  · simp only [h, Nat.lt_succ_of_lt h]
  · simp only [hb, and_false, if_false]
  · simp only [Nat.not_lt_of_gt h, show ¬i < n + 1 by omega, false_and, if_false]

@[simp] theorem PageCache.release_blockno (s : PageCache) (b : Int) (n j : Nat) :
    ((s.release b n).pcaches j).blockno = (s.pcaches j).blockno := by
  unfold PageCache.release
  show (ite _ _ _ : CacheEntry).blockno = _
  split <;> rfl

theorem Linked.release (h : Linked n s) : Linked n (s.release b j) := by
  refine ⟨h.headNext, h.headPrev, fun {i} hi => ?_, fun {i} hi => ?_⟩
  · rw [← h.next hi]
    show (ite _ _ _ : CacheEntry).next = _
    split <;> rfl
  · rw [← h.prev hi]
    show (ite _ _ _ : CacheEntry).prev = _
    split <;> rfl

/-- From the `n`-th entry down, `free_cache_page` looks at every one. -/
theorem freeLoop_run (turns : Nat) : ∀ {n : Nat} {s : PageCache}, n < turns →
    (∀ i < n, (s.pcaches i).next = nodeBelow i) →
    freeLoop b turns (nodeBelow n) s = .ok () (s.release b n) := by
  induction turns with
  | zero => exact fun {n s} hn _ => absurd hn (Nat.not_lt_zero n)
  | succ turns ih =>
    intro n s hn hnext
    unfold freeLoop
    cases n with
    | zero =>
      rw [nodeBelow, if_pos rfl, PageCache.release_zero]
      rfl
    | succ k =>
      have hk : (s.pcaches k).next = nodeBelow k := hnext k (Nat.lt_succ_self k)
      rw [nodeBelow, if_neg (by simp), Act.deref_bind_apply, Act.gets_bind_apply]
      by_cases hb : (s.node (.entry k)).blockno = b
      · simp only [if_pos hb, Act.modify_bind_apply]
        refine (congrArg (freeLoop b turns · _) hk).trans ((ih (by omega) fun i hi => ?_).trans
          (congrArg (Res.ok ()) (PageCache.release_held hb)))
        rw [PageCache.setNode_entry]
        show (Function.update s.pcaches k _ i).next = _
        rw [Function.update_of_ne (Nat.ne_of_lt hi)]
        exact hnext i (by omega)
      · simp only [if_neg hb]
        rw [show (s.node (.entry k)).next = nodeBelow k from hk,
          ih (by omega) fun i hi => hnext i (by omega), PageCache.release_other hb]

/-- From the `i`-th entry up, `read_cache_page` takes the first idle one. -/
theorem readLoop_idle (h : Linked n s) (turns : Nat) : ∀ {i : Nat}, i ≤ j → j < n → n - i < turns →
    s.Idle j → (∀ k, i ≤ k → k < j → ¬s.Idle k) →
    readLoop b turns (nodeAbove n i) s = .ok (s.pcaches j).pp (s.taken j b) := by
  induction turns with
  | zero => exact fun {i} _ _ ht => absurd ht (Nat.not_lt_zero _)
  | succ turns ih =>
    intro i hij hjn ht hidle hbusy
    unfold readLoop
    rw [nodeAbove_of_lt (by omega), if_neg (by simp), Act.deref_bind_apply, Act.gets_bind_apply]
    rcases Nat.eq_or_lt_of_le hij with rfl | hlt
    · simp only [if_pos (show (s.node (.entry i)).refcount = 0 from hidle)]
      rfl
    · have hskip : ¬(s.node (.entry i)).refcount = 0 := hbusy i (Nat.le_refl i) hlt
      simp only [if_neg hskip]
      rw [show (s.node (.entry i)).prev = nodeAbove n (i + 1) from h.prev (by omega)]
      exact ih hlt hjn (by omega) hidle fun k hk => hbusy k (by omega)

/-- From the `i`-th entry up there is no idle one. -/
theorem readLoop_busy (h : Linked n s) (turns : Nat) : ∀ {i : Nat}, i ≤ n → n - i < turns →
    (∀ k, i ≤ k → k < n → ¬s.Idle k) → readLoop b turns (nodeAbove n i) s = .ok none s := by
  induction turns with
  | zero => exact fun {i} _ ht => absurd ht (Nat.not_lt_zero _)
  | succ turns ih =>
    intro i hin ht hbusy
    unfold readLoop
    rcases Nat.eq_or_lt_of_le hin with rfl | hlt
    · rw [nodeAbove_end, if_pos rfl]
      rfl
    · rw [nodeAbove_of_lt hlt, if_neg (by simp), Act.deref_bind_apply, Act.gets_bind_apply]
      have hskip : ¬(s.node (.entry i)).refcount = 0 := hbusy i (Nat.le_refl i) hlt
      simp only [if_neg hskip]
      rw [show (s.node (.entry i)).prev = nodeAbove n (i + 1) from h.prev hlt]
      exact ih hlt (by omega) fun k hk => hbusy k (by omega)

/-- FREE: the block's entries lose a reference. -/
theorem freeCachePage_run (h : Linked maxpagecache s) :
    freeCachePage scanTurns b s = .ok () (s.release b maxpagecache) := by
  unfold freeCachePage
  rw [Act.gets_bind_apply, h.headNext]
  exact freeLoop_run scanTurns (Nat.lt_succ_self _) fun i => h.next

/-- READ: the first idle entry is given to the block. -/
theorem readCachePage_idle (h : Linked maxpagecache s) (hi : s.FirstIdle i) :
    readCachePage scanTurns b s = .ok (s.pcaches i).pp (s.taken i b) := by
  unfold readCachePage
  rw [Act.gets_bind_apply, h.headPrev]
  exact readLoop_idle h scanTurns (Nat.zero_le i) hi.1 (Nat.lt_succ_self _) hi.2.1
    fun k _ hk => hi.2.2 k hk

/-- READ: or there is none. -/
theorem readCachePage_busy (h : Linked maxpagecache s) (hbusy : ∀ i < maxpagecache, ¬s.Idle i) :
    readCachePage scanTurns b s = .ok none s := by
  unfold readCachePage
  rw [Act.gets_bind_apply, h.headPrev]
  exact readLoop_busy h scanTurns (Nat.zero_le _) (Nat.lt_succ_self _) fun k _ => hbusy k

/-- FIND: the loop ends where it starts. -/
theorem findCachePage_run : findCachePage scanTurns b s = .ok none s := rfl

/-- There is a first idle entry, or none. -/
theorem PageCache.idle_or_busy (s : PageCache) :
    (∃ i, s.FirstIdle i) ∨ ∀ i < maxpagecache, ¬s.Idle i := by
  by_cases h : ∃ i, i < maxpagecache ∧ s.Idle i
  · classical
    refine .inl ⟨Nat.find h, (Nat.find_spec h).1, (Nat.find_spec h).2, fun j hj hidle => ?_⟩
    exact Nat.find_min h hj ⟨Nat.lt_trans hj (Nat.find_spec h).1, hidle⟩
  · exact .inr fun i hi hidle => h ⟨i, hi, hidle⟩

end Calls

/-! ## Call after call -/

/-- A call with what it returned. -/
inductive CacheOp where
  | init
  | read (blockno : Int) (pp : Option Nat)
  | find (blockno : Int) (pp : Option Nat)
  | free (blockno : Int)

/-- The call returns, and leaves the cache as `t`. -/
def CacheStep (s : PageCache) : CacheOp → PageCache → Prop
  | .init, t => initCachePage s = .ok () t
  | .read b pp, t => 0 ≤ b ∧ readCachePage scanTurns b s = .ok pp t
  | .find b pp, t => 0 ≤ b ∧ findCachePage scanTurns b s = .ok pp t
  | .free b, t => 0 ≤ b ∧ freeCachePage scanTurns b s = .ok () t

/-- The blocks a caller has looked up in vain, and has not read since. -/
def CacheOp.missed (A : Int → Prop) : CacheOp → Int → Prop
  | .find b pp, c => if c = b then pp = none else A c
  | .read b _, c => c ≠ b ∧ A c
  | _, c => A c

/-- A caller's step: it reads a block only after it looked for it in vain. -/
def callStep (s : PageCache × (Int → Prop)) (e : CacheOp) (t : PageCache × (Int → Prop)) : Prop :=
  (∀ {b pp}, e = .read b pp → s.2 b) ∧ t.2 = e.missed s.2 ∧ CacheStep s.1 e t.1

/-- No block is held twice. -/
def PageCache.Unique (s : PageCache) : Prop :=
  ∀ {i j}, i < maxpagecache → j < maxpagecache → 0 ≤ (s.pcaches i).blockno →
    (s.pcaches i).blockno = (s.pcaches j).blockno → i = j

/-- What a call is to do: a lookup returns the page of the last read while its
entry still is the block's, an entry in use stays its block's, and a read fails
only when all are in use. -/
structure CacheRight (s : PageCache) (e : CacheOp) (t : PageCache) : Prop where
  unique : t.Unique
  found : ∀ {b pp i p}, e = .find b pp → s.last b = some (i, p) → i < maxpagecache →
    (s.pcaches i).blockno = b → pp = some p
  kept : e ≠ .init → ∀ {i}, i < maxpagecache → 0 < (s.pcaches i).refcount →
    (t.pcaches i).blockno = (s.pcaches i).blockno
  full : ∀ {b}, e = .read b none → ∀ {i}, i < maxpagecache → 0 < (s.pcaches i).refcount

/-- The block looked for is in no entry. The first idle entry, from which a
read takes the page, has one; without an idle entry no count is negative. -/
def CacheOp.Meets (s : PageCache) : CacheOp → Prop
  | .find b _ => ∀ i < maxpagecache, (s.pcaches i).blockno ≠ b
  | .read _ _ => (∃ i, s.FirstIdle i ∧ (s.pcaches i).pp ≠ none) ∨
      ∀ i < maxpagecache, 0 < (s.pcaches i).refcount
  | _ => True

/-- The list is as `init_cache_page` made it, an entry's block was last read
through it, and the blocks looked up in vain are in no entry. -/
structure CacheInv (s : PageCache × (Int → Prop)) : Prop where
  linked : Linked maxpagecache s.1
  held : ∀ {i}, i < maxpagecache → 0 ≤ (s.1.pcaches i).blockno →
    ∃ p, s.1.last (s.1.pcaches i).blockno = some (i, p)
  missing : ∀ {b i}, 0 ≤ b → s.2 b → i < maxpagecache → (s.1.pcaches i).blockno ≠ b

section Runs

variable {s t : PageCache × (Int → Prop)} {e : CacheOp} {es : List CacheOp} {b : Int}

theorem CacheInv.unique (h : CacheInv s) : s.1.Unique := by
  intro i j hi hj hb hij
  obtain ⟨p, hp⟩ := h.held hi hb
  obtain ⟨q, hq⟩ := h.held hj (hij ▸ hb)
  rw [← hij, hp] at hq
  cases hq
  rfl

/-- What a read does: the first idle entry is the block's, or nothing changes. -/
theorem CacheInv.read_cases (h : CacheInv s) {pp : Option Nat} {u : PageCache}
    (hrun : readCachePage scanTurns b s.1 = .ok pp u) :
    (∃ i, s.1.FirstIdle i ∧ pp = (s.1.pcaches i).pp ∧ u = s.1.taken i b) ∨
      (∀ i < maxpagecache, ¬s.1.Idle i) ∧ pp = none ∧ u = s.1 := by
  rcases s.1.idle_or_busy with ⟨i, hi⟩ | hbusy
  · rw [readCachePage_idle h.linked hi] at hrun
    cases hrun
    exact .inl ⟨i, hi, rfl, rfl⟩
  · rw [readCachePage_busy h.linked hbusy] at hrun
    cases hrun
    exact .inr ⟨hbusy, rfl, rfl⟩

/-- From `init_cache_page` on. -/
theorem CacheInv.of_init {s t : PageCache} {A : Int → Prop} (h : initCachePage s = .ok () t) :
    CacheInv (t, A) := by
  obtain ⟨t', ht, hlink, hblank, -⟩ := initCachePage_run s
  rw [h] at ht
  cases ht
  refine ⟨hlink, fun {i} hi hb => ?_, fun {b i} hb _ hi heq => ?_⟩
  · have hneg : (t.pcaches i).blockno = -1 := (hblank i hi).1
    change 0 ≤ (t.pcaches i).blockno at hb
    omega
  · have hneg : (t.pcaches i).blockno = -1 := (hblank i hi).1
    change (t.pcaches i).blockno = b at heq
    omega

/-- FIND: nothing changes. -/
theorem CacheInv.find (h : CacheInv s) {pp : Option Nat}
    (hmeets : ∀ i < maxpagecache, (s.1.pcaches i).blockno ≠ b) :
    CacheInv (s.1, (CacheOp.find b pp).missed s.2) := by
  refine ⟨h.linked, h.held, fun {c i} hc hmiss hi => ?_⟩
  change if c = b then pp = none else s.2 c at hmiss
  by_cases hcb : c = b
  · rw [hcb]
    exact hmeets i hi
  · rw [if_neg hcb] at hmiss
    exact h.missing hc hmiss hi

/-- READ: the entry is the block's, which was in none. -/
theorem CacheInv.taken (h : CacheInv s) {i p : Nat} {pp : Option Nat} (hb : 0 ≤ b) (hmiss : s.2 b)
    (hp : (s.1.pcaches i).pp = some p) :
    CacheInv (s.1.taken i b, (CacheOp.read b pp).missed s.2) := by
  refine ⟨h.linked.taken, fun {j} hj hheld => ?_, fun {c j} hc hmiss' hj => ?_⟩
  · dsimp only at hheld ⊢
    rw [PageCache.taken_last hp]
    rw [PageCache.taken_blockno] at hheld ⊢
    by_cases hji : j = i
    · rw [if_pos hji, Function.update_self, hji]
      exact ⟨p, rfl⟩
    · rw [if_neg hji] at hheld ⊢
      rw [Function.update_of_ne (h.missing hb hmiss hj)]
      exact h.held hj hheld
  · dsimp only
    rw [PageCache.taken_blockno]
    by_cases hji : j = i
    · rw [if_pos hji]
      exact fun heq => hmiss'.1 heq.symm
    · rw [if_neg hji]
      exact h.missing hc hmiss'.2 hj

/-- FREE: only counts change. -/
theorem CacheInv.release (h : CacheInv s) : CacheInv (s.1.release b maxpagecache, s.2) := by
  refine ⟨h.linked.release, fun {i} hi hheld => ?_, fun {c i} hc hmiss hi => ?_⟩
  · dsimp only at hheld ⊢
    rw [PageCache.release_blockno] at hheld ⊢
    exact h.held hi hheld
  · dsimp only
    rw [PageCache.release_blockno]
    exact h.missing hc hmiss hi

/-- STEP: a call that meets the condition keeps the invariant. -/
theorem CacheInv.step (h : CacheInv s) (hstep : callStep s e t) (hmeets : e.Meets s.1) :
    CacheInv t := by
  obtain ⟨hcall, hmissed, hrun⟩ := hstep
  obtain ⟨u, A⟩ := t
  dsimp only at hmissed hrun
  subst hmissed
  cases e with
  | init => exact CacheInv.of_init hrun
  | find b pp =>
    obtain ⟨-, hrun⟩ := hrun
    rw [findCachePage_run] at hrun
    cases hrun
    exact h.find hmeets
  | read b pp =>
    obtain ⟨hb, hrun⟩ := hrun
    rcases h.read_cases hrun with ⟨i, hi, -, rfl⟩ | ⟨hbusy, -, rfl⟩
    · rcases hmeets with ⟨j, hj, hpage⟩ | hall
      · rw [← hi.eq hj] at hpage
        obtain ⟨p, hp⟩ := Option.ne_none_iff_exists'.mp hpage
        exact h.taken hb (hcall rfl) hp
      · have hpos := hall i hi.1
        rw [show (s.1.pcaches i).refcount = 0 from hi.2.1] at hpos
        exact absurd hpos (Int.lt_irrefl 0)
    · exact ⟨h.linked, h.held, fun hc hmiss' hi => h.missing hc hmiss'.2 hi⟩
  | free b =>
    obtain ⟨-, hrun⟩ := hrun
    rw [freeCachePage_run h.linked] at hrun
    cases hrun
    exact h.release

/-- RETURNS: after `init_cache_page` every call returns. -/
theorem CacheInv.returns (h : CacheInv s) (b : Int) :
    (∃ t, initCachePage s.1 = .ok () t) ∧ (∃ pp t, readCachePage scanTurns b s.1 = .ok pp t) ∧
      (∃ pp t, findCachePage scanTurns b s.1 = .ok pp t) ∧
      ∃ t, freeCachePage scanTurns b s.1 = .ok () t := by
  refine ⟨?_, ?_, ⟨_, _, findCachePage_run⟩, ⟨_, freeCachePage_run h.linked⟩⟩
  · obtain ⟨t, ht, -⟩ := initCachePage_run s.1
    exact ⟨t, ht⟩
  · rcases s.1.idle_or_busy with ⟨i, hi⟩ | hbusy
    · exact ⟨_, _, readCachePage_idle h.linked hi⟩
    · exact ⟨_, _, readCachePage_busy h.linked hbusy⟩

/-- KEPT: only an idle entry is given to another block. -/
theorem CacheInv.kept (h : CacheInv s) {u : PageCache} (hrun : CacheStep s.1 e u) (he : e ≠ .init)
    {i : Nat} (hi : ¬s.1.Idle i) : (u.pcaches i).blockno = (s.1.pcaches i).blockno := by
  cases e with
  | init => exact absurd rfl he
  | find b pp =>
    obtain ⟨-, hrun⟩ := hrun
    rw [findCachePage_run] at hrun
    cases hrun
    rfl
  | read b pp =>
    obtain ⟨-, hrun⟩ := hrun
    rcases h.read_cases hrun with ⟨j, hj, -, rfl⟩ | ⟨-, -, rfl⟩
    · rw [PageCache.taken_blockno, if_neg]
      rintro rfl
      exact hi hj.2.1
    · rfl
  | free b =>
    obtain ⟨-, hrun⟩ := hrun
    rw [freeCachePage_run h.linked] at hrun
    cases hrun
    rw [PageCache.release_blockno]

/-- FULL: a read that the condition allows fails only if all entries are in use. -/
theorem CacheInv.full (h : CacheInv s) {u : PageCache}
    (hrun : readCachePage scanTurns b s.1 = .ok none u)
    (hmeets : CacheOp.Meets s.1 (.read b none)) {i : Nat} (hi : i < maxpagecache) :
    0 < (s.1.pcaches i).refcount := by
  rcases hmeets with ⟨j, hj, hpage⟩ | hall
  · rw [readCachePage_idle h.linked hj] at hrun
    injection hrun with hpp
    exact absurd hpp hpage
  · exact hall i hi

/-- CALL: it does what it is to do exactly if the condition is met. -/
theorem CacheInv.right_iff (h : CacheInv s) (hstep : callStep s e t) :
    CacheRight s.1 e t.1 ↔ e.Meets s.1 := by
  constructor
  · intro hright
    cases e with
    | init => trivial
    | free b => trivial
    | find b pp =>
      obtain ⟨hb, hrun⟩ := hstep.2.2
      rw [findCachePage_run] at hrun
      intro i hi hheld
      obtain ⟨p, hp⟩ := h.held hi (hheld ▸ hb)
      cases hright.found rfl (hheld ▸ hp) hi hheld
      cases hrun
    | read b pp =>
      obtain ⟨-, hrun⟩ := hstep.2.2
      rcases h.read_cases hrun with ⟨i, hi, hpp, -⟩ | ⟨-, rfl, -⟩
      · cases hp : (s.1.pcaches i).pp with
        | none =>
          rw [hp] at hpp
          subst hpp
          exact .inr fun i => hright.full rfl
        | some p => exact .inl ⟨i, hi, by simp [hp]⟩
      · exact .inr fun i => hright.full rfl
  · intro hmeets
    have hinv := h.step hstep hmeets
    obtain ⟨-, -, hrun⟩ := hstep
    refine ⟨hinv.unique, fun {b pp i p} he _ hi hheld => ?_, fun he {i} _ hpos => ?_,
      fun {b} he {i} hi => ?_⟩
    · subst he
      exact absurd hheld (hmeets i hi)
    · exact h.kept hrun he fun hidle => Int.lt_irrefl 0 (hidle ▸ hpos)
    · subst he
      exact h.full hrun.2 hmeets hi

/-- From `init_cache_page` on a caller's calls all do what they are to do,
exactly if each of them meets the condition. -/
theorem page_cache_iff (s : PageCache) (es : List CacheOp) (t : PageCache × (Int → Prop)) :
    Steps (fun s e t => callStep s e t ∧ CacheRight s.1 e t.1) (s, fun _ => False) (.init :: es) t ↔
      Steps (fun s e t => callStep s e t ∧ e.Meets s.1) (s, fun _ => False) (.init :: es) t := by
  have hrest : ∀ {u}, CacheInv u →
      (Steps (fun s e t => callStep s e t ∧ CacheRight s.1 e t.1) u es t ↔
        Steps (fun s e t => callStep s e t ∧ e.Meets s.1) u es t) := fun hu =>
    Steps.congr CacheInv (fun h => and_congr_right fun hstep => h.right_iff hstep)
      (fun h hstep => h.step hstep.1 hstep.2) hu
  constructor
  · intro h
    obtain ⟨u, ⟨hstep, -⟩, htail⟩ := h.of_cons
    exact .cons ⟨hstep, trivial⟩ ((hrest (CacheInv.of_init hstep.2.2)).mp htail)
  · intro h
    obtain ⟨u, ⟨hstep, -⟩, htail⟩ := h.of_cons
    have hu : CacheInv u := CacheInv.of_init hstep.2.2
    refine .cons ⟨hstep, hu.unique, fun he => ?_, fun he => absurd rfl he, fun he => ?_⟩
      ((hrest hu).mpr htail)
    · cases he
    · cases he

/-- The cache and 63 free frames, before the first call. -/
def bootCache : PageCache where
  mm :=
    { mem := fun _ => 0
      pages := fun i => { link := if i + 1 < 64 then some (i + 1) else none }
      phead := some 1
      npages := 64
      kusedMem := 0
      pagesVa := 0
      cr3 := 0
      starved := false }
  pcaches := fun _ => ⟨0, 0, 0, none, none, none⟩
  pcachehead := ⟨0, 0, 0, none, none, none⟩
  last := fun _ => none

/-- Block 5 was read into page 1, and the next lookup does not find it. -/
theorem page_cache_lookup : ¬ ∀ (s : PageCache) (es : List CacheOp) (t : PageCache × (Int → Prop)),
    Steps callStep (s, fun _ => False) (.init :: es) t →
      Steps (fun s e t => callStep s e t ∧ CacheRight s.1 e t.1) (s, fun _ => False)
        (.init :: es) t := by
  intro h
  obtain ⟨t, ht, hlink, hblank, hpage⟩ := initCachePage_run bootCache
  have hidle : t.FirstIdle 0 :=
    ⟨by decide, (hblank 0 (by decide)).2, fun j hj => absurd hj (Nat.not_lt_zero j)⟩
  have hinit : callStep (bootCache, fun _ => False) .init (t, fun _ => False) :=
    ⟨(nomatch ·), rfl, ht⟩
  have hfind : ∀ u A, callStep (u, A) (.find 5 none) (u, (CacheOp.find 5 none).missed A) :=
    fun u A => ⟨(nomatch ·), rfl, by decide, findCachePage_run⟩
  have hmiss : (CacheOp.find 5 none).missed (fun _ => False) 5 := by
    rw [CacheOp.missed, if_pos rfl]
  have hread : ∀ A : Int → Prop, A 5 → callStep (t, A) (.read 5 (some 1))
      (t.taken 0 5, (CacheOp.read 5 (some 1)).missed A) := by
    refine fun A hA => ⟨fun he => ?_, rfl, by decide, ?_⟩
    · cases he
      exact hA
    · rw [readCachePage_idle hlink hidle, hpage]
      rfl
  have hrun := Steps.cons hinit (.cons (hfind t _) (.cons (hread _ hmiss)
    (.cons (hfind _ _) (.nil _))))
  obtain ⟨u₁, ⟨h₁, -⟩, hrest⟩ := (h _ _ _ hrun).of_cons
  obtain ⟨u₂, ⟨h₂, -⟩, hrest⟩ := hrest.of_cons
  obtain ⟨u₃, ⟨h₃, -⟩, hrest⟩ := hrest.of_cons
  obtain ⟨u₄, ⟨-, hright⟩, -⟩ := hrest.of_cons
  have h₁' : initCachePage bootCache = .ok () u₁.1 := h₁.2.2
  rw [ht] at h₁'
  injection h₁' with _ h₁'
  obtain ⟨-, h₂'⟩ : 0 ≤ (5 : Int) ∧ findCachePage scanTurns 5 u₁.1 = .ok none u₂.1 := h₂.2.2
  rw [findCachePage_run] at h₂'
  injection h₂' with _ h₂'
  obtain ⟨-, h₃'⟩ : 0 ≤ (5 : Int) ∧ readCachePage scanTurns 5 u₂.1 = .ok (some 1) u₃.1 := h₃.2.2
  rw [← h₂', ← h₁', readCachePage_idle hlink hidle] at h₃'
  injection h₃' with _ h₃'
  have hfound := @hright.found 5 none 0 1 rfl ?_ (by decide) ?_
  · cases hfound
  · rw [← h₃', PageCache.taken_last (hpage.trans rfl), Function.update_self]
  · rw [← h₃', PageCache.taken_blockno, if_pos rfl]

end Runs

end Myos.Kernel
