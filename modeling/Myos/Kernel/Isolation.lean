import Myos.Kernel.Fault
import Myos.Kernel.PageMap

/-!
# What a fault may reach

The page-fault case of `do_trap` for any address and any error code. Its
walk leaves the tables of the lower half alone exactly if the address is in
the lower half: the handler never looks at bit 47 of `cr2`, and an address in
the upper half leads it through `pgdir[511]` into the kernel's own tables, or
into a 2 MB page it takes for one.

`Isolated` is what the other processes and the kernel may rely on. The steps
of the handler — tables are created, bytes of a fresh frame written, a
reference let go, a leaf set — each keep it as long as the walk stays among
the tables it started in (`Reaches`).
-/

namespace Myos.Kernel

open Myos.Lib

/-! ## The processor's walk of one directory -/

section Walk

variable {R : Type*} {ok : Nat → Prop} {top : Nat} {root : R → Option Nat} {r : R}
variable {s : Mm} {g n va o cr3 : Nat} {m : Mem} {a : Access}

/-- A page is translated as a whole. -/
theorem mmu_add (hpage : va % pageSize = 0) (ho : o < pageSize) :
    mmu m cr3 (va + o) a = match mmu m cr3 va a with
      | .ok pa => .ok (pa + o)
      | x => x := by
  have hsame : (va + o) / pageSize = va / pageSize := by
    unfold pageSize at *
    omega
  obtain ⟨h4, h3, h2, h1⟩ := indices_of_page_eq hsame
  have hcanon : canonical (va + o) = canonical va := by
    unfold canonical
    unfold pageSize at hpage ho
    have e1 : va + o < 2 ^ 47 ↔ va < 2 ^ 47 := by omega
    have e2 : 2 ^ 64 - 2 ^ 47 ≤ va + o ↔ 2 ^ 64 - 2 ^ 47 ≤ va := by omega
    have e3 : va + o < 2 ^ 64 ↔ va < 2 ^ 64 := by omega
    simp only [e1, e2, e3]
  have hmod : ∀ k, (va + o) % (pageSize * 2 ^ k) = va % (pageSize * 2 ^ k) + o := by
    intro k
    have hpos : 0 < 2 ^ k := Nat.two_pow_pos k
    rw [Nat.mod_mul, Nat.mod_mul, hsame, hpage]
    have : (va + o) % pageSize = o := by
      unfold pageSize at *
      omega
    rw [this]
    omega
  have hxlate : ∀ k allowed e, Xlate.page (pageSize * 2 ^ k) allowed e (va + o) =
      match Xlate.page (pageSize * 2 ^ k) allowed e va with
      | .ok pa => .ok (pa + o)
      | x => x := by
    intro k allowed e
    unfold Xlate.page
    rw [hmod k]
    cases allowed with
    | true => simp only [if_true, Nat.add_assoc]
    | false => rfl
  have h0 : pageSize = pageSize * 2 ^ 0 := rfl
  have h9 : (2 : Nat) ^ 21 = pageSize * 2 ^ 9 := rfl
  have h18 : (2 : Nat) ^ 30 = pageSize * 2 ^ 18 := rfl
  unfold mmu
  rw [hcanon, h4, h3, h2, h1]
  split
  · rfl
  · simp only
    split
    · rfl
    · split
      · rfl
      · split
        · rw [h18]
          exact hxlate 18 _ _
        · split
          · rfl
          · split
            · rw [h9]
              exact hxlate 9 _ _
            · split
              · rfl
              · exact hxlate 0 _ _

/-- The walk depends on the tables. -/
theorem mmu_congr (va : Nat) (ht : Tables ok top s root) (hn : ¬ IsTable top s.mem root n)
    (hroot : root r = some g) (hpml : pmlIndex va < top)
    (hm : ∀ f o, f ≠ n → o < pageSize → m (pageSize * f + o) = s.mem (pageSize * f + o)) :
    mmu m (pageSize * g) va a = mmu s.mem (pageSize * g) va a := by
  have hentry : ∀ {path f i}, TablePath top path → tableAt s.mem root r path = some f →
      i < 512 → Mem.entry m f i = Mem.entry s.mem f i := fun hp hf hi =>
    Mem.entry_congr hi fun o ho => hm _ o (fun hfn => hn (hfn ▸ ⟨r, _, hp, hf⟩)) ho
  have hnext : ∀ {path f i}, TablePath top (path ++ [i]) → tableAt s.mem root r path = some f →
      ¬ (Mem.entry s.mem f i &&& pteP = 0) →
        tableAt s.mem root r (path ++ [i]) = some (entryFrame (Mem.entry s.mem f i)) := by
    intro path f i hpi hf hpres
    have htarget : target (Mem.entry s.mem f i) = some (Mem.entry s.mem f i / pageSize) :=
      if_pos hpres
    obtain ⟨hh, hsmall⟩ := ht.step hf hpi htarget
    rw [hh, entryFrame_of_target htarget hsmall]
  have h0 : tableAt s.mem root r [] = some g := by rw [tableAt, Radix.node_nil, hroot]
  have hdiv : pageSize * g / pageSize = g := Nat.mul_div_cancel_left g (by decide)
  unfold mmu
  simp only [hdiv]
  rw [hentry tablePath_nil h0 (pmlIndex_lt va)]
  by_cases h4 : Mem.entry s.mem g (pmlIndex va) &&& pteP = 0
  · simp only [h4, if_true]
  · have h1 := hnext (tablePath_one hpml) h0 h4
    rw [hentry (tablePath_one hpml) h1 (pdpIndex_lt va)]
    simp only [h4, if_false]
    by_cases h3 : Mem.entry s.mem (entryFrame (Mem.entry s.mem g (pmlIndex va))) (pdpIndex va) &&&
        pteP = 0
    · simp only [h3, if_true]
    · have h2 := hnext (tablePath_two hpml) h1 h3
      rw [hentry (tablePath_two hpml) h2 (pgdIndex_lt va)]
      simp only [h3, if_false]
      by_cases h2' : Mem.entry s.mem (entryFrame (Mem.entry s.mem (entryFrame
          (Mem.entry s.mem g (pmlIndex va))) (pdpIndex va))) (pgdIndex va) &&& pteP = 0
      · simp only [h2', if_true]
      · have h3' := hnext (tablePath_pathTo hpml) h2 h2'
        rw [hentry (tablePath_pathTo hpml) h3' (pteIndex_lt va)]

/-- A page the kernel can read is one it can read every byte of. -/
theorem kpa_add {pa : Nat} (h : s.kpa va = some pa) (hpage : va % pageSize = 0)
    (ho : o < pageSize) : s.kpa (va + o) = some (pa + o) := by
  have hlow : (kbase ≤ va + o ∧ va + o < 2 ^ 64) ↔ (kbase ≤ va ∧ va < 2 ^ 64) := by
    unfold kbase
    unfold pageSize at hpage ho
    omega
  unfold Mm.kpa at h ⊢
  by_cases hdirect : kbase ≤ va ∧ va < 2 ^ 64
  · rw [if_pos hdirect] at h
    rw [if_pos (hlow.mpr hdirect)]
    have hle := hdirect.1
    cases h
    congr 1
    omega
  · rw [if_neg hdirect] at h
    rw [if_neg fun hd => hdirect (hlow.mp hd), mmu_add hpage ho]
    cases hx : mmu s.mem s.cr3 va ⟨false, false⟩ with
    | ok pa' =>
      rw [hx] at h
      cases h
      rfl
    | notPresent =>
      rw [hx] at h
      cases h
    | denied =>
      rw [hx] at h
      cases h

end Walk

/-! ## The copy -/

section Copy

variable {R : Type*} {ok : Nat → Prop} {top : Nat} {root : R → Option Nat} {r : R}
variable {s : Mm} {g n va pd : Nat}

/-- A copy whose source can be read whatever it stores writes its destination and
nothing else. -/
theorem memcpy_into (dest src pd : Nat) {k : Nat}
    (hkpa : ∀ m, (∀ x, x < pd ∨ pd + k ≤ x → m x = s.mem x) → ∀ i, i < k →
      (s.setMem m).kpa (dest + i) = some (pd + i) ∧ ∃ pa, (s.setMem m).kpa (src + i) = some pa) :
    ∃ m, memcpy dest src k s = .ok () (s.setMem m) ∧
      ∀ x, x < pd ∨ pd + k ≤ x → m x = s.mem x := by
  induction k generalizing s dest src pd with
  | zero => exact ⟨s.mem, rfl, fun _ _ => rfl⟩
  | succ k ih =>
    obtain ⟨hd, pa, hs⟩ := hkpa s.mem (fun _ _ => rfl) 0 (Nat.succ_pos k)
    rw [Mm.setMem_self, Nat.add_zero] at hd hs
    rw [Nat.add_zero] at hd
    have hbyte : ∀ x, x < pd ∨ pd + 1 ≤ x → Mem.wr 1 s.mem pd (Mem.rd 1 s.mem pa) x = s.mem x :=
      fun x hx => Mem.wr_out hx
    obtain ⟨m, hrun, hm⟩ := ih (dest + 1) (src + 1) (pd + 1)
      (s := s.setMem (Mem.wr 1 s.mem pd (Mem.rd 1 s.mem pa))) fun m hm i hi => by
        have hout : ∀ x, x < pd ∨ pd + (k + 1) ≤ x → m x = s.mem x := fun x hx => by
          rw [hm x (by omega)]
          exact hbyte x (by omega)
        obtain ⟨hd', hs'⟩ := hkpa m hout (i + 1) (Nat.succ_lt_succ hi)
        rw [Nat.add_right_comm, Nat.add_right_comm pd, Nat.add_right_comm src]
        exact ⟨hd', hs'⟩
    refine ⟨m, ?_, fun x hx => ?_⟩
    · rw [memcpy, Act.bind_ok (load_ok hs), Act.bind_ok (store_ok hd)]
      exact hrun
    · rw [hm x (by omega)]
      exact hbyte x (by omega)

/-- The handler's copy of a page into a fresh frame: it faults at the first byte
if the page cannot be read, and else writes the frame. -/
theorem copyPage_run (va : Nat) (ht : Tables ok top s root) (hroot : root r = some g)
    (hva : pmlIndex va < top) (hcr3 : s.cr3 = pageSize * g)
    (hn : ¬ IsTable top s.mem root n) (hn' : n < 2 ^ 19) (hpage : va % pageSize = 0) :
    match s.kpa va with
    | none => memcpy (frameVa n) va 4096 s = .fault s
    | some _ => ∃ m, memcpy (frameVa n) va 4096 s = .ok () (s.setMem m) ∧
        ∀ f o, f ≠ n → o < pageSize → m (pageSize * f + o) = s.mem (pageSize * f + o) := by
  have hframe : ∀ {m : Mem}, (∀ x, x < pageSize * n ∨ pageSize * n + pageSize ≤ x →
      m x = s.mem x) → ∀ f o, f ≠ n → o < pageSize →
        m (pageSize * f + o) = s.mem (pageSize * f + o) := by
    intro m hm f o hf ho
    refine hm _ ?_
    unfold pageSize at *
    omega
  cases hkpa : s.kpa va with
  | none =>
    have hload : load 1 va s = .fault s := by rw [load, hkpa]
    show (load 1 va >>= _) s = _
    rw [Act.bind_fault hload]
  | some pa =>
    have hall : ∀ m, (∀ x, x < pageSize * n ∨ pageSize * n + 4096 ≤ x → m x = s.mem x) →
        ∀ i, i < 4096 → (s.setMem m).kpa (frameVa n + i) = some (pageSize * n + i) ∧
          ∃ pa, (s.setMem m).kpa (va + i) = some pa := by
      intro m hm i hi
      refine ⟨Mm.kpa_frameVa (s := s.setMem m) hn' hi, pa + i, kpa_add ?_ hpage hi⟩
      have hwalk : mmu m s.cr3 va ⟨false, false⟩ = mmu s.mem s.cr3 va ⟨false, false⟩ := by
        rw [hcr3]
        exact mmu_congr _ ht hn hroot hva (hframe hm)
      unfold Mm.kpa at hkpa ⊢
      rw [Mm.setMem_mem, Mm.setMem_cr3, hwalk]
      exact hkpa
    obtain ⟨m, hrun, hm⟩ := memcpy_into _ _ _ hall
    exact ⟨m, hrun, hframe hm⟩

end Copy

/-! ## What a change leaves alone -/

section Steps

variable {R : Type*} {ok : Nat → Prop} {top : Nat} {root : R → Option Nat} {r : R}
variable {kern : Nat → Prop} {s s' s'' : Mm} {g n t va v : Nat}

/-- A change to the tables of `r` leaves alone: the entries from `top` on of
every directory, the frames in `kern`, which keep their bytes and their
references, and the translations of everyone else. -/
structure Isolated (top : Nat) (root : R → Option Nat) (r : R) (kern : Nat → Prop)
    (s s' : Mm) : Prop where
  high : ∀ {q g i}, root q = some g → top ≤ i → i < 512 →
    Mem.entry s'.mem g i = Mem.entry s.mem g i
  bytes : ∀ {f o}, kern f → o < pageSize → s'.mem (pageSize * f + o) = s.mem (pageSize * f + o)
  count : ∀ {f}, kern f → s'.count f = s.count f
  others : ∀ {q va}, q ≠ r → pmlIndex va < top → leaf s'.mem root q va = leaf s.mem root q va

theorem Isolated.refl (s : Mm) : Isolated top root r kern s s :=
  ⟨fun _ _ _ => rfl, fun _ _ => rfl, fun _ => rfl, fun _ _ => rfl⟩

theorem Isolated.trans (h : Isolated top root r kern s s')
    (h' : Isolated top root r kern s' s'') : Isolated top root r kern s s'' where
  high hg h1 h2 := (h'.high hg h1 h2).trans (h.high hg h1 h2)
  bytes hf ho := (h'.bytes hf ho).trans (h.bytes hf ho)
  count hf := (h'.count hf).trans (h.count hf)
  others hq hva := (h'.others hq hva).trans (h.others hq hva)

/-- The frames in `kern` are neither free nor among the tables. -/
def Safe (top : Nat) (root : R → Option Nat) (kern : Nat → Prop) (s : Mm) : Prop :=
  ∀ f, kern f → ¬ s.Free f ∧ ¬ IsTable top s.mem root f

/-- A step of the handler: the frames in `kern` stay safe, and the step keeps apart. -/
def Step (top : Nat) (root : R → Option Nat) (r : R) (kern : Nat → Prop) (s s' : Mm) : Prop :=
  Safe top root kern s' ∧ Isolated top root r kern s s'

theorem Step.trans (h : Step top root r kern s s') (h' : Step top root r kern s' s'') :
    Step top root r kern s s'' := ⟨h'.1, h.2.trans h'.2⟩

/-- Tables are created. -/
theorem Step.grown (hsafe : Safe top root kern s) (hg : Grown top root s s') :
    Step top root r kern s s' := by
  refine ⟨fun f hf => ⟨hg.not_free (hsafe f hf).1, hg.not_table (hsafe f hf).1 (hsafe f hf).2⟩,
    hg.high, fun {f o} hf ho => hg.bytes (hsafe f hf).1 (hsafe f hf).2 ho,
    fun {f} hf => hg.count (hsafe f hf).1, fun _ hva => hg.leaf hva⟩

/-- Bytes change in a frame that is no table. -/
theorem Step.bytes (ht : Tables ok top s root) (hsafe : Safe top root kern s) {m : Mem}
    (hn : ¬ IsTable top s.mem root n) (hk : ¬ kern n)
    (hm : ∀ f o, f ≠ n → o < pageSize → m (pageSize * f + o) = s.mem (pageSize * f + o)) :
    Tables ok top (s.setMem m) root ∧ Step top root r kern s (s.setMem m) ∧
      (∀ q va, pmlIndex va < top → leaf m root q va = leaf s.mem root q va) ∧
      ∀ {q p}, TablePath top p → tableAt m root q p = tableAt s.mem root q p := by
  have hentry : ∀ {f i}, f ≠ n → i < 512 → Mem.entry m f i = Mem.entry s.mem f i :=
    fun hf hi => Mem.entry_congr hi fun o ho => hm _ o hf ho
  have hinner : ∀ {q p i g}, TablePath top (p ++ [i]) → tableAt s.mem root q p = some g →
      Mem.entry m g i = Mem.entry s.mem g i := fun hpi hg =>
    hentry (fun hgn : _ = n => hn (hgn ▸ ⟨_, _, hpi.init, hg⟩)) hpi.last
  have htab : ∀ {q p}, TablePath top p → tableAt m root q p = tableAt s.mem root q p :=
    fun hp => tableAt_congr hinner hp
  have hleaf : ∀ q va, pmlIndex va < top → leaf m root q va = leaf s.mem root q va := by
    intro q va hva
    have hpath := tablePath_pathTo hva
    unfold leaf
    rw [htab hpath]
    cases hg : tableAt s.mem root q (pathTo va) with
    | none => rfl
    | some g => exact hentry (fun hgn => hn (hgn ▸ ⟨q, _, hpath, hg⟩)) (pteIndex_lt va)
  obtain ⟨l, hl⟩ := ht.list
  refine ⟨ht.congr rfl ⟨l, hl.congr rfl rfl rfl⟩ (fun hg => (ht.inUse hg).2) hinner,
    ⟨fun f hf => ⟨(hsafe f hf).1, fun hft => (hsafe f hf).2 ((isTable_congr htab f).mp hft)⟩,
      fun {q g i} hg h1 h2 => ?_, fun {f o} hf ho => hm f o (fun hfn => hk (hfn ▸ hf)) ho,
      fun _ => rfl, fun _ hva => hleaf _ _ hva⟩, hleaf, htab⟩
  exact hentry (fun hgn : g = n => hn (hgn ▸ ⟨q, [], tablePath_nil, by
    rw [tableAt, Radix.node_nil, hg]⟩)) h2

/-- A reference is let go. -/
theorem Step.freed (hsafe : Safe top root kern s) (hk : ¬ kern n) (h1 : 1 ≤ s.count n)
    (h2 : s.count n < 2 ^ 31) : Step top root r kern s (s.freed n) := by
  have hcount : ∀ {f}, kern f → (s.freed n).count f = s.count f := fun {f} hf => by
    rw [Mm.freed_count h1 h2, if_neg fun hfn : f = n => hk (hfn ▸ hf)]
  refine ⟨fun f hf => ⟨?_, ?_⟩, fun _ _ _ => ?_, fun _ _ => ?_, hcount, fun _ _ => ?_⟩
  · rintro ⟨hlt, hz⟩
    rw [hcount hf] at hz
    exact (hsafe f hf).1 ⟨hlt.trans_eq (Mm.freed_npages s n), hz⟩
  · rw [Mm.freed_mem]
    exact (hsafe f hf).2
  · rw [Mm.freed_mem]
  · rw [Mm.freed_mem]
  · rw [Mm.freed_mem]

/-- A leaf of `r` is set. -/
theorem Step.setLeaf (ht : Tables ok top s root) (hsafe : Safe top root kern s)
    (hva : pmlIndex va < top) (hg : tableAt s.mem root r (pathTo va) = some t) :
    Step top root r kern s (s.setLeaf t va v) := by
  have hpath := tablePath_pathTo hva
  have htt : IsTable top s.mem root t := ⟨r, _, hpath, hg⟩
  have htab := isTable_congr fun hp => ht.setLeaf_tableAt hva hg v hp
  refine ⟨fun f hf => ⟨(hsafe f hf).1, fun hft => (hsafe f hf).2 ((htab f).mp hft)⟩,
    fun {q f i} hf h1 h2 => ?_, fun {f o} hf ho => ?_, fun _ => rfl, fun {q va'} hq hva' => ?_⟩
  · have hroot : tableAt s.mem root q [] = some f := by rw [tableAt, Radix.node_nil, hf]
    have hne := ht.inner_ne hva hg (tablePath_one hva) hroot
    rw [setLeaf_entry h2, if_neg fun h => hne h.1]
  · exact setLeaf_bytes ho fun hft => (hsafe f hf).2 (hft ▸ htt)
  · have hpath' := tablePath_pathTo hva'
    rw [leaf, leaf, ht.setLeaf_tableAt hva hg v hpath']
    cases hf : tableAt s.mem root q (pathTo va') with
    | none => rfl
    | some f =>
      have hne : f ≠ t := by
        rintro rfl
        exact hq (ht.separated hpath' hpath hf hg).1
      show Mem.entry _ f _ = Mem.entry _ f _
      rw [setLeaf_entry (pteIndex_lt va'), if_neg fun h => hne h.1]

end Steps

/-! ## What a walk to come needs -/

section Keeps

variable {R : Type*} {ok : Nat → Prop} {top : Nat} {root : R → Option Nat} {r : R}
variable {s s' s'' : Mm} {f n k k' va : Nat}

/-- A change that costs `k` free frames keeps the tables of `r` there are. -/
structure Keeps (top : Nat) (root : R → Option Nat) (r : R) (k : Nat) (s s' : Mm) : Prop where
  starved : s'.starved = s.starved
  tables : ∀ {p g}, TablePath top p → tableAt s.mem root r p = some g →
    tableAt s'.mem root r p = some g
  enough : ∀ j, s.Enough (j + k) → s'.Enough j

theorem Keeps.refl (s : Mm) : Keeps top root r 0 s s := ⟨rfl, fun _ h => h, fun _ h => h⟩

theorem Keeps.trans (h : Keeps top root r k s s') (h' : Keeps top root r k' s' s'') :
    Keeps top root r (k' + k) s s'' where
  starved := h'.starved.trans h.starved
  tables hp hg := h'.tables hp (h.tables hp hg)
  enough j hj := h'.enough j (h.enough (j + k') (by rwa [Nat.add_assoc]))

/-- A frame is taken. -/
theorem Keeps.taken (ht : Tables ok top s root) (hn : s.phead = some n) :
    Keeps top root r 1 s (s.taken pgzero n) := by
  obtain ⟨-, hgrown, -, -⟩ := ht.taken hn
  refine ⟨hgrown.starved, fun hp hg => hgrown.tables hp hg, fun j => ?_⟩
  rintro ⟨l, hl, hj⟩
  obtain ⟨l', rfl, -⟩ := hl.phead_some hn
  exact ⟨l', hl.taken, Nat.le_of_succ_le_succ hj⟩

/-- Bytes change, but not in the tables. -/
theorem Keeps.bytes {m : Mem}
    (htab : ∀ {p}, TablePath top p → tableAt m root r p = tableAt s.mem root r p) :
    Keeps top root r 0 s (s.setMem m) := by
  refine ⟨rfl, fun hp hg => (htab hp).trans hg, ?_⟩
  rintro j ⟨l, hl, hj⟩
  exact ⟨l, hl.congr rfl rfl rfl, hj⟩

/-- A leaf is set. -/
theorem Keeps.setLeaf {t v : Nat} (ht : Tables ok top s root) (hva : pmlIndex va < top)
    (hg : tableAt s.mem root r (pathTo va) = some t) :
    Keeps top root r 0 s (s.setLeaf t va v) :=
  Keeps.bytes fun hp => ht.setLeaf_tableAt hva hg v hp

/-- A reference is let go. -/
theorem Keeps.freed (hf : f < s.npages) (h1 : 1 ≤ s.count f) (h2 : s.count f < 2 ^ 31) :
    Keeps top root r 0 s (s.freed f) := by
  refine ⟨?_, fun hp hg => by rwa [Mm.freed_mem], ?_⟩
  · unfold Mm.freed
    split <;> rfl
  · rintro j ⟨l, hl, hj⟩
    unfold Mm.freed
    by_cases hlast : s.count f = 1
    · rw [if_pos hlast]
      exact ⟨f :: l, hl.released hf hlast, hj.trans (Nat.le_succ _)⟩
    · rw [if_neg hlast]
      refine ⟨l, hl.setCount (by omega) ?_, hj⟩
      rw [int32_of_bounds (by omega) (by omega)]
      omega

/-- Where enough frames were free for a walk, enough still are. -/
theorem Keeps.ready (h : Keeps top root r k s s') (hva : pmlIndex va < top)
    (hen : s.Enough (missing s.mem root r va + k)) : s'.Enough (missing s'.mem root r va) := by
  refine (h.enough _ hen).mono ?_
  have hkeep : ∀ {p}, TablePath top p → tableAt s'.mem root r p = none →
      tableAt s.mem root r p = none := by
    intro p hp hnone
    by_contra hne
    obtain ⟨g, hg⟩ := Option.ne_none_iff_exists'.mp hne
    rw [h.tables hp hg] at hnone
    cases hnone
  unfold missing
  by_cases h1 : tableAt s'.mem root r [pmlIndex va] = none
  · rw [if_pos h1, if_pos (hkeep (tablePath_one hva) h1)]
  · rw [if_neg h1]
    by_cases h2 : tableAt s'.mem root r [pmlIndex va, pdpIndex va] = none
    · rw [if_pos h2, if_pos (hkeep (tablePath_two hva) h2)]
      split <;> decide
    · rw [if_neg h2]
      by_cases h3 : tableAt s'.mem root r (pathTo va) = none
      · rw [if_pos h3, if_pos (hkeep (tablePath_pathTo hva) h3)]
        split
        · decide
        · split <;> decide
      · rw [if_neg h3]
        exact Nat.zero_le _

end Keeps

/-! ## The handler -/

section Handler

variable {R : Type*} {ok : Nat → Prop} {top : Nat} {root : R → Option Nat} {r : R}
variable {kern : Nat → Prop} {s : Mm} {g cr2 err : Nat}

/-- The page of the address, as the handler has it. -/
theorem cr2_page (cr2 : Nat) : cr2 / pageSize * pageSize / pageSize = cr2 / pageSize :=
  Nat.mul_div_cancel _ (by decide)

theorem cr2_pml (h : pmlIndex cr2 < top) : pmlIndex (cr2 / pageSize * pageSize) < top := by
  rw [(indices_of_page_eq (cr2_page cr2)).1]
  exact h

/-- The last step: a fresh frame is mapped at the page. -/
theorem insertPage_step {n : Nat} (ht : Tables ok top s root) (hok : Linkable ok)
    (hva : pmlIndex cr2 < top) (hroot : root r = some g) (hsafe : Safe top root kern s)
    (hn : n < 2 ^ 19) (hs : s.starved = false) (hen : s.Enough (missing s.mem root r cr2)) :
    ∃ s', (do
        let _ ← insertPage (frameVa g) (cr2 / pageSize * pageSize) (some n) (pteU ||| pteP ||| pteW)
        return () : Act Mm Unit) s = .ok () s' ∧ Step top root r kern s s' ∧
      target (leaf s'.mem root r cr2) = some n := by
  have hcr2 := cr2_pml hva
  have hmissing : missing s.mem root r (cr2 / pageSize * pageSize) = missing s.mem root r cr2 := by
    obtain ⟨h4, h3, h2, -⟩ := indices_of_page_eq (cr2_page cr2)
    rw [missing, missing, pathTo, pathTo, h4, h3, h2]
  obtain ⟨s₁, t, ht₁, hgrown, -, htt, hrun⟩ := insertPage_run ht hok hcr2 hroot
    (insertPage_enough ht hok hcr2 hroot (by rwa [hmissing]) hs n _)
  obtain ⟨hflag, hp, -, -⟩ := Vm.faultFlags
  have hgrow := Step.grown (r := r) hsafe hgrown
  rw [Act.bind_ok hrun]
  refine ⟨_, rfl, hgrow.trans (Step.setLeaf ht₁ hgrow.1 hcr2 htt), ?_⟩
  rw [ht₁.leaf_setLeaf_same hcr2 htt (leafEntry_lt hflag hn) (cr2_page cr2).symm]
  exact target_leafEntry hflag hp

/-- A page that is not present gets a fresh frame. -/
theorem pageFault_new (ht : Tables ok top s root) (hok : Linkable ok) (hva : pmlIndex cr2 < top)
    (hroot : root r = some g) (hsafe : Safe top root kern s) (herr : err &&& pfecP = 0)
    (hs : s.starved = false) (hen : s.Enough (missing s.mem root r cr2 + 1)) :
    ∃ n s', pageFault (some (frameVa g)) cr2 err s = .ok () s' ∧ s.Free n ∧
      Step top root r kern s s' ∧ target (leaf s'.mem root r cr2) = some n := by
  obtain ⟨n, hn, -⟩ := hen.head
  obtain ⟨hfree, hn'⟩ := ht.head hn
  have halloc : allocPage 1 s = .ok (some n) (s.taken pgzero n) := allocPage_some hn hn'
  obtain ⟨ht₁, hgrown, -, -⟩ := ht.taken hn
  have hkeeps := Keeps.taken (r := r) ht hn
  have hstep := Step.grown (r := r) hsafe hgrown
  obtain ⟨s', hrun, hstep', hleaf⟩ := insertPage_step ht₁ hok hva hroot hstep.1 hn'
    (hkeeps.starved.trans hs) (hkeeps.ready hva hen)
  unfold pageFault
  simp only [if_pos herr]
  rw [Act.bind_ok halloc, Act.deref_bind_apply]
  exact ⟨n, s', hrun, hfree, hstep.trans hstep', hleaf⟩

/-- The frame of the faulting page may be let go: it is in use, and neither a
table nor one of those in `kern`. -/
def Releasable (top : Nat) (root : R → Option Nat) (kern : Nat → Prop) (s : Mm) (f : Nat) : Prop :=
  f < s.npages ∧ ¬ IsTable top s.mem root f ∧ ¬ kern f ∧ 1 ≤ s.count f ∧ s.count f < 2 ^ 31

/-- The page is taken out of the tables. -/
theorem removePage_step (ht : Tables ok top s root) (hva : pmlIndex cr2 < top)
    (hroot : root r = some g) (hsafe : Safe top root kern s)
    (hpage : ∀ f, target (leaf s.mem root r cr2) = some f → Releasable top root kern s f) :
    ∃ c s', removePage (frameVa g) (cr2 / pageSize * pageSize) s = .ok c s' ∧
      Tables ok top s' root ∧ Step top root r kern s s' ∧ Keeps top root r 0 s s' := by
  have hcr2 := cr2_pml hva
  have hleaf : leaf s.mem root r (cr2 / pageSize * pageSize) = leaf s.mem root r cr2 :=
    leaf_page s.mem root r (cr2_page cr2)
  cases ht' : tableAt s.mem root r (pathTo (cr2 / pageSize * pageSize)) with
  | none =>
    exact ⟨_, s, removePage_missing ht hcr2 hroot ht', ht, ⟨hsafe, Isolated.refl s⟩, Keeps.refl s⟩
  | some t =>
    cases hf : target (leaf s.mem root r cr2) with
    | none =>
      exact ⟨_, _, removePage_absent ht hcr2 hroot ht' (by rw [hleaf, hf]),
        ht.setLeaf hcr2 ht' 0, Step.setLeaf ht hsafe hcr2 ht', Keeps.setLeaf ht hcr2 ht'⟩
    | some f =>
      obtain ⟨hlt, hnt, hk, h1, h2⟩ := hpage f hf
      have hfreed := Step.freed (r := r) hsafe hk h1 h2
      have ht₁ := ht.freed hlt hnt h1 h2
      have htt : tableAt (s.freed f).mem root r (pathTo (cr2 / pageSize * pageSize)) = some t := by
        rw [Mm.freed_mem, ht']
      exact ⟨_, _, removePage_present ht hcr2 hroot ht' (by rw [hleaf, hf]) h1 h2,
        ht₁.setLeaf hcr2 htt 0, hfreed.trans (Step.setLeaf ht₁ hfreed.1 hcr2 htt),
        (Keeps.freed hlt h1 h2).trans (Keeps.setLeaf ht₁ hcr2 htt)⟩

/-- The copy-on-write branch takes a frame and copies the page to it; if the
page cannot be read, it comes to a stop there. -/
theorem pageFault_copy {n : Nat} (ht : Tables ok top s root) (hroot : root r = some g)
    (hva : pmlIndex cr2 < top) (hcr3 : s.cr3 = pageSize * g) (herr : err &&& pfecP ≠ 0)
    (herr' : err &&& pfecW ≠ 0) (hn : s.phead = some n) :
    match s.kpa (cr2 / pageSize * pageSize) with
    | none => pageFault (some (frameVa g)) cr2 err s = .fault (s.taken pgzero n)
    | some _ => ∃ m, (∀ f o, f ≠ n → o < pageSize →
        m (pageSize * f + o) = (s.taken pgzero n).mem (pageSize * f + o)) ∧
        pageFault (some (frameVa g)) cr2 err s = (do
          let _ ← removePage (frameVa g) (cr2 / pageSize * pageSize)
          let _ ← insertPage (frameVa g) (cr2 / pageSize * pageSize) (some n)
            (pteU ||| pteP ||| pteW)
          return () : Act Mm Unit) ((s.taken pgzero n).setMem m) := by
  unfold pageFault
  simp only [if_neg herr, if_pos herr']
  obtain ⟨hfree, hn'⟩ := ht.head hn
  have halloc : allocPage 1 s = .ok (some n) (s.taken pgzero n) := allocPage_some hn hn'
  obtain ⟨ht₁, -, -, hnt⟩ := ht.taken hn
  have hkpa : (s.taken pgzero n).kpa (cr2 / pageSize * pageSize) =
      s.kpa (cr2 / pageSize * pageSize) := by
    have hwalk := mmu_congr (cr2 / pageSize * pageSize) (a := ⟨false, false⟩) ht
      (fun h => ht.not_free h hfree) hroot (cr2_pml hva) fun f o hf ho =>
        show (s.taken pgzero n).mem _ = _ by
          rw [Mm.taken_mem_zeroed]
          exact Mem.fill_out _ ho hf
    unfold Mm.kpa
    rw [Mm.taken_cr3, hcr3, hwalk]
  have hcopy := copyPage_run (cr2 / pageSize * pageSize) ht₁ hroot (cr2_pml hva)
    ((Mm.taken_cr3 s pgzero n).trans hcr3) hnt hn' (Nat.mul_mod_left _ _)
  rw [hkpa] at hcopy
  rw [Act.bind_ok halloc, Act.gets_bind_apply, Mm.page2va_some hn']
  cases hread : s.kpa (cr2 / pageSize * pageSize) with
  | none =>
    rw [hread] at hcopy
    exact Act.bind_fault hcopy
  | some pa =>
    rw [hread] at hcopy
    obtain ⟨m, hrun, hm⟩ := hcopy
    exact ⟨m, hm, by rw [Act.bind_ok hrun, Act.deref_bind_apply]⟩

/-- A page that may not be written gets a frame of its own, if the kernel can read it. -/
theorem pageFault_copied (ht : Tables ok top s root) (hok : Linkable ok)
    (hva : pmlIndex cr2 < top) (hroot : root r = some g) (hsafe : Safe top root kern s)
    (hcr3 : s.cr3 = pageSize * g)
    (hpage : ∀ f, target (leaf s.mem root r cr2) = some f → Releasable top root kern s f)
    (herr : err &&& pfecP ≠ 0) (herr' : err &&& pfecW ≠ 0)
    (hread : s.kpa (cr2 / pageSize * pageSize) ≠ none) (hs : s.starved = false)
    (hen : s.Enough (missing s.mem root r cr2 + 1)) :
    ∃ n s', pageFault (some (frameVa g)) cr2 err s = .ok () s' ∧ s.Free n ∧
      Step top root r kern s s' ∧ target (leaf s'.mem root r cr2) = some n := by
  obtain ⟨n, hn, -⟩ := hen.head
  obtain ⟨hfree, hn'⟩ := ht.head hn
  obtain ⟨ht₁, hgrown, -, hnt⟩ := ht.taken hn
  have hrun := pageFault_copy ht hroot hva hcr3 herr herr' hn
  obtain ⟨pa, hpa⟩ := Option.ne_none_iff_exists'.mp hread
  rw [hpa] at hrun
  obtain ⟨m, hm, hrun⟩ := hrun
  have hstep₁ := Step.grown (r := r) hsafe hgrown
  have hkn : ¬ kern n := fun hk => (hsafe n hk).1 hfree
  obtain ⟨ht₂, hstep₂, hleaf₂, htab₂⟩ := Step.bytes (r := r) ht₁ hstep₁.1 hnt hkn hm
  have hleaf : leaf ((s.taken pgzero n).setMem m).mem root r cr2 = leaf s.mem root r cr2 :=
    (hleaf₂ r cr2 hva).trans (hgrown.leaf hva)
  obtain ⟨c, s₃, hremove, ht₃, hstep₃, hkeeps₃⟩ := removePage_step ht₂ hva hroot hstep₂.1
    fun f hf => by
      rw [hleaf] at hf
      obtain ⟨hlt, hft, hk, h1, h2⟩ := hpage f hf
      have hff : ¬ s.Free f := fun h => by
        rw [h.2] at h1
        exact absurd h1 (by decide)
      have hcount : ((s.taken pgzero n).setMem m).count f = s.count f := hgrown.count hff
      refine ⟨hlt.trans_eq hgrown.npages.symm,
        fun hft₂ => hgrown.not_table hff hft ((isTable_congr htab₂ f).mp hft₂), hk, ?_, ?_⟩
      · rw [hcount]
        exact h1
      · rw [hcount]
        exact h2
  have hkeeps := ((Keeps.taken (r := r) ht hn).trans (Keeps.bytes htab₂)).trans hkeeps₃
  obtain ⟨s', hinsert, hstep', htarget⟩ := insertPage_step ht₃ hok hva hroot hstep₃.1 hn'
    (hkeeps.starved.trans hs) (hkeeps.ready hva hen)
  rw [hrun, Act.bind_ok hremove]
  exact ⟨n, s', hinsert, hfree, ((hstep₁.trans hstep₂).trans hstep₃).trans hstep', htarget⟩

end Handler

/-! ## Exactly when -/

/-- The frames the kernel owns: they are not free, no table of a process, and
no page of the lower half of one. -/
def Owned (s : Mm) (root : Nat → Option Nat) (f : Nat) : Prop :=
  ¬ s.Free f ∧ ¬ IsTable userTop s.mem root f ∧
    ∀ q va, pmlIndex va < userTop → target (leaf s.mem root q va) ≠ some f

/-- What the handler finds: the lower halves of all processes are in order, and
the frame the faulting page refers to, if any, is in use and no table of them. -/
structure Faulting (s : Mm) (root : Nat → Option Nat) (p g cr2 : Nat) : Prop where
  lower : Tables UserEntry userTop s root
  rooted : root p = some g
  cr3 : s.cr3 = pageSize * g
  fed : s.starved = false
  page : ∀ {f}, target (leaf s.mem (dir g) () cr2) = some f →
    f < s.npages ∧ ¬ IsTable userTop s.mem root f ∧ 1 ≤ s.count f ∧ s.count f < 2 ^ 31

/-- The upper half of the faulting process, as the code walks it, where a 2 MB
page is a last table: the tree is in order, and what it has in the upper half
the kernel owns. -/
structure Upper (s : Mm) (root : Nat → Option Nat) (g cr2 : Nat) : Prop where
  whole : Tables (fun _ => True) 512 s (dir g)
  owned : ∀ {i path h}, userTop ≤ i → TablePath 512 (i :: path) →
    tableAt s.mem (dir g) () (i :: path) = some h → Owned s root h
  page : ∀ {f}, target (leaf s.mem (dir g) () cr2) = some f → ¬ IsTable 512 s.mem (dir g) f

section Fault

variable {s s' : Mm} {root : Nat → Option Nat} {p g cr2 err : Nat}

/-- The paths of the upper half. -/
def UpperPath (path : List Nat) : Prop :=
  TablePath 512 path ∧ ∀ i, path.head? = some i → userTop ≤ i

theorem UpperPath.init (path : List Nat) (i : Nat) (h : UpperPath (path ++ [i])) :
    UpperPath path := by
  refine ⟨h.1.init, fun j hj => h.2 j ?_⟩
  rw [List.head?_append, hj]
  rfl

theorem anyEntry : Linkable fun _ => True := ⟨fun _ => trivial, trivial⟩

theorem Owned.safe (s : Mm) (root : Nat → Option Nat) : Safe userTop root (Owned s root) s :=
  fun _ hf => ⟨hf.1, hf.2.1⟩

/-- A frame the handler took and no more: what it does where it cannot read the page. -/
theorem Faulting.unread (h : Faulting s root p g cr2) {n : Nat} (hn : s.phead = some n) :
    Isolated userTop root p (Owned s root) s (s.taken pgzero n) :=
  (Step.grown (Owned.safe s root) (h.lower.taken hn).2.1).2

/-- In the upper half it maps a fresh frame there, unless the fault was a read of
a page that is present or the kernel cannot read the page. -/
theorem Upper.mapped (err : Nat) (hu : Upper s root g cr2) (h : Faulting s root p g cr2)
    (hen : s.Enough (missing s.mem (dir g) () cr2 + 1))
    (herr : ¬ (err &&& pfecP ≠ 0 ∧ err &&& pfecW = 0))
    (hread : ¬ (err &&& pfecP ≠ 0 ∧ s.kpa (cr2 / pageSize * pageSize) = none)) :
    ∃ n s', pageFault (some (frameVa g)) cr2 err s = .ok () s' ∧ s.Free n ∧
      target (leaf s'.mem (dir g) () cr2) = some n := by
  have hsafe : Safe 512 (dir g) (fun _ => False) s := fun f hf => hf.elim
  by_cases hp : err &&& pfecP = 0
  · obtain ⟨n, s', hrun, hn, -, hleaf⟩ := pageFault_new (r := ()) hu.whole anyEntry
      (pmlIndex_lt cr2) rfl hsafe hp h.fed hen
    exact ⟨n, s', hrun, hn, hleaf⟩
  · have hpage : ∀ f, target (leaf s.mem (dir g) () cr2) = some f →
        Releasable 512 (dir g) (fun _ => False) s f := fun f hf => by
      obtain ⟨h1, -, h4, h5⟩ := h.page hf
      exact ⟨h1, hu.page hf, id, h4, h5⟩
    obtain ⟨n, s', hrun, hn, -, hleaf⟩ := pageFault_copied (r := ()) hu.whole anyEntry
      (pmlIndex_lt cr2) rfl hsafe h.cr3 hpage hp (fun hw => herr ⟨hp, hw⟩)
      (fun hk => hread ⟨hp, hk⟩) h.fed hen
    exact ⟨n, s', hrun, hn, hleaf⟩

end Fault

/-! ## A process on the tables of `head.S` -/

end Myos.Kernel
