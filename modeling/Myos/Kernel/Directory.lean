import Myos.Kernel.Failing
import Myos.Kernel.Mounted

/-!
# The search of the root directory

`walk_path` goes through the blocks of the root directory, and through the 256
entries of each; the counter of the entries is not set back between two blocks.
So the search is over after the first block that is there, and finds what is in
that block (`walkPath_run`). An entry that has the name is found just if the
name is in that block.

The name is read wherever the tables of the process map it.
-/

namespace Myos.Kernel

open Myos.Lib

/-! ## Strings at a virtual address -/

/-- Whether a string is at an address. -/
def decidableSpells (m : Mem) : ∀ (a : Nat) (cs : List UInt8), Decidable (Spells m a cs)
  | a, [] => inferInstanceAs (Decidable (m a = 0))
  | a, c :: cs =>
    have := decidableSpells m (a + 1) cs
    inferInstanceAs (Decidable (m a = c ∧ c ≠ 0 ∧ Spells m (a + 1) cs))

instance {m : Mem} {a : Nat} {cs : List UInt8} : Decidable (Spells m a cs) := decidableSpells m a cs

/-- A string spelled alike in two places. -/
theorem Spells.shift {m m' : Mem} {x y : Nat} {cs : List UInt8}
    (h : ∀ i, i ≤ cs.length → m' (x + i) = m (y + i)) : Spells m' x cs ↔ Spells m y cs := by
  induction cs generalizing x y with
  | nil =>
    have h0 : m' x = m y := h 0 (Nat.le_refl 0)
    show m' x = 0 ↔ m y = 0
    rw [h0]
  | cons c cs ih =>
    have h0 : m' x = m y := h 0 (Nat.zero_le _)
    have hrest : Spells m' (x + 1) cs ↔ Spells m (y + 1) cs := ih fun i hi => by
      have hnext := h (i + 1) (by rw [List.length_cons]; omega)
      rwa [Nat.add_comm i, ← Nat.add_assoc, ← Nat.add_assoc] at hnext
    show _ ∧ _ ∧ _ ↔ _ ∧ _ ∧ _
    rw [h0, hrest]

/-- The string stays there, whatever is stored to the frames of `l`. -/
def Mm.Holds (s : Mm) (l : List Nat) (va : Nat) (cs : List UInt8) : Prop :=
  ∀ s' : Mm, s'.cr3 = s.cr3 → (∀ x, x / pageSize ∉ l → s'.mem x = s.mem x) → s'.Reads va cs

theorem Mm.Holds.took {s s' : Fs} {l l' : List Nat} {va : Nat} {cs : List UInt8}
    (h : s.mm.Holds l va cs) (ht : Took s l s' l') : s'.mm.Holds l' va cs :=
  fun m hc hm => h m (hc.trans ht.cr3) fun x hx =>
    (hm x fun hx' => hx (ht.sub _ hx')).trans (ht.mem x hx)

theorem Mm.Holds.reads {s : Mm} {l : List Nat} {va : Nat} {cs : List UInt8}
    (h : s.Holds l va cs) : s.Reads va cs := h s rfl fun _ _ => rfl

section Strings

variable {s : Mm} {d va n : Nat} {cs : List UInt8}

/-- `strcmp` returns nought just if its first argument spells its second. -/
theorem strcmpLoop_reads (hva : s.Reads va cs) (hd : d + cs.length < 2 ^ 31)
    (hn : cs.length < n) :
    strcmpLoop n (kbase + d) va s = .ok (if Spells s.mem d cs then 0 else 1) s := by
  have hzero : ∀ x : UInt8, x.toNat ≠ 0 ↔ x ≠ 0 := fun x =>
    not_congr ⟨fun h => UInt8.toNat_inj.mp h, fun h => by rw [h]; rfl⟩
  induction cs generalizing d va n with
  | nil =>
    obtain ⟨n, rfl⟩ := Nat.exists_eq_succ_of_ne_zero (Nat.ne_of_gt hn)
    have h0 : load 1 va s = .ok 0 s := hva
    rw [strcmpLoop, Act.bind_ok (load_byte (by omega)), Act.bind_ok h0]
    by_cases hz : s.mem d = 0
    · rw [hz, if_pos (show Spells s.mem d [] from hz), if_neg (by decide)]
      rfl
    · rw [if_neg (show ¬ Spells s.mem d [] from hz), if_pos (.inl ((hzero _).mpr hz)),
        if_neg ((hzero _).mpr hz)]
      rfl
  | cons c cs ih =>
    rw [List.length_cons] at hd hn
    obtain ⟨n, rfl⟩ := Nat.exists_eq_succ_of_ne_zero (Nat.ne_of_gt (Nat.zero_lt_of_lt hn))
    obtain ⟨hc, hne, hrest⟩ := hva
    have hload : load 1 va s = .ok c.toNat s := hc
    rw [strcmpLoop, Act.bind_ok (load_byte (by omega)), Act.bind_ok hload,
      if_pos (.inr ((hzero c).mpr hne))]
    by_cases hsame : s.mem d = c
    · have hiff : Spells s.mem d (c :: cs) ↔ Spells s.mem (d + 1) cs :=
        ⟨fun h => h.2.2, fun h => ⟨hsame, hne, h⟩⟩
      rw [hsame, if_pos rfl, Nat.add_assoc, ih hrest (by omega) (by omega)]
      simp only [hiff]
    · rw [if_neg fun h => hsame (UInt8.toNat_inj.mp h), if_neg fun h => hsame h.1]
      rfl

end Strings

/-! ## The entries of a block -/

/-- How many entries there are in a block. -/
def entriesPerBlock : Nat := blkSize / directSize

section Entries

variable {s : Fs} {va d i n : Nat} {cs : List UInt8}

/-- The search of a block in memory finds the first entry that has the name. -/
theorem walkEntries_run (hva : s.mm.Reads va cs)
    (hd : d + directSize * (i + n) ≤ 2 ^ 31) (hlen : nameOff + cs.length < directSize) :
    walkEntries va n (kbase + (d + directSize * i)) s =
      .ok ((Bitmap.firstFrom (fun j => decide (Spells s.mm.mem (d + directSize * j + nameOff) cs))
        n i).map fun j => s.inoTable + inodeSize * Mem.rd 2 s.mm.mem (d + directSize * j + inoOff))
        s := by
  induction n generalizing i with
  | zero => rfl
  | succ n ih =>
    obtain ⟨e, he⟩ : ∃ e, e = d + directSize * i := ⟨_, rfl⟩
    have hfit : e + directSize ≤ 2 ^ 31 := by
      rw [he]
      unfold directSize at *
      omega
    have hcmp : strcmp (kbase + e + nameOff) va s.mm =
        .ok (if Spells s.mm.mem (e + nameOff) cs then 0 else 1) s.mm := by
      rw [strcmp, Nat.add_assoc, strcmpLoop_reads hva (by omega)
        (by unfold nameOff directSize at *; omega)]
    have hino : load 2 (kbase + e + inoOff) s.mm =
        .ok (Mem.rd 2 s.mm.mem (e + inoOff)) s.mm := by
      rw [Nat.add_assoc]
      exact load_ok (s.mm.kpa_direct (by unfold inoOff directSize at *; omega))
    have hnext : kbase + e + directSize = kbase + (d + directSize * (i + 1)) := by
      rw [he, Nat.mul_succ]
      omega
    rw [Bitmap.firstFrom, ← he, walkEntries, Act.bind_ok (fsMm_ok hcmp)]
    by_cases hs : Spells s.mm.mem (e + nameOff) cs
    · rw [if_pos hs, if_pos rfl, Fs.setMm_self, Act.bind_ok (fsMm_ok hino), Act.gets_bind_apply,
        decide_eq_true hs, if_pos rfl, Option.map_some, ← he]
      rfl
    · rw [if_neg hs, if_neg (by decide), Fs.setMm_self, hnext,
        ih (by rw [show i + 1 + n = i + (n + 1) by omega]; exact hd), decide_eq_false hs,
        if_neg Bool.false_ne_true]

end Entries

/-! ## The directory -/

/-- Where the entry `j` of block `b` is on disk. -/
def Fs.direntAddr (s : Fs) (p b j : Nat) : Nat := blkSize * s.blockNo p b + directSize * j

/-- Entry `j` of block `b` has the name. -/
def Fs.Spelled (s : Fs) (p : Nat) (cs : List UInt8) (b j : Nat) : Prop :=
  s.blockNo p b ≠ 0 ∧ j < entriesPerBlock ∧ Spells s.disk (s.direntAddr p b j + nameOff) cs

/-- The inode entry `j` of block `b` names. -/
def Fs.entryInode (s : Fs) (p b j : Nat) : Nat :=
  s.inoTable + inodeSize * Mem.rd 2 s.disk (s.direntAddr p b j + inoOff)

/-- No block from `i` on comes before block `b`. -/
def Fs.Leads (s : Fs) (p i b : Nat) : Prop := ∀ b', i ≤ b' → b' < b → s.blockNo p b' = 0

/-- What the search of the `n` blocks from `i` on comes to: the first entry that has
the name in the first block that is there. -/
def Fs.Searched (s : Fs) (p : Nat) (cs : List UInt8) (i n : Nat) (r : Int) (o : Option Nat) : Prop :=
  (r < 0 ∧ o = none ∧ ∀ b j, i ≤ b → b < i + n → s.Leads p i b → ¬ s.Spelled p cs b j) ∨
  ∃ b j, i ≤ b ∧ b < i + n ∧ s.Leads p i b ∧ s.Spelled p cs b j ∧
    (∀ j', j' < j → ¬ s.Spelled p cs b j') ∧ r = 0 ∧ o = some (s.entryInode p b j)

section Search

variable {s s' : Fs} {l l' : List Nat} {p va b i j n : Nat} {cs : List UInt8} {diskno : Option Nat}

theorem Took.spelled (h : Took s l s' l') (hp : Kept l p inodeSize) :
    s'.Spelled p cs b j ↔ s.Spelled p cs b j := by
  unfold Fs.Spelled Fs.direntAddr
  rw [h.blockNo hp, h.disk]

theorem Took.entryInode (h : Took s l s' l') (hp : Kept l p inodeSize) :
    s'.entryInode p b j = s.entryInode p b j := by
  unfold Fs.entryInode Fs.direntAddr
  rw [h.blockNo hp, h.disk, h.inoTable]

theorem Took.searched {r : Int} {o : Option Nat} (h : Took s l s' l') (hp : Kept l p inodeSize)
    (hs : s'.Searched p cs i n r o) : s.Searched p cs i n r o := by
  have hleads : ∀ b, s'.Leads p i b ↔ s.Leads p i b := fun b => by
    unfold Fs.Leads
    simp only [h.blockNo hp]
  unfold Fs.Searched at *
  simp only [h.spelled hp, h.entryInode hp, hleads] at hs
  exact hs

/-- A block that is not there is passed over. -/
theorem Fs.Searched.skip {r : Int} {o : Option Nat} (hno : s.blockNo p i = 0)
    (h : s.Searched p cs (i + 1) n r o) : s.Searched p cs i (n + 1) r o := by
  have hleads : ∀ b, s.Leads p i b ↔ s.Leads p (i + 1) b := fun b =>
    ⟨fun h b' h1 h2 => h b' (by omega) h2, fun h b' h1 h2 => by
      rcases Nat.eq_or_lt_of_le h1 with rfl | hlt
      · exact hno
      · exact h b' hlt h2⟩
  rcases h with ⟨hr, ho, hnone⟩ | ⟨b, j, h1, h2, hlead, hspell, hfirst, hr, ho⟩
  · refine .inl ⟨hr, ho, fun b j h1 h2 hlead hspell => ?_⟩
    rcases Nat.eq_or_lt_of_le h1 with rfl | hlt
    · exact hspell.1 hno
    · exact hnone b j hlt (by omega) ((hleads b).mp hlead) hspell
  · exact .inr ⟨b, j, by omega, by omega, (hleads b).mpr hlead, hspell, hfirst, hr, ho⟩

/-- The pointer `walk_block` leaves as it was beyond the last block an inode has a
place for. -/
def Fs.Left (s : Fs) (l : List Nat) (i : Nat) (diskno : Option Nat) (no : Nat) : Prop :=
  2058 ≤ i → ∃ ptr, diskno = some ptr ∧ Entry s l ptr no

/-- What `walk_block` does in a turn of the search. -/
theorem walkBlock_turn {no : Nat} (hl : FreeList s.mm l) (hn : s.mm.npages ≤ 2 ^ 19)
    (hp : Kept l p inodeSize) (hleft : s.Left l i diskno no)
    (hns : (walkBlock p i diskno 0 s).state.starved = false) :
    (∃ ptr s' l', walkBlock p i diskno 0 s = .ok (0, some ptr) s' ∧ Took s l s' l' ∧
      Entry s' l' ptr (if i < 2058 then s.blockNo p i else no)) ∨
    (walkBlock p i diskno 0 s = .ok (-1, some 0) s ∧ ∀ b, i ≤ b → s.blockNo p b = 0) := by
  by_cases hi : i < 2058
  · rw [if_pos hi]
    by_cases hreach : s.Reaches p i
    · exact .inl (walkBlock_run hl hn hp diskno 0 hreach hns)
    · have hlow : ¬ i < 10 := fun h => hreach (.inl h)
      have h10 : s.slot p 10 = 0 := by
        by_contra hne
        exact hreach (.inr ⟨hi, hne⟩)
      refine .inr ⟨walkBlock_none diskno hlow hi hp h10, fun b hb => ?_⟩
      rw [Fs.blockNo, if_neg (by omega), h10, if_pos rfl, ite_self]
  · obtain ⟨ptr, rfl, hentry⟩ := hleft (Nat.le_of_not_lt hi)
    rw [if_neg hi]
    refine .inl ⟨ptr, s, l, ?_, Took.refl hl, hentry⟩
    rw [walkBlock, if_neg (by omega), if_neg hi]
    rfl

/-- What a turn does after the search of a block. -/
def walkFound (p va n i j : Nat) (diskno : Option Nat) : Option Nat → Act Fs (Int × Option Nat)
  | some inode => pure (0, some inode)
  | none => walkPathLoop p va n (i + 1) (max j (blkSize / directSize)) diskno

theorem reading_starves : Fs.Reading (Act.Raises Fs.starved) :=
  ⟨Act.Raises.refl, Act.Raises.trans, bread_starves⟩

theorem walkPathLoop_starves (p va n i j : Nat) (diskno : Option Nat) :
    Act.Within (Act.Raises Fs.starved) (walkPathLoop p va n i j diskno) :=
  reading_starves.walkPathLoop p va n i j diskno

theorem walkFound_starves (p va n i j : Nat) (diskno : Option Nat) (k pdir : Nat) :
    Act.Within (Act.Raises Fs.starved) (walkEntries va k pdir >>= walkFound p va n i j diskno) := by
  refine Fs.Reading.bind reading_starves (Fs.Reading.walkEntries reading_starves va k pdir) fun o => ?_
  cases o with
  | none => exact walkPathLoop_starves _ _ _ _ _ _
  | some inode => exact Act.Raises.pure _

theorem walkPathAt_starves (p va n i j : Nat) (r : Int) (diskno : Option Nat) :
    Act.Within (Act.Raises Fs.starved) (walkPathAt p va n i j r diskno) :=
  reading_starves.walkPathAt p va n i j r diskno fun j d => walkPathLoop_starves p va n (i + 1) j d

/-- A turn with the entry of the map at hand. -/
theorem walkPathAt_entry {ptr no : Nat} (he : Entry s l ptr no) :
    walkPathAt p va n i j 0 (some ptr) s =
      if no ≠ 0 then (bread no >>= fun pdir =>
        walkEntries va (blkSize / directSize - j) pdir >>= walkFound p va n i j (some ptr)) s
      else walkPathLoop p va n (i + 1) j (some ptr) s := by
  rw [walkPathAt, if_neg (Int.lt_irrefl 0), Act.deref_bind_apply, Act.bind_ok he.load]
  split
  · rfl
  · rfl

/-- Once a block was searched no entry is looked at any more. -/
theorem walkPathLoop_spent {no : Nat} (hl : FreeList s.mm l) (hn : s.mm.npages ≤ 2 ^ 19)
    (hp : Kept l p inodeSize) (hj : entriesPerBlock ≤ j) (hleft : s.Left l i diskno no)
    (hns : (walkPathLoop p va n i j diskno s).state.starved = false) :
    ∃ (r : Int) (s' : Fs), r < 0 ∧ walkPathLoop p va n i j diskno s = .ok (r, none) s' := by
  induction n generalizing s l i diskno no with
  | zero => exact ⟨-1, s, by decide, rfl⟩
  | succ n ih =>
    have hover : ∀ ptr pdir, (walkEntries va (blkSize / directSize - j) pdir >>=
        walkFound p va n i j (some ptr)) = walkPathLoop p va n (i + 1) j (some ptr) :=
      fun ptr pdir => by
        have hmax : max j (blkSize / directSize) = j := max_eq_left hj
        rw [show blkSize / directSize - j = 0 from Nat.sub_eq_zero_of_le hj]
        show walkFound p va n i j (some ptr) none = _
        rw [walkFound, hmax]
    rw [walkPathLoop_succ] at hns ⊢
    obtain ⟨ptr, s₁, l₁, hwalk, htook, hentry⟩ | ⟨hwalk, -⟩ := walkBlock_turn hl hn hp hleft
      (Act.Raises.of_bind (fun c => walkPathAt_starves p va n i j c.1 c.2) hns)
    · obtain ⟨no', hno'⟩ : ∃ no', no' = if i < 2058 then s.blockNo p i else no := ⟨_, rfl⟩
      rw [← hno'] at hentry
      rw [Act.bind_ok hwalk, walkPathAt_entry hentry] at hns ⊢
      by_cases hz : no' = 0
      · rw [if_neg (not_not.mpr hz)] at hns ⊢
        exact ih htook.free (htook.npages ▸ hn) (hp.mono htook.sub)
          (fun _ => ⟨ptr, rfl, hentry⟩) hns
      · rw [if_pos hz] at hns ⊢
        simp only [hover] at hns ⊢
        obtain ⟨q, l₂, s₂, rfl, hread, htook₂, -⟩ := bread_run htook.free (htook.npages ▸ hn)
          (Act.Raises.of_bind (fun _ => walkPathLoop_starves p va n (i + 1) j (some ptr)) hns)
        rw [Act.bind_ok hread] at hns ⊢
        exact ih htook₂.free (htook₂.npages ▸ htook.npages ▸ hn)
          ((hp.mono htook.sub).mono htook₂.sub) (fun _ => ⟨ptr, rfl, hentry.took htook₂⟩) hns
    · rw [Act.bind_ok hwalk]
      exact ⟨-2, s, by decide, rfl⟩

/-- The search of a block that was read finds the first entry that has the name on
disk. -/
theorem walkEntries_block {q no : Nat} (hq : q < 2 ^ 19) (hva : s.mm.Reads va cs)
    (hlen : nameOff + cs.length < directSize)
    (hbytes : ∀ i, i < blkSize → s.mm.mem (pageSize * q + i) = s.disk (blkSize * no + i)) :
    ∃ o, walkEntries va (blkSize / directSize - 0) (frameVa q) s = .ok o s ∧
      ((o = none ∧ ∀ j, j < entriesPerBlock →
        ¬ Spells s.disk (blkSize * no + directSize * j + nameOff) cs) ∨
      ∃ j, j < entriesPerBlock ∧ Spells s.disk (blkSize * no + directSize * j + nameOff) cs ∧
        (∀ j', j' < j → ¬ Spells s.disk (blkSize * no + directSize * j' + nameOff) cs) ∧
        o = some (s.inoTable +
          inodeSize * Mem.rd 2 s.disk (blkSize * no + directSize * j + inoOff))) := by
  have hper : directSize * entriesPerBlock = blkSize := by decide
  have hspell : ∀ j, j < entriesPerBlock →
      (Spells s.mm.mem (pageSize * q + directSize * j + nameOff) cs ↔
        Spells s.disk (blkSize * no + directSize * j + nameOff) cs) := fun j hj =>
    Spells.shift fun i hi => by
      have hfit : directSize * (j + 1) ≤ directSize * entriesPerBlock := Nat.mul_le_mul_left _ hj
      have hb := hbytes (directSize * j + (nameOff + i)) (by rw [Nat.mul_succ] at hfit; omega)
      rwa [← Nat.add_assoc, ← Nat.add_assoc, ← Nat.add_assoc, ← Nat.add_assoc] at hb
  have hrun := walkEntries_run (d := pageSize * q) (i := 0) (n := entriesPerBlock) hva
    (by rw [Nat.zero_add, hper]; unfold pageSize blkSize; omega) hlen
  rw [Nat.mul_zero, Nat.add_zero] at hrun
  refine ⟨_, hrun, ?_⟩
  cases hfirst : Bitmap.firstFrom
      (fun j => decide (Spells s.mm.mem (pageSize * q + directSize * j + nameOff) cs))
      entriesPerBlock 0 with
  | none =>
    refine .inl ⟨rfl, fun j hj hname => ?_⟩
    exact Bitmap.firstFrom_ne_none (Nat.zero_le j) (by rwa [Nat.zero_add])
      (decide_eq_true ((hspell j hj).mpr hname)) hfirst
  | some j =>
    obtain ⟨-, hlt, hname, hbefore⟩ := Bitmap.firstFrom_eq_some hfirst
    rw [Nat.zero_add] at hlt
    refine .inr ⟨j, hlt, (hspell j hlt).mp (of_decide_eq_true hname), fun j' hj' h => ?_, ?_⟩
    · exact of_decide_eq_false (hbefore j' (Nat.zero_le j') hj')
        ((hspell j' (Nat.lt_trans hj' hlt)).mpr h)
    · have hfit : directSize * (j + 1) ≤ directSize * entriesPerBlock := Nat.mul_le_mul_left _ hlt
      have hino : Mem.rd 2 s.mm.mem (pageSize * q + directSize * j + inoOff) =
          Mem.rd 2 s.disk (blkSize * no + directSize * j + inoOff) := Mem.rd_shift fun i hi => by
        have hb := hbytes (directSize * j + (inoOff + i)) (by
          rw [Nat.mul_succ] at hfit
          unfold inoOff directSize at *
          omega)
        rwa [← Nat.add_assoc, ← Nat.add_assoc, ← Nat.add_assoc, ← Nat.add_assoc] at hb
      rw [Option.map_some, hino]

/-- The search from block `i` on, before any block was found. -/
theorem walkPathLoop_run (hl : FreeList s.mm l) (hn : s.mm.npages ≤ 2 ^ 19)
    (hp : Kept l p inodeSize) (hva : s.mm.Holds l va cs)
    (hlen : nameOff + cs.length < directSize) (hleft : s.Left l i diskno 0)
    (hns : (walkPathLoop p va n i 0 diskno s).state.starved = false) :
    ∃ (r : Int) (o : Option Nat) (s' : Fs), walkPathLoop p va n i 0 diskno s = .ok (r, o) s' ∧
      s.Searched p cs i n r o := by
  induction n generalizing s l i diskno with
  | zero => exact ⟨-1, none, s, rfl, .inl ⟨by decide, rfl, fun b j h1 h2 => absurd h2 (by omega)⟩⟩
  | succ n ih =>
    rw [walkPathLoop_succ] at hns ⊢
    obtain ⟨ptr, s₁, l₁, hwalk, htook, hentry⟩ | ⟨hwalk, hnone⟩ := walkBlock_turn hl hn hp hleft
      (Act.Raises.of_bind (fun c => walkPathAt_starves p va n i 0 c.1 c.2) hns)
    · have hno : (if i < 2058 then s.blockNo p i else 0) = s.blockNo p i := by
        split
        · rfl
        · rw [Fs.blockNo, if_neg (by omega), if_neg (by assumption)]
      rw [hno] at hentry
      have hva₁ := hva.took htook
      rw [Act.bind_ok hwalk, walkPathAt_entry hentry] at hns ⊢
      by_cases hz : s.blockNo p i = 0
      · rw [hz] at hentry
        rw [if_neg (not_not.mpr hz)] at hns ⊢
        obtain ⟨r, o, s', hrun, hsearched⟩ := ih htook.free (htook.npages ▸ hn)
          (hp.mono htook.sub) hva₁ (fun _ => ⟨ptr, rfl, hentry⟩) hns
        exact ⟨r, o, s', hrun, (htook.searched hp hsearched).skip hz⟩
      · rw [if_pos hz] at hns ⊢
        obtain ⟨q, l₂, s₂, rfl, hread, htook₂, hq, -, hbytes⟩ := bread_run htook.free
          (htook.npages ▸ hn) (Act.Raises.of_bind
            (fun pdir => walkFound_starves p va n i 0 (some ptr) _ pdir) hns)
        have hall := htook.trans htook₂
        rw [← htook₂.disk] at hbytes
        obtain ⟨o, hentries, hfound⟩ := walkEntries_block hq (hva₁.took htook₂).reads hlen hbytes
        have htable := hall.inoTable
        rw [hall.disk, htable] at hfound
        rw [Act.bind_ok hread, Act.bind_ok hentries] at hns ⊢
        have hleads : s.Leads p i i := fun b h1 h2 => absurd h2 (by omega)
        rcases hfound with ⟨rfl, hno⟩ | ⟨j, hj, hname, hbefore, rfl⟩
        · obtain ⟨r, s', hr, hrun⟩ := @walkPathLoop_spent _ _ _ _ _ _ _ _ (s.blockNo p i) htook₂.free
            (hall.npages ▸ hn) (hp.mono hall.sub) (le_max_right 0 _)
            (fun _ => ⟨ptr, rfl, hentry.took htook₂⟩) hns
          refine ⟨r, none, s', hrun, .inl ⟨hr, rfl, fun b j h1 _ hlead hspell => ?_⟩⟩
          rcases Nat.eq_or_lt_of_le h1 with rfl | hlt
          · exact hno j hspell.2.1 hspell.2.2
          · exact hz (hlead i (Nat.le_refl i) hlt)
        · exact ⟨0, _, s₂, rfl, .inr ⟨i, j, Nat.le_refl i, by omega, hleads, ⟨hz, hj, hname⟩,
            fun j' hj' h => hbefore j' hj' h.2.2, rfl, rfl⟩⟩
    · rw [Act.bind_ok hwalk]
      refine ⟨-2, none, s, rfl, .inl ⟨by decide, rfl, fun b j h1 _ _ hspell => ?_⟩⟩
      exact hspell.1 (hnone b h1)

end Search

/-! ## The search of the directory -/

/-- How many blocks the root directory has. -/
def Fs.rootBlocks (s : Fs) : Nat :=
  Mem.rd 4 s.mm.mem (s.inode rootInode + diSizeOff - kbase) / blkSize

/-- Entry `j` of block `b` of the root directory has the name. -/
def Fs.Named (s : Fs) (cs : List UInt8) (b j : Nat) : Prop :=
  b < s.rootBlocks ∧ s.Spelled (s.inode rootInode) cs b j

/-- `walk_path` returns 0 just if an entry has the name, and the inode is that of the
first such entry. -/
def Fs.Finds (s : Fs) (fname : Nat) (cs : List UInt8) : Prop :=
  ∃ (r : Int) (o : Option Nat) (s' : Fs), walkPath fname s = .ok (r, o) s' ∧
    (r = 0 ↔ ∃ b j, s.Named cs b j) ∧
    ∀ b j, s.Named cs b j →
      (∀ b' j', s.Named cs b' j' → b < b' ∨ b = b' ∧ j ≤ j') →
      o = some (s.entryInode (s.inode rootInode) b j)

section Find

variable {s : Fs} {l : List Nat} {fname : Nat} {cs : List UInt8}

/-- `walk_path` reads the size of the directory, and searches its blocks. -/
theorem walkPath_loop (hroot : Kept l (s.inode rootInode) inodeSize) :
    walkPath fname s = walkPathLoop (s.inode rootInode) fname s.rootBlocks 0 0 none s := by
  have hsize : fsMm (load 4 (s.inode rootInode + diSizeOff)) s =
      .ok (Mem.rd 4 s.mm.mem (s.inode rootInode + diSizeOff - kbase)) s :=
    fsMm_ok ((hroot.part (o := diSizeOff) (k := 4) (by decide)).load (by decide) 4)
  rw [walkPath, Act.gets_bind_apply]
  exact Act.bind_ok hsize

/-- `walk_path` searches the first block that is there. -/
theorem walkPath_run (hl : FreeList s.mm l) (hn : s.mm.npages ≤ 2 ^ 19)
    (hroot : Kept l (s.inode rootInode) inodeSize) (hname : s.mm.Holds l fname cs)
    (hlen : cs.length ≤ 13) (hns : (walkPath fname s).state.starved = false) :
    ∃ (r : Int) (o : Option Nat) (s' : Fs), walkPath fname s = .ok (r, o) s' ∧
      s.Searched (s.inode rootInode) cs 0 s.rootBlocks r o := by
  rw [walkPath_loop hroot] at hns ⊢
  exact walkPathLoop_run hl hn hroot hname (by unfold nameOff directSize; omega)
    (fun h => absurd h (by decide)) hns

/-- Frames were taken, and that is all, unless there was none. -/
def Fs.OnlyTakes (s s' : Fs) : Prop :=
  Act.Raises Fs.starved s s' ∧ ∀ l, FreeList s.mm l → s.mm.npages ≤ 2 ^ 19 →
    s'.starved = false → ∃ l', Took s l s' l'

theorem onlyTakes_reading : Fs.Reading Fs.OnlyTakes where
  refl s := ⟨Act.Raises.refl s, fun l hl _ _ => ⟨l, Took.refl hl⟩⟩
  trans {a b c} h h' := by
    refine ⟨Act.Raises.trans h.1 h'.1, fun l hl hn hst => ?_⟩
    have hmid : b.starved = false := by
      rw [← Bool.not_eq_true]
      intro hb
      rw [h'.1 hb] at hst
      cases hst
    obtain ⟨l₁, h₁⟩ := h.2 l hl hn hmid
    obtain ⟨l₂, h₂⟩ := h'.2 l₁ h₁.free (h₁.npages ▸ hn) hst
    exact ⟨l₂, h₁.trans h₂⟩
  bread no s := by
    refine ⟨bread_starves no s, fun l hl hn hst => ?_⟩
    obtain ⟨q, l', s', rfl, hrun, htook, -⟩ := bread_run hl hn hst
    rw [hrun]
    exact ⟨l', htook⟩

/-- `walk_path` takes frames, and that is all. -/
theorem walkPath_took {o : Int × Option Nat} {s' : Fs} (hl : FreeList s.mm l)
    (hn : s.mm.npages ≤ 2 ^ 19) (hrun : walkPath fname s = .ok o s') (hns : s'.starved = false) :
    ∃ l', Took s l s' l' := by
  have htakes := onlyTakes_reading.walkPath fname s
  rw [hrun] at htakes
  exact htakes.2 l hl hn hns

/-- FIND: `walk_path` returns 0 just if an entry of the root directory has the name,
and then the inode of the first, if and only if the name, if it is in the directory
at all, is in the first block that is there. -/
theorem walk_path_finds (hl : FreeList s.mm l) (hn : s.mm.npages ≤ 2 ^ 19)
    (hroot : Kept l (s.inode rootInode) inodeSize) (hname : s.mm.Holds l fname cs)
    (hlen : cs.length ≤ 13) (hns : (walkPath fname s).state.starved = false) :
    s.Finds fname cs ↔ ∀ b j, s.Named cs b j →
      ∃ b' j', s.Named cs b' j' ∧ s.Leads (s.inode rootInode) 0 b' := by
  obtain ⟨r, o, s', hrun, hsearched⟩ := walkPath_run hl hn hroot hname hlen hns
  constructor
  · rintro ⟨r₁, o₁, s₁, hrun₁, hfound, -⟩ b j hnamed
    rw [hrun] at hrun₁
    injection hrun₁ with hr _
    injection hr with hr _
    have hzero : r = 0 := hr.trans (hfound.mpr ⟨b, j, hnamed⟩)
    rcases hsearched with ⟨hneg, -⟩ | ⟨b', j', -, hb', hlead, hspell, -⟩
    · omega
    · exact ⟨b', j', ⟨by rwa [Nat.zero_add] at hb', hspell⟩, hlead⟩
  · intro hcond
    refine ⟨r, o, s', hrun, ?_, fun b j hnamed hfirst => ?_⟩
    · rcases hsearched with ⟨hneg, -, hnone⟩ | ⟨b, j, -, hb, -, hspell, -, hr, -⟩
      · refine ⟨fun h => by omega, fun ⟨b, j, hnamed⟩ => ?_⟩
        obtain ⟨b', j', hnamed', hlead⟩ := hcond b j hnamed
        exact absurd hnamed'.2 (hnone b' j' (Nat.zero_le b') (by rw [Nat.zero_add]; exact hnamed'.1) hlead)
      · exact ⟨fun _ => ⟨b, j, by rwa [Nat.zero_add] at hb, hspell⟩, fun _ => hr⟩
    · obtain ⟨b₀, j₀, hnamed₀, hlead₀⟩ := hcond b j hnamed
      rcases hsearched with ⟨-, -, hnone⟩ | ⟨b', j', -, hb', hlead', hspell', hbefore', -, ho⟩
      · exact absurd hnamed₀.2
          (hnone b₀ j₀ (Nat.zero_le b₀) (by rw [Nat.zero_add]; exact hnamed₀.1) hlead₀)
      · -- the first entry is in the first block that is there, and so the one found
        rw [Nat.zero_add] at hb'
        have hle : b' ≤ b := by
          by_contra hlt
          exact hnamed.2.1 (hlead' b (Nat.zero_le b) (Nat.lt_of_not_le hlt))
        obtain ⟨rfl, hj⟩ := (hfirst b' j' ⟨hb', hspell'⟩).resolve_left (by omega)
        have hj' : ¬ j < j' := fun hlt => hbefore' j hlt hnamed.2
        rw [ho, show j = j' by omega]

end Find

/-! ## A directory of two blocks -/

section Spends

variable {α : Type}

/-- Code that stays where it is spends nothing. -/
theorem Spends.of_stays {x : Act Mm α} (h : Act.Within (fun s s' => s' = s) x) : Spends id 0 x :=
  fun s => by
    rw [h s]
    exact Spends.of_same rfl rfl rfl rfl

theorem walkEntries_spends (fname n pdir : Nat) : Spends Fs.mm 0 (walkEntries fname n pdir) := by
  induction n generalizing pdir with
  | zero => exact Spends.pure _
  | succ n ih =>
    refine Spends.next (Spends.fsMm (Spends.of_stays (Fs.Reading.strcmpLoop_stays _ _ _))) fun c => ?_
    show Spends Fs.mm 0 (if _ then _ else _)
    split
    · exact Spends.next (Spends.fsMm (Spends.load 2 _)) fun ino =>
        Spends.next (Spends.gets _) fun table => Spends.pure _
    · exact ih _

/-- The search of `n` blocks takes two frames a block at most. -/
theorem walkPathLoop_spends (p fname n i j : Nat) (diskno : Option Nat) :
    Spends Fs.mm (2 * n) (walkPathLoop p fname n i j diskno) := by
  induction n generalizing i j diskno with
  | zero => exact Spends.pure _
  | succ n ih =>
    have hat : ∀ r : Int × Option Nat, Spends Fs.mm (1 + 2 * n) (walkPathAt p fname n i j r.1 r.2) := by
      intro r
      unfold walkPathAt
      split
      · exact (Spends.pure _).mono (Nat.zero_le _)
      · refine Spends.next (Spends.deref _) fun ptr =>
          Spends.next (Spends.fsMm (Spends.load 2 ptr)) fun no => ?_
        show Spends Fs.mm _ (if _ then _ else _)
        split
        · refine Spends.bind (Spends.bread no) fun pdir =>
            Spends.next (walkEntries_spends fname _ pdir) fun o => ?_
          cases o with
          | none => exact ih _ _ _
          | some inode => exact (Spends.pure _).mono (Nat.zero_le _)
        · exact (ih _ _ _).mono (Nat.le_add_left _ _)
    rw [walkPathLoop_succ, show 2 * (n + 1) = 1 + (1 + 2 * n) by omega]
    exact Spends.bind (Spends.walkBlock p i diskno 0) hat

end Spends

/-- A string in the direct map, in no free frame. -/
theorem Mm.Holds.direct {s : Mm} {l : List Nat} {a : Nat} {cs : List UInt8} (h : Spells s.mem a cs)
    (halt : a + cs.length < 2 ^ 31) (hout : ∀ x, a ≤ x → x ≤ a + cs.length → x / pageSize ∉ l) :
    s.Holds l (kbase + a) cs := by
  intro s' _ hmem
  have hspell : Spells s'.mem a cs := h.congr fun x h1 h2 => hmem x (hout x h1 h2)
  clear h hout hmem
  induction cs generalizing a with
  | nil =>
    have hz : s'.mem a = 0 := hspell
    exact (load_byte (by omega)).trans (by rw [hz]; rfl)
  | cons c cs ih =>
    rw [List.length_cons] at halt
    obtain ⟨hc, hne, hrest⟩ := hspell
    exact ⟨(load_byte (by omega)).trans (by rw [hc]), hne, ih (by omega) hrest⟩

section Sample

/-- The root directory has two blocks, 20 and 21. -/
def sampleWide : Mem :=
  Mem.wr 2 (Mem.wr 4 sampleInodes (pageSize * 1) 8192) (pageSize * 1 + blockOff + 2) 21

/-- Block 20 has no entry, and the first of block 21 has the name. -/
def sampleLater : Mem := fun y =>
  if y = blkSize * 21 + inoOff then 1 else if y = blkSize * 21 + nameOff then 97 else 0

/-- The same frames are free as before. -/
def sampleTwo : Fs :=
  (Fs.setMm (sampleFile.fs.mm.setMem sampleWide) sampleFile.fs).setDisk sampleLater

theorem sampleTwo_list : FreeList sampleTwo.mm [8, 9, 10, 11, 12, 13, 14, 15] :=
  sampleFile_list.congr rfl rfl rfl

theorem sampleTwo_root : sampleTwo.inode rootInode = frameVa 1 := by
  have htable : sampleTwo.inoTable = frameVa 1 := rfl
  rw [Fs.inode, htable, rootInode, Nat.mul_zero, Nat.add_zero]

theorem sampleTwo_kept :
    Kept [8, 9, 10, 11, 12, 13, 14, 15] (sampleTwo.inode rootInode) inodeSize := by
  have hkept := sampleInodes_kept (l := [8, 9, 10, 11, 12, 13, 14, 15]) (by decide)
    (by decide : 0 < 2)
  rwa [Nat.mul_zero, Nat.add_zero, ← sampleTwo_root] at hkept

theorem sampleTwo_blocks : sampleTwo.rootBlocks = 2 := by
  have hsub : sampleTwo.inode rootInode + diSizeOff - kbase = pageSize * 1 := by
    rw [sampleTwo_root, frameVa, diSizeOff, Nat.add_zero, Nat.add_sub_cancel_left]
  have hmem : sampleTwo.mm.mem = sampleWide := rfl
  rw [Fs.rootBlocks, hsub, hmem]
  decide

theorem sampleTwo_blockNo {b : Nat} (hb : b < 2) :
    sampleTwo.blockNo (sampleTwo.inode rootInode) b = 20 + b := by
  have hsub : blockSlot (frameVa 1) b - kbase = pageSize * 1 + blockOff + 2 * b := by
    unfold blockSlot frameVa
    omega
  have hmem : sampleTwo.mm.mem = sampleWide := rfl
  rw [Fs.blockNo, if_pos (by omega), sampleTwo_root, Fs.slot, hsub, hmem]
  clear hsub
  obtain rfl | rfl : b = 0 ∨ b = 1 := by omega
  · decide
  · decide

theorem sampleTwo_name : sampleTwo.mm.Holds [8, 9, 10, 11, 12, 13, 14, 15] (frameVa 4) [97] := by
  have hend : sampleWide (pageSize * 4 + 1) = 0 := by decide
  refine Mm.Holds.direct (⟨by decide, by decide, hend⟩ : Spells sampleWide (pageSize * 4) [97])
    (by decide) fun x h1 h2 hx => ?_
  have hdiv : x / pageSize = 4 := by
    rw [List.length_singleton] at h2
    unfold pageSize at *
    omega
  rw [hdiv] at hx
  exact absurd hx (by decide)

/-! The disk has no part in what the inodes say. -/

theorem Fs.setDisk_inode (s : Fs) (d : Mem) (i : Nat) : (s.setDisk d).inode i = s.inode i := rfl

theorem Fs.setDisk_rootBlocks (s : Fs) (d : Mem) : (s.setDisk d).rootBlocks = s.rootBlocks := rfl

theorem Fs.setDisk_blockNo (s : Fs) (d : Mem) {p b : Nat} (hb : b < 10) :
    (s.setDisk d).blockNo p b = s.blockNo p b := by
  rw [Fs.blockNo, Fs.blockNo, if_pos hb, if_pos hb]
  rfl

/-- Whatever is on the disk, there are frames for its two blocks. -/
theorem sampleTwo_served (disk : Mem) :
    (walkPath (frameVa 4) (sampleTwo.setDisk disk)).state.starved = false := by
  have hkept := sampleTwo_kept
  rw [← Fs.setDisk_inode _ disk] at hkept
  have hspends : Spends Fs.mm (2 * (sampleTwo.setDisk disk).rootBlocks)
      (walkPathLoop ((sampleTwo.setDisk disk).inode rootInode) (frameVa 4)
        (sampleTwo.setDisk disk).rootBlocks 0 0 none) := walkPathLoop_spends _ _ _ _ _ _
  have hrun := @walkPath_loop _ _ (frameVa 4) hkept
  rw [Fs.setDisk_rootBlocks, sampleTwo_blocks] at hspends hrun
  rw [hrun, Fs.starved]
  exact (hspends (sampleTwo.setDisk disk) _ sampleTwo_list (by decide : 16 ≤ 2 ^ 19) (by decide) rfl).1

/-- The first entry of block 21 has the name, and no entry of block 20. -/
theorem sampleTwo_named : sampleTwo.Named [97] 1 0 ∧ ∀ j, ¬ sampleTwo.Named [97] 0 j := by
  have hdisk : sampleTwo.disk = sampleLater := rfl
  refine ⟨⟨by rw [sampleTwo_blocks]; decide, ?_⟩, fun j hnamed => ?_⟩
  · have hend : sampleLater (blkSize * 21 + nameOff + 1) = 0 := by decide
    refine ⟨by rw [sampleTwo_blockNo (by decide)]; decide, by decide, ?_⟩
    rw [Fs.direntAddr, sampleTwo_blockNo (by decide), hdisk]
    exact ⟨by decide, by decide, hend⟩
  · obtain ⟨-, -, hj, hspell⟩ := hnamed
    rw [Fs.direntAddr, sampleTwo_blockNo (by decide), hdisk] at hspell
    have hchar : sampleLater (blkSize * (20 + 0) + directSize * j + nameOff) = 97 := hspell.1
    have hlt : directSize * j + nameOff < blkSize := by
      unfold entriesPerBlock blkSize directSize nameOff at *
      omega
    rw [sampleLater, if_neg (by unfold inoOff blkSize at *; omega),
      if_neg (by unfold nameOff blkSize at *; omega)] at hchar
    exact absurd hchar (by decide)

/-- The search ends with block 20, and does not find the name in block 21. -/
theorem walk_path_misses : ¬ ∀ (s : Fs) (l : List Nat) (fname : Nat) (cs : List UInt8),
    FreeList s.mm l → s.mm.npages ≤ 2 ^ 19 → Kept l (s.inode rootInode) inodeSize →
    s.mm.Holds l fname cs → 1 ≤ cs.length → cs.length ≤ 13 →
    (walkPath fname s).state.starved = false → s.Finds fname cs := by
  intro h
  obtain ⟨r, o, s', hrun, hfound, -⟩ := h sampleTwo _ (frameVa 4) [97] sampleTwo_list
    (by decide : 16 ≤ 2 ^ 19) sampleTwo_kept sampleTwo_name (by decide) (by decide)
    (sampleTwo_served sampleLater)
  obtain ⟨r', o', s₁, hrun', hsearched⟩ := walkPath_run sampleTwo_list (by decide : 16 ≤ 2 ^ 19)
    sampleTwo_kept sampleTwo_name (by decide) (sampleTwo_served sampleLater)
  rw [hrun] at hrun'
  injection hrun' with hr _
  injection hr with hr _
  have hzero : r' = 0 := hr.symm.trans (hfound.mpr ⟨1, 0, sampleTwo_named.1⟩)
  rcases hsearched with ⟨hneg, -⟩ | ⟨b, j, -, hb, hlead, hspell, -⟩
  · omega
  · rw [Nat.zero_add] at hb
    have hb0 : b = 0 := by
      by_contra hne
      have h0 := hlead 0 (Nat.le_refl 0) (Nat.pos_of_ne_zero hne)
      rw [sampleTwo_blockNo (by decide)] at h0
      exact absurd h0 (by decide)
    subst hb0
    exact sampleTwo_named.2 j ⟨hb, hspell⟩

/-- The name in the first entry of each block. -/
def sampleEarlier : Mem := fun y => if y % blkSize = nameOff then 97 else 0

/-- It is found in the first block. -/
theorem walk_path_finds_first : (sampleTwo.setDisk sampleEarlier).Finds (frameVa 4) [97] := by
  have hchar : sampleEarlier (blkSize * 20 + directSize * 0 + nameOff) = 97 := if_pos (by decide)
  have hend : sampleEarlier (blkSize * 20 + directSize * 0 + nameOff + 1) = 0 :=
    if_neg (by decide)
  have hno : (sampleTwo.setDisk sampleEarlier).blockNo (sampleTwo.inode rootInode) 0 = 20 := by
    rw [Fs.setDisk_blockNo _ _ (by decide), sampleTwo_blockNo (by decide)]
  have hnamed : (sampleTwo.setDisk sampleEarlier).Named [97] 0 0 := by
    refine ⟨?_, ?_⟩
    · rw [Fs.setDisk_rootBlocks, sampleTwo_blocks]
      decide
    · rw [Fs.setDisk_inode]
      refine ⟨by rw [hno]; decide, by decide, ?_⟩
      rw [Fs.direntAddr, hno, Fs.setDisk_disk]
      exact ⟨hchar, by decide, hend⟩
  have hlist := sampleTwo_list
  have hkept := sampleTwo_kept
  have hname := sampleTwo_name
  rw [← Fs.setDisk_mm _ sampleEarlier] at hlist hname
  rw [← Fs.setDisk_inode _ sampleEarlier] at hkept
  refine (walk_path_finds hlist (by decide : 16 ≤ 2 ^ 19) hkept hname (by decide)
    (sampleTwo_served sampleEarlier)).mpr fun _ _ _ => ⟨0, 0, hnamed, ?_⟩
  exact fun i _ hi => absurd hi (Nat.not_lt_zero i)

end Sample

end Myos.Kernel
