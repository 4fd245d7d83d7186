import Myos.Image.Names

/-!
# The round trip of the names

A name that `create_file_image` has returned nought for is looked for, by the builder and by
the kernel. It is found, by comparisons that stay inside the names, as long as every
accepted name has 13 characters at most and an entry of the first block
(`names_round_trip`): a name of 14 has no nought in its entry, and the search never comes
to the second block.
-/

namespace Myos.Image

open Myos.Lib
open Myos.Kernel (Fs Mm Spells Mounted kbase frameVa pageSize blkSize rootInode inodesInTable
  inodeSize blockOff directSize nameOff inoOff diSizeOff)

/-- The call returns. -/
def Call.Returns (c : Call) (m : Mem) : Prop :=
  ∃ r m', createFileImage c.turns c.name c.file m = .ok r m'

/-- The call returns nought. -/
def Call.Accepted (c : Call) (m : Mem) : Prop :=
  ∃ m', createFileImage c.turns c.name c.file m = .ok 0 m'

/-- A lookup of the name finds entry `n`: the builder's, and that of a kernel that has the image at
hand and the name in memory. -/
structure Retrieved (m : Mem) (name : List UInt8) (n : Nat) : Prop where
  image : walkPath name m = .ok 0 m
  kernel : ∀ s l va, Serves m s l → s.mm.Holds l va name →
    (Myos.Kernel.walkPath va s).state.starved = false →
      ∃ s', Myos.Kernel.walkPath va s = .ok (0, some (s.inode (entryIno m n))) s'

/-- At the entries that the search for a name comes to, `strcmp` looks at 14 characters at most. -/
def Inside (m : Mem) (name : List UInt8) : Prop :=
  ∀ e < entries, (∀ i < e, named m i name = false) →
    looked (dirents m) (directSize * e + nameOff) name ≤ 14

/-- What lookups find after a row of calls. -/
structure RoundTrips (m : Mem) (calls : List Call) : Prop where
  found : ∀ k (hk : k < calls.length), calls[k].Accepted (stateAt m calls k) →
    calls[k].name ≠ [] → ∀ j, k < j → j ≤ calls.length →
      Retrieved (stateAt m calls j) calls[k].name (slotFor (stateAt m calls k))
  apart : ∀ k k' (hk : k < calls.length) (hk' : k' < calls.length),
    calls[k].Accepted (stateAt m calls k) → calls[k].name ≠ [] →
    calls[k'].Accepted (stateAt m calls k') → calls[k'].name ≠ [] →
    calls[k].name ≠ calls[k'].name → slotFor (stateAt m calls k) ≠ slotFor (stateAt m calls k')
  within : ∀ k (hk : k < calls.length), calls[k].Accepted (stateAt m calls k) →
    calls[k].name ≠ [] → ∀ j, k < j → j ≤ calls.length → Inside (stateAt m calls j) calls[k].name

/-- The accepted names are short, and the first block has an empty entry for each. -/
def ShortAndFirst (m : Mem) (calls : List Call) : Prop :=
  ∀ k (hk : k < calls.length), calls[k].Accepted (stateAt m calls k) → calls[k].name ≠ [] →
    calls[k].name.length ≤ 13 ∧ slotFor (stateAt m calls k) < entries

/-- The name of every entry of the first block ends in it. -/
def Ended (m : Mem) : Prop :=
  ∀ e < entries, ∃ i < 14, dirents m (directSize * e + (nameOff + i)) = 0

section RoundTrip

variable {m m' : Mem} {c : Call} {n e a : Nat} {ino : Fin inodes} {name : List UInt8}

/-! ## Comparisons -/

/-- A comparison does not go past a nought. -/
theorem looked_le_of_nought {i : Nat} (hz : m (a + i) = 0) (hname : 0 ∉ name) :
    looked m a name ≤ i + 1 := by
  induction name generalizing a i with
  | nil => exact Nat.succ_le_succ (Nat.zero_le i)
  | cons c cs ih =>
    rw [List.mem_cons, not_or] at hname
    rw [looked]
    split
    · next hc =>
      cases i with
      | zero =>
        rw [Nat.add_zero, hc] at hz
        exact absurd hz.symm hname.1
      | succ i =>
        have hnext : m (a + 1 + i) = 0 := by rwa [Nat.add_assoc, Nat.add_comm 1 i]
        exact Nat.succ_le_succ (ih hnext hname.2)
    · exact Nat.succ_le_succ (Nat.zero_le i)

theorem Ended.inside (h : Ended m) (hname : 0 ∉ name) : Inside m name := by
  intro e he _
  obtain ⟨i, hi, hz⟩ := h e he
  rw [← Nat.add_assoc] at hz
  exact (looked_le_of_nought hz hname).trans hi

/-- The characters of a name that is at an address. -/
theorem spelled_byte {i : Nat} (h : spelled m a name = true) (hi : i < name.length) :
    m (a + i) = name.getD i 0 := by
  induction name generalizing a i with
  | nil => exact absurd hi (Nat.not_lt_zero i)
  | cons c cs ih =>
    rw [spelled, Bool.and_eq_true, decide_eq_true_iff] at h
    cases i with
    | zero => exact h.1
    | succ i =>
      rw [List.getD_cons_succ, ← ih h.2 (Nat.lt_of_succ_lt_succ hi), Nat.add_assoc, Nat.add_comm 1 i]

/-- Where no comparison of a long name goes past 14 characters, the search comes to every entry. -/
theorem Inside.all (h : Inside m name) (hlen : 14 ≤ name.length) (he : e < entries) :
    looked (dirents m) (directSize * e + nameOff) name ≤ 14 := by
  induction e using Nat.strong_induction_on with
  | _ e ih =>
    refine h e he fun i hi => ?_
    by_contra hnamed
    rw [Bool.not_eq_false] at hnamed
    have hle := ih i hi (hi.trans he)
    rw [looked_spelled hnamed] at hle
    omega

/-- So no entry has its first 14 characters. -/
theorem Inside.differs (h : Inside m name) (hlen : 14 ≤ name.length) (he : e < entries)
    (hbytes : ∀ i < 14, dirents m (directSize * e + nameOff + i) = name.getD i 0) : False := by
  have hlt := lt_looked hbytes hlen
  have hle := h.all hlen he
  omega

/-! ## The calls -/

/-- What is accepted is entered. -/
theorem Call.Accepted.enters (h : c.Accepted m) (hm : Formed m) : c.Enters m := by
  by_contra hno
  obtain ⟨m', hrun⟩ := h
  rcases Call.refused hm.toRooted hm.small hno with hfault | ⟨m₁, hfail, -⟩
  · rw [hfault] at hrun
    cases hrun
  · rw [hfail] at hrun
    cases hrun

/-- What is entered is accepted, if the call returns. -/
theorem Call.Returns.accepted (h : c.Returns m) (hm : Formed m) (hc : c.Enters m)
    (hfree : 1 ≤ freeInodes m) : c.Accepted m := by
  obtain ⟨r, m', hrun⟩ := h
  obtain ⟨ino, hino, -⟩ := freeIno_table hfree
  obtain ⟨m₁, -, hsame⟩ := hc.run hm.toRooted hm.small hino
  rw [hsame] at hrun
  obtain ⟨_, m₂, -, hend⟩ := Act.bind_eq_ok.mp hrun
  cases hend
  exact ⟨m', hsame.trans hrun⟩

/-- An entry with a short name has it. -/
theorem Stands.named (h : Stands m n ino name) (hlen : name.length ≤ 13) (hname : 0 ∉ name) :
    named m n name = true :=
  (spelled_stored (fun i hi => h.name_byte (by omega)) hname hname).mpr rfl

/-- An entry with another name does not have it. -/
theorem Stands.named_other (h : Stands m n ino c.name) (hlen : name.length ≤ 13) (hname : 0 ∉ name)
    (hstored : 0 ∉ c.name) (hne : c.name ≠ name) : Image.named m n name = false := by
  by_contra hnamed
  rw [Bool.not_eq_false] at hnamed
  exact hne ((spelled_stored (fun i hi => h.name_byte (by omega)) hname hstored).mp hnamed)

/-- Without an entry that is known there is none of that name. -/
theorem not_named (h : ¬ Known m name) (hlen : name.length ≤ 13) (hname : 0 ∉ name) (hne : name ≠ [])
    (he : e < entries) : named m e name = false := by
  by_contra hnamed
  rw [Bool.not_eq_false] at hnamed
  rcases Nat.eq_zero_or_pos (rootBlocks m) with hz | hpos
  · -- nought is no character of the name
    obtain ⟨c, cs, rfl⟩ := List.exists_cons_of_ne_nil hne
    have hc := spelled_byte hnamed (Nat.succ_pos _)
    rw [dirents, hz, if_neg (Nat.not_lt_zero _)] at hc
    rw [List.mem_cons, not_or] at hname
    exact hname.1 hc
  · exact h ((known_iff hlen).mpr ⟨hpos, e, he, hnamed⟩)

/-- CALL: the entry is the only one with the name. -/
theorem Made.sole (h : Made m m' ino name) (hk : ¬ Known m name) (hlen : name.length ≤ 13)
    (hname : 0 ∉ name) (hne : name ≠ []) : Sole m' (slotFor m) name := by
  intro e he hes
  rw [@Made.named_ne m m' e ino name ⟨0, name, none⟩ h hes hlen]
  exact not_named hk hlen hname hne he

/-- CALL: an entry of the first block stays the only one with its name. -/
theorem Sole.after (h : Sole m n name) (hs : Stands m n ino name) (hn : n < entries) (hm : Formed m)
    (hfree : c.Enters m → 1 ≤ freeInodes m) (hlen : name.length ≤ 13) (hname : 0 ∉ name)
    (hstored : 0 ∉ c.name) : Sole (c.after m) n name := by
  intro e he hen
  by_cases hc : c.Enters m
  · obtain ⟨ino', hino, -⟩ := freeIno_table (hfree hc)
    have hmade := hc.made hm.toRooted hm.small hino
    by_cases hes : e = slotFor m
    · rw [hes]
      refine hmade.stands.named_other hlen hname hstored fun hsame => hc.unknown hm ?_
      rw [hsame]
      have hpos := hs.slot
      rw [Nat.div_eq_of_lt hn] at hpos
      exact (known_iff hlen).mpr ⟨hpos, n, hn, hs.named hlen hname⟩
    · rw [hmade.named_ne hes hlen]
      exact h e he hen
  · have hkept := Call.kept hm.toRooted hm.small hc
    rw [named, hkept.dirents]
    exact h e he hen

/-- CALL: the names of the first block end in their entries, if the new one is short or is not in
it. -/
theorem Ended.after (h : Ended m) (hm : Formed m) (hfree : c.Enters m → 1 ≤ freeInodes m)
    (hshort : c.Enters m → slotFor m < entries → c.name.length ≤ 13) : Ended (c.after m) := by
  intro e he
  by_cases hc : c.Enters m
  · obtain ⟨ino, hino, -⟩ := freeIno_table (hfree hc)
    have hmade := hc.made hm.toRooted hm.small hino
    by_cases hes : e = slotFor m
    · have hlen := hshort hc (hes ▸ he)
      refine ⟨c.name.length, by omega, ?_⟩
      rw [hes, ← Nat.add_assoc, hmade.stands.name_byte (by omega)]
      exact List.getD_eq_default _ _ (Nat.le_refl _)
    · obtain ⟨i, hi, hz⟩ := h e he
      refine ⟨i, hi, ?_⟩
      rw [hmade.byte_ne hes (by unfold nameOff directSize; omega)]
      exact hz
  · rw [(Call.kept hm.toRooted hm.small hc).dirents]
    exact h e he

/-! ## The lookups -/

/-- The directory has as many blocks in memory as in the image. -/
theorem Serves.rootBlocks {s : Fs} {l : List Nat} (h : Serves m s l) :
    s.rootBlocks = Image.rootBlocks m := by
  have hsize := h.size root (by decide)
  have hva : s.inode rootInode + diSizeOff - kbase = s.inode rootInode - kbase + diSizeOff := by
    rw [diSizeOff, Nat.add_zero, Nat.add_zero]
  rw [Fs.rootBlocks, Image.rootBlocks, ← hsize, hva]
  rfl

/-- The kernel finds the only entry of the first block that has the name. -/
theorem Sole.kernel (h : Sole m n name) (hs : Stands m n ino name) (hn : n < entries)
    (hm : Formed m) (hlen : name.length ≤ 13) (hname : 0 ∉ name) {s : Fs} {l : List Nat} {va : Nat}
    (hserves : Serves m s l) (hva : s.mm.Holds l va name)
    (hns : (Myos.Kernel.walkPath va s).state.starved = false) :
    ∃ s', Myos.Kernel.walkPath va s = .ok (0, some (s.inode (entryIno m n))) s' := by
  obtain ⟨hl, hn₁, hroot⟩ : Myos.Kernel.FreeList s.mm l ∧ s.mm.npages ≤ 2 ^ 19 ∧
      Myos.Kernel.Kept l (s.inode rootInode) inodeSize := by
    obtain ⟨ft, fb, hmount, -⟩ := hserves
    exact ⟨hmount.free, hmount.npages, hmount.kept_inode (by decide)⟩
  have hpos := hs.slot
  rw [Nat.div_eq_of_lt hn] at hpos
  have hno : s.blockNo (s.inode rootInode) 0 = blockNo m root 0 :=
    hserves.blockNo root (by decide) (by decide)
  have hpresent : s.blockNo (s.inode rootInode) 0 ≠ 0 := by
    rw [hno]
    exact hm.present 0 hpos
  have hspelled : ∀ j < entries, Spells s.disk (s.direntAddr (s.inode rootInode) 0 j + nameOff) name ↔
      named m j name = true := by
    intro j hj
    rw [named_slotAt (by rwa [Nat.div_eq_of_lt hj]) hlen, spelled_iff_spells hname, hserves.disk,
      Fs.direntAddr, hno, slotAt, Nat.div_eq_of_lt hj, Nat.mod_eq_of_lt hj]
    rfl
  obtain ⟨r, o, s', hrun, hsearched⟩ := Myos.Kernel.walkPath_run hl hn₁ hroot hva hlen hns
  unfold Fs.Searched at hsearched
  rw [hserves.rootBlocks, Nat.zero_add] at hsearched
  rcases hsearched with ⟨-, -, hnone⟩ | ⟨b, j, -, -, hlead, ⟨-, hj, hspell⟩, -, rfl, rfl⟩
  · refine absurd ⟨hpresent, hn, (hspelled n hn).mpr (hs.named hlen hname)⟩
      (hnone 0 n (Nat.le_refl 0) hpos fun b _ hb => absurd hb (Nat.not_lt_zero b))
  · have hb : b = 0 := by
      by_contra hne
      exact hpresent (hlead 0 (Nat.le_refl 0) (Nat.pos_of_ne_zero hne))
    subst hb
    have hjn : j = n := by
      by_contra hne
      have hnamed := (hspelled j hj).mp hspell
      rw [h j hj hne] at hnamed
      cases hnamed
    have hino : Mem.rd 2 s.disk (s.direntAddr (s.inode rootInode) 0 n + inoOff) = entryIno m n := by
      refine Mem.rd_shift fun i hi => ?_
      rw [Nat.add_assoc (directSize * n), dirents_slot hs.slot (by unfold inoOff directSize; omega),
        hserves.disk, Fs.direntAddr, hno, slotAt, Nat.div_eq_of_lt hn, Nat.mod_eq_of_lt hn,
        ← Nat.add_assoc]
      rfl
    rw [hjn, Fs.entryInode, hino] at hrun
    exact ⟨s', hrun⟩

/-- The builder finds an entry of the first block. -/
theorem Stands.image (hs : Stands m n ino name) (hn : n < entries) (hm : Formed m)
    (hlen : name.length ≤ 13) (hname : 0 ∉ name) : walkPath name m = .ok 0 m := by
  have hpos := hs.slot
  rw [Nat.div_eq_of_lt hn] at hpos
  have hknown : Known m name := (known_iff hlen).mpr ⟨hpos, n, hn, hs.named hlen hname⟩
  have hfit : blkSize * blocks + 13 ≤ imgSize := by decide
  have hend : blkSize * blocks + name.length ≤ imgSize := by omega
  rcases walkPath_run hm.toRooted hm.small.le hend with ⟨-, hrun⟩ | ⟨hno, -⟩
  · exact hrun
  · exact absurd hknown hno

/-- A name that is found is in an entry of the first block, as far as the entry goes. -/
theorem found_byte (hm : Formed m) (h : walkPath name m = .ok 0 m) :
    0 < rootBlocks m ∧ ∃ e < entries, spelled m (slotAt m e + nameOff) name = true := by
  rcases walkPath_eq_ok hm.toRooted hm.small.le h with ⟨-, ⟨⟨hpos, e, he, hspell⟩, -⟩ | ⟨-, hr⟩⟩
  · refine ⟨hpos, e, he, ?_⟩
    rw [slotAt, Nat.div_eq_of_lt he, Nat.mod_eq_of_lt he]
    exact hspell
  · exact absurd hr (by decide)

/-- CALL: a name that is accepted and looked up again is short and in the first block. -/
theorem Made.short (h : Made m m' ino name) (hm' : Formed m') (hk : ¬ Known m name)
    (hfound : walkPath name m' = .ok 0 m') (hin : Inside m' name) :
    name.length ≤ 13 ∧ slotFor m < entries := by
  obtain ⟨hpos, e, he, hspell⟩ := found_byte hm' hfound
  have hslot : e / entries < rootBlocks m' := by rwa [Nat.div_eq_of_lt he]
  have hlen : name.length ≤ 13 := by
    by_contra hlong
    refine hin.differs (by omega) he fun i hi => ?_
    rw [← spelled_byte hspell (by omega), Nat.add_assoc, Nat.add_assoc]
    exact dirents_slot hslot (by unfold nameOff directSize; omega)
  refine ⟨hlen, ?_⟩
  by_contra hlast
  -- the first block is what it was
  rw [← named_slotAt hslot hlen, @Made.named_ne m m' e ino name ⟨0, name, none⟩ h (by omega) hlen]
    at hspell
  have hblock : 1 ≤ slotFor m / entries := (Nat.one_le_div_iff (by decide)).mpr (Nat.not_lt.mp hlast)
  exact hk ((known_iff hlen).mpr ⟨hblock.trans slotFor_le, e, he, hspell⟩)

end RoundTrip

/-! ## A row of calls -/

/-- A row of calls on a formatted image: each returns, and finds an inode of the table if it comes to
that. -/
structure Row (calls : List Call) : Prop where
  names : ∀ c ∈ calls, 0 ∉ c.name
  returns : ∀ k (hk : k < calls.length), calls[k].Returns (stateAt (formatted blank) calls k)
  inodes : InodesLast (formatted blank) calls

section Row

variable {calls : List Call} {j k : Nat}

theorem Row.formed (h : Row calls) (hj : j ≤ calls.length) :
    Formed (stateAt (formatted blank) calls j) := blank_formed.stateAt h.inodes hj

theorem Row.name (h : Row calls) (hk : k < calls.length) : 0 ∉ calls[k].name :=
  h.names _ (List.getElem_mem hk)

theorem Row.accepted (h : Row calls) (hk : k < calls.length)
    (hc : calls[k].Enters (stateAt (formatted blank) calls k)) :
    calls[k].Accepted (stateAt (formatted blank) calls k) :=
  (h.returns k hk).accepted (h.formed hk.le) hc (h.inodes k hk hc)

/-- What an accepted call leaves. -/
theorem Row.made (h : Row calls) (hk : k < calls.length)
    (hacc : calls[k].Accepted (stateAt (formatted blank) calls k)) :
    ∃ ino : Fin Image.inodes, Made (stateAt (formatted blank) calls k)
      (stateAt (formatted blank) calls (k + 1)) ino calls[k].name := by
  have hm := h.formed hk.le
  have hc := hacc.enters hm
  obtain ⟨ino, hino, -⟩ := freeIno_table (h.inodes k hk hc)
  rw [stateAt_succ calls hk]
  exact ⟨ino, hc.made hm.toRooted hm.small hino⟩

/-- RUN: the names of the first block end in their entries. -/
theorem Row.ended (h : Row calls) (hshort : ShortAndFirst (formatted blank) calls)
    (hj : j ≤ calls.length) : Ended (stateAt (formatted blank) calls j) := by
  induction j with
  | zero =>
    intro e _
    have hzero : rootBlocks (formatted blank) = 0 := holding_start.blocks
    refine ⟨0, by decide, ?_⟩
    rw [stateAt_zero, dirents, hzero, if_neg (Nat.not_lt_zero _)]
  | succ j ih =>
    have hlt : j < calls.length := hj
    rw [stateAt_succ calls hlt]
    refine (ih hlt.le).after (h.formed hlt.le) (h.inodes j hlt) fun hc _ => ?_
    by_cases hne : calls[j].name = []
    · rw [hne]
      exact Nat.zero_le 13
    · exact (hshort j hlt (h.accepted hlt hc) hne).1

/-- RUN: an entry of the first block with a short name stands, and is the only one with its name. -/
theorem Row.stays (h : Row calls) (hk : k < calls.length)
    (hacc : calls[k].Accepted (stateAt (formatted blank) calls k)) (hne : calls[k].name ≠ [])
    (hlen : calls[k].name.length ≤ 13)
    (hslot : slotFor (stateAt (formatted blank) calls k) < entries) (hkj : k < j)
    (hj : j ≤ calls.length) : ∃ ino : Fin Image.inodes,
      Stands (stateAt (formatted blank) calls j) (slotFor (stateAt (formatted blank) calls k)) ino
        calls[k].name ∧
      Sole (stateAt (formatted blank) calls j) (slotFor (stateAt (formatted blank) calls k))
        calls[k].name := by
  have hname := h.name hk
  induction j, hkj using Nat.le_induction with
  | base =>
    obtain ⟨ino, hmade⟩ := h.made hk hacc
    have hunknown := (hacc.enters (h.formed hk.le)).unknown (h.formed hk.le)
    exact ⟨ino, hmade.stands, hmade.sole hunknown hlen hname hne⟩
  | succ j hle ih =>
    have hlt : j < calls.length := hj
    obtain ⟨ino, hstands, hsole⟩ := ih hlt.le
    rw [stateAt_succ calls hlt]
    exact ⟨ino, hstands.after (h.formed hlt.le) (h.inodes j hlt) hname hne,
      hsole.after hstands hslot (h.formed hlt.le) (h.inodes j hlt) hlen hname (h.name hlt)⟩

/-- NAMES: in a row of calls on a formatted image, the accepted names round-trip just if each has 13
characters at most and an entry of the first block. -/
theorem names_round_trip (calls : List Call) (h : Row calls) :
    RoundTrips (formatted blank) calls ↔ ShortAndFirst (formatted blank) calls := by
  constructor
  · intro htrips k hk hacc hne
    obtain ⟨ino, hmade⟩ := h.made hk hacc
    exact hmade.short (h.formed hk) ((hacc.enters (h.formed hk.le)).unknown (h.formed hk.le))
      (htrips.found k hk hacc hne _ (Nat.lt_succ_self k) hk).image
      (htrips.within k hk hacc hne _ (Nat.lt_succ_self k) hk)
  · intro hshort
    refine ⟨fun k hk hacc hne j hkj hj => ?_, fun k k' hk hk' hacc hne hacc' hne' hdiff hsame => ?_,
      fun k hk _ _ j _ hj => (h.ended hshort hj).inside (h.name hk)⟩
    · obtain ⟨hlen, hslot⟩ := hshort k hk hacc hne
      obtain ⟨ino, hstands, hsole⟩ := h.stays hk hacc hne hlen hslot hkj hj
      exact ⟨hstands.image hslot (h.formed hj) hlen (h.name hk), fun s l va hserves hva hns =>
        hsole.kernel hstands hslot (h.formed hj) hlen (h.name hk) hserves hva hns⟩
    · -- at the end the two entries are there, and one entry has one name
      obtain ⟨hlen, hslot⟩ := hshort k hk hacc hne
      obtain ⟨hlen', hslot'⟩ := hshort k' hk' hacc' hne'
      obtain ⟨ino, hstands, -⟩ := h.stays hk hacc hne hlen hslot hk (Nat.le_refl _)
      obtain ⟨ino', hstands', -⟩ := h.stays hk' hacc' hne' hlen' hslot' hk' (Nat.le_refl _)
      rw [← hsame] at hstands'
      have hnamed := hstands.named hlen (h.name hk)
      rw [hstands'.named_other hlen (h.name hk) (h.name hk') (Ne.symm hdiff)] at hnamed
      cases hnamed

end Row

/-! ## The first call -/

section First

variable {name : List UInt8}

/-- The first call on a formatted image gets an entry. -/
theorem first_enters (c : Call) : c.Enters (formatted blank) := by
  have hzero : rootBlocks (formatted blank) = 0 := holding_start.blocks
  have hm := blank_formed
  rw [Call.enters_iff hm.toRooted hm.small, walkPath_first hm.toRooted hm.small.le, hzero, if_pos rfl,
    blank_freeBlocks]
  exact ⟨rfl, (entryCost_le _).trans (by decide)⟩

/-- A row of one call for a file that is not there. -/
theorem first_row (h : 0 ∉ name) : Row [⟨0, name, none⟩] := by
  have hfree : 1 ≤ freeInodes (formatted blank) := by
    rw [blank_freeInodes]
    decide
  refine ⟨fun c hc => ?_, fun k hk => ?_, fun k hk _ => ?_⟩
  · rw [List.mem_singleton.mp hc]
    exact h
  · obtain rfl : k = 0 := Nat.lt_one_iff.mp hk
    obtain ⟨ino, hino, -⟩ := freeIno_table hfree
    obtain ⟨m₁, -, hrun⟩ := (first_enters ⟨0, name, none⟩).run blank_formed.toRooted
      blank_formed.small hino
    exact ⟨0, _, hrun⟩
  · obtain rfl : k = 0 := Nat.lt_one_iff.mp hk
    exact hfree

end First

/-- A short name. -/
theorem names_round_trip_one : RoundTrips (formatted blank) [⟨0, [97], none⟩] := by
  have hslot : slotFor (formatted blank) = 0 := holding_start.slotFor (by decide) (by decide)
  refine (names_round_trip [⟨0, [97], none⟩] (first_row (by decide))).mpr fun k hk _ _ => ?_
  obtain rfl : k = 0 := Nat.lt_one_iff.mp hk
  rw [stateAt_zero, hslot]
  refine ⟨?_, by decide⟩
  show [(97 : UInt8)].length ≤ 13
  decide

/-- A name of 14 characters. -/
theorem names_round_trip_long : ¬ ∀ calls : List Call, Row calls →
    RoundTrips (formatted blank) calls := by
  intro h
  obtain ⟨name, hname⟩ : ∃ name : List UInt8, name = List.replicate 14 97 := ⟨_, rfl⟩
  have hlen : name.length = 14 := by rw [hname, List.length_replicate]
  have hzero : 0 ∉ name := by
    rw [hname]
    decide
  have hne : name ≠ [] := by
    rw [hname]
    decide
  have hrow := first_row hzero
  have htrips := h _ hrow
  have hacc := hrow.accepted (k := 0) Nat.one_pos (first_enters _)
  obtain ⟨ino, hmade⟩ := hrow.made Nat.one_pos hacc
  have hin := htrips.within 0 Nat.one_pos hacc hne 1 Nat.one_pos (Nat.le_refl 1)
  have hslot : slotFor (formatted blank) = 0 := holding_start.slotFor (by decide) (by decide)
  have hstands : Stands (stateAt (formatted blank) [⟨0, name, none⟩] 1) 0 ino name := by
    have hstands := hmade.stands
    rw [stateAt_zero, hslot] at hstands
    exact hstands
  exact hin.differs hlen.ge (by decide : 0 < entries) fun i hi => hstands.name_byte hi

end Myos.Image
