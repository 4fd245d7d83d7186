import Myos.Kernel.Exec
import Myos.Kernel.FileRead
import Myos.Kernel.Lookup

/-!
# Where `sys_execve` looks for program headers

`sys_execve` reads the first 128 bytes of a file and takes from them where the
program headers are and how many. What it does with a header of a segment does
not matter here, nor what comes before the bytes are there: `ElfLoader` is the
function with these parts left open, for the headers of either class, and
`execLoader` is `sys_execve` of `amd64`.

`inspect` is where a header is looked at. In `traced` it writes down which, and
what the code does is otherwise the same (`run_lifts`). The headers in order
are had by induction on how many are left (`headers_log`).
-/

namespace Myos.Kernel

open Myos.Lib

/-- The two layouts of `elf.h`. -/
inductive ElfClass where
  | elf32
  | elf64

namespace ElfClass

/-- The bits of an address. -/
def bits : ElfClass → Nat
  | elf32 => 32
  | elf64 => 64

/-- The offset of `e_phoff`, and its size. -/
def phoffOff : ElfClass → Nat
  | elf32 => 28
  | elf64 => ePhoffOff

def phoffSize : ElfClass → Nat
  | elf32 => 4
  | elf64 => 8

/-- The offset of `e_phnum`. -/
def phnumOff : ElfClass → Nat
  | elf32 => 44
  | elf64 => ePhnumOff

/-- `sizeof(Elf_Phdr)`. -/
def phdrSize : ElfClass → Nat
  | elf32 => 32
  | elf64 => Kernel.phdrSize

end ElfClass

/-- `BINARYSIZE`. -/
def binarySize : Nat := 128

/-! ## `sys_execve` with its parts left open -/

/-- The parts: an access to memory, what comes before the check of the magic,
the look at the type of a header, what is done for a segment, and what comes last. -/
structure ElfLoader (σ : Type) where
  load : Nat → Nat → Act σ Nat
  start : Act σ Unit
  inspect : Nat → Act σ Nat
  segment : Nat → Act σ Unit
  finish : Act σ Nat

namespace ElfLoader

variable {σ : Type}

/-- The check of the magic. -/
def isElf (L : ElfLoader σ) (binary : Nat) : Act σ Bool := do
  let b0 ← L.load 1 binary
  let b1 ← L.load 1 (binary + 1)
  let b2 ← L.load 1 (binary + 2)
  let b3 ← L.load 1 (binary + 3)
  return b0 = elfMag0 ∧ b1 = elfMag1 ∧ b2 = elfMag2 ∧ b3 = elfMag3

/-- The loop over the headers. -/
def headers (L : ElfLoader σ) (c : ElfClass) (phdrs : Nat) : Nat → Nat → Act σ Unit
  | 0, _ => return ()
  | n + 1, i => do
    let phdr := phdrs + c.phdrSize * i
    if (← L.inspect phdr) = ptLoad then do
      L.segment phdr
      headers L c phdrs n (i + 1)
    else headers L c phdrs n (i + 1)

/-- The whole. -/
def run (L : ElfLoader σ) (c : ElfClass) (binary : Nat) : Act σ (Option Nat) := do
  L.start
  if ← L.isElf binary then do
    let phoff ← L.load c.phoffSize (binary + c.phoffOff)
    let phnum ← L.load 2 (binary + c.phnumOff)
    L.headers c ((binary + phoff) % 2 ^ c.bits) phnum 0
    let entry ← L.finish
    return some entry
  else return none

end ElfLoader

/-- `sys_execve` of `amd64`. -/
def execLoader (filename pgdir binary : Nat) : ElfLoader FileSt where
  load n va := fileFs (fsMm (load n va))
  start := do
    fileFs (fsMm (memset binary 0 128))
    let _ ← fileOpen filename
    fileFs (fsMm (removePages pgdir (turns utext ustacktop) utext))
    let _ ← fileRead binary 128 0
    return ()
  inspect phdr := fileFs (fsMm (load 4 (phdr + pTypeOff)))
  segment phdr := do
    let vaddr ← fileFs (fsMm (load 8 (phdr + pVaddrOff)))
    let memsz ← fileFs (fsMm (load 8 (phdr + pMemszOff)))
    let start := u32 vaddr / pageSize * pageSize
    execPages pgdir phdr start (u64 (memsz + pageSize - 1) / pageSize * pageSize) (2 ^ 32) 0
  finish := do
    let pp ← fileFs (fsMm (allocPage 1))
    let _ ← fileFs (fsMm (insertPage pgdir (ustacktop - pageSize) pp (pteU ||| pteW ||| pteP)))
    fileFs (fsMm (load 8 (binary + eEntryOff)))

section Whole

variable {filename pgdir binary phdrs : Nat}

/-- A sequence on memory, run on a file. -/
theorem fileMm_bind {α β : Type} (x : Act Mm α) (f : α → Act Mm β) :
    fileFs (fsMm (x >>= f)) = fileFs (fsMm x) >>= fun a => fileFs (fsMm (f a)) := by
  have hput : ∀ (f f' : Fs) (s : FileSt), FileSt.setFs f' (FileSt.setFs f s) = FileSt.setFs f' s :=
    fun _ _ _ => rfl
  rw [fsMm, Act.zoom_bind (fun _ _ => rfl) Fs.setMm_setMm, fileFs,
    Act.zoom_bind (fun _ _ => rfl) hput]
  rfl

theorem execLoader_isElf :
    (execLoader filename pgdir binary).isElf binary = fileFs (fsMm (isElf binary)) := by
  unfold ElfLoader.isElf isElf
  rw [fileMm_bind]
  refine congrArg _ (funext fun b0 => ?_)
  rw [fileMm_bind]
  refine congrArg _ (funext fun b1 => ?_)
  rw [fileMm_bind]
  refine congrArg _ (funext fun b2 => ?_)
  rw [fileMm_bind]
  rfl

theorem execLoader_headers (n i : Nat) :
    (execLoader filename pgdir binary).headers .elf64 phdrs n i =
      execSegments pgdir phdrs n i := by
  induction n generalizing i with
  | zero => rfl
  | succ n ih =>
    rw [ElfLoader.headers, execSegments]
    refine congrArg _ (funext fun t => ?_)
    simp only [ih]
    split
    · rw [execLoader]
      simp only [Act.bind_assoc]
      rfl
    · rfl

/-- The whole with the parts of `amd64` is `sys_execve`. -/
theorem execLoader_run :
    (execLoader filename pgdir binary).run .elf64 binary = execLoad filename pgdir binary := by
  unfold ElfLoader.run execLoad
  rw [execLoader_isElf]
  simp only [execLoader_headers]
  rw [execLoader]
  simp only [Act.bind_assoc, Act.pure_bind]
  rfl

end Whole

/-! ## The headers that are looked at -/

/-- The state, and the headers that were looked at so far. -/
structure Inspected (σ : Type) where
  st : σ
  log : List Nat

/-- Code on the state. -/
def Inspected.act {σ α : Type} (x : Act σ α) : Act (Inspected σ) α :=
  Act.zoom Inspected.st (fun s t => { t with st := s }) x

namespace ElfLoader

/-- The same code, which notes the headers it looks at. -/
def traced {σ : Type} (L : ElfLoader σ) : ElfLoader (Inspected σ) where
  load n va := Inspected.act (L.load n va)
  start := Inspected.act L.start
  inspect phdr := do
    Act.modify fun t => { t with log := t.log ++ [phdr] }
    Inspected.act (L.inspect phdr)
  segment phdr := Inspected.act (L.segment phdr)
  finish := Inspected.act L.finish

/-- The 128 bytes at `binary` are those of `c`. -/
def Holds {σ : Type} (L : ElfLoader σ) (binary : Nat) (c : Mem) (s : σ) : Prop :=
  ∀ n o, 0 < n → o + n ≤ binarySize → L.load n (binary + o) s = .ok (Mem.rd n c o) s

end ElfLoader

/-- What a file that starts with the bytes `c` says of its headers. -/
def magic (c : Mem) : Prop :=
  Mem.rd 1 c 0 = elfMag0 ∧ Mem.rd 1 c 1 = elfMag1 ∧ Mem.rd 1 c 2 = elfMag2 ∧
    Mem.rd 1 c 3 = elfMag3

instance (c : Mem) : Decidable (magic c) := inferInstanceAs (Decidable (_ ∧ _ ∧ _ ∧ _))

def ElfClass.phoff (k : ElfClass) (c : Mem) : Nat := Mem.rd k.phoffSize c k.phoffOff

def ElfClass.phnum (k : ElfClass) (c : Mem) : Nat := Mem.rd 2 c k.phnumOff

/-- The file is none, or its headers are in the bytes that were read. -/
def ElfClass.Fits (k : ElfClass) (c : Mem) : Prop :=
  ¬ magic c ∨ k.phnum c = 0 ∨ k.phoff c + k.phdrSize * k.phnum c ≤ binarySize

/-- `sys_execve` returned a negative value, or every header it looked at is in
the bytes it read. -/
def ElfClass.Stays {σ : Type} (k : ElfClass) (binary : Nat) (r : Res (Inspected σ) (Option Nat)) :
    Prop :=
  (∃ t, r = .ok none t) ∨
    ∀ h ∈ r.state.log, binary ≤ h ∧ h + k.phdrSize ≤ binary + binarySize

section Trace

variable {σ : Type} {L : ElfLoader σ} {k : ElfClass} {binary phdrs : Nat}

theorem Inspected.act_lifts {α : Type} (x : Act σ α) : Act.Lifts Inspected.st (Inspected.act x) x :=
  Act.Lifts.zoom x fun _ _ => rfl

theorem Inspected.act_ok {α : Type} {x : Act σ α} {s s' : σ} {a : α} {log : List Nat}
    (h : x s = .ok a s') : Inspected.act x ⟨s, log⟩ = .ok a ⟨s', log⟩ := by
  unfold Inspected.act Act.zoom
  dsimp only
  rw [h]

/-- An action on the state notes nothing. -/
theorem Inspected.act_log {α : Type} (x : Act σ α) (t : Inspected σ) :
    (Inspected.act x t).state.log = t.log := by
  rw [Inspected.act, Act.zoom_state]

theorem headers_lifts (n i : Nat) :
    Act.Lifts Inspected.st (L.traced.headers k phdrs n i) (L.headers k phdrs n i) := by
  induction n generalizing i with
  | zero => exact .pure ()
  | succ n ih =>
    refine .bind (.modify_bind (fun _ => rfl) (Inspected.act_lifts _)) fun t => ?_
    split
    · exact .bind (Inspected.act_lifts _) fun _ => ih (i + 1)
    · exact ih (i + 1)

/-- What is noted changes nothing. -/
theorem run_lifts : Act.Lifts Inspected.st (L.traced.run k binary) (L.run k binary) := by
  have hload : ∀ n va, Act.Lifts Inspected.st (L.traced.load n va) (L.load n va) := fun n va =>
    Inspected.act_lifts _
  refine .bind (Inspected.act_lifts _) fun _ => .bind ?_ fun e => ?_
  · exact .bind (hload _ _) fun _ => .bind (hload _ _) fun _ => .bind (hload _ _) fun _ =>
      .bind (hload _ _) fun _ => .pure _
  · split
    · exact .bind (hload _ _) fun phoff => .bind (hload _ _) fun phnum =>
        .bind (headers_lifts _ _) fun _ => .bind (Inspected.act_lifts _) fun _ => .pure _
    · exact .pure _

/-- The headers in order, from the `i`-th on. -/
def ElfClass.headersFrom (k : ElfClass) (phdrs i n : Nat) : List Nat :=
  (List.range' i n).map fun j => phdrs + k.phdrSize * j

theorem headersFrom_succ (i n : Nat) : k.headersFrom phdrs i (n + 1) =
    (phdrs + k.phdrSize * i) :: k.headersFrom phdrs (i + 1) n := by
  rw [ElfClass.headersFrom, List.range'_succ, List.map_cons, ElfClass.headersFrom]

/-- The headers looked at are the first of those there are, one at least, and all
of them if the loop comes to its end. -/
theorem headers_log (phdrs n i : Nat) (t : Inspected σ) :
    ∃ l, (L.traced.headers k phdrs n i t).state.log = t.log ++ l ∧
      l <+: k.headersFrom phdrs i n ∧ (n ≠ 0 → l ≠ []) ∧
      ∀ t', L.traced.headers k phdrs n i t = .ok () t' → l = k.headersFrom phdrs i n := by
  induction n generalizing i t with
  | zero =>
    exact ⟨[], (List.append_nil _).symm, List.nil_prefix, fun h => absurd rfl h, fun _ _ => rfl⟩
  | succ n ih =>
    obtain ⟨h, hh⟩ : ∃ h, h = phdrs + k.phdrSize * i := ⟨_, rfl⟩
    obtain ⟨u, hu⟩ : ∃ u : Inspected σ, u = { t with log := t.log ++ [h] } := ⟨_, rfl⟩
    have hlog : u.log = t.log ++ [h] := by rw [hu]
    have hone : [h] <+: h :: k.headersFrom phdrs (i + 1) n := ⟨_, rfl⟩
    -- what is left once this header was looked at, in a state that notes no more
    have hrest : ∀ v : Inspected σ, v.log = u.log →
        ∃ l, (L.traced.headers k phdrs n (i + 1) v).state.log = t.log ++ l ∧
          l <+: h :: k.headersFrom phdrs (i + 1) n ∧ (n + 1 ≠ 0 → l ≠ []) ∧
          ∀ t', L.traced.headers k phdrs n (i + 1) v = .ok () t' →
            l = h :: k.headersFrom phdrs (i + 1) n := fun v hv => by
      obtain ⟨l, hl, hfirst, -, hall⟩ := ih (i + 1) v
      refine ⟨h :: l, ?_, (List.prefix_cons_inj h).mpr hfirst, fun _ => List.cons_ne_nil h l,
        fun t' ht' => ?_⟩
      · rw [hl, hv, hlog, List.append_assoc]
        rfl
      · rw [hall t' ht']
    rw [headersFrom_succ, ← hh, ElfLoader.headers, ← hh]
    have hinspect : ∀ f : Nat → Act (Inspected σ) Unit, (L.traced.inspect h >>= f) t =
        (Inspected.act (L.inspect h) >>= f) u := fun f => by
      rw [ElfLoader.traced, Act.bind_assoc, Act.modify_bind_apply, hu]
    rw [hinspect]
    cases htype : Inspected.act (L.inspect h) u with
    | fault v =>
      have hv := Inspected.act_log (L.inspect h) u
      rw [htype, Res.state_fault] at hv
      rw [Act.bind_fault htype, Res.state_fault, hv, hlog]
      exact ⟨[h], rfl, hone, fun _ => List.cons_ne_nil h [], fun t' ht' => by cases ht'⟩
    | ok p v =>
      have hv := Inspected.act_log (L.inspect h) u
      rw [htype, Res.state_ok] at hv
      rw [Act.bind_ok htype]
      by_cases hload : p = ptLoad
      · rw [if_pos hload]
        cases hseg : L.traced.segment h v with
        | fault w =>
          have hw := Inspected.act_log (L.segment h) v
          rw [show Inspected.act (L.segment h) v = _ from hseg, Res.state_fault] at hw
          rw [Act.bind_fault hseg, Res.state_fault, hw, hv, hlog]
          exact ⟨[h], rfl, hone, fun _ => List.cons_ne_nil h [], fun t' ht' => by cases ht'⟩
        | ok u' w =>
          have hw := Inspected.act_log (L.segment h) v
          rw [show Inspected.act (L.segment h) v = _ from hseg, Res.state_ok] at hw
          rw [Act.bind_ok hseg]
          exact hrest w (hw.trans hv)
      · rw [if_neg hload]
        exact hrest v hv

theorem mem_headersFrom {i n h : Nat} : h ∈ k.headersFrom phdrs i n ↔
    ∃ j, i ≤ j ∧ j < i + n ∧ phdrs + k.phdrSize * j = h := by
  simp only [ElfClass.headersFrom, List.mem_map, List.mem_range'_1, and_assoc]

theorem phoff_lt (c : Mem) : k.phoff c < 2 ^ k.bits := by
  have hlt := Mem.rd_lt k.phoffSize c k.phoffOff
  cases k <;> exact hlt

variable {s s₁ : σ} {c : Mem}

theorem isElf_run (hc : L.Holds binary c s₁) :
    ∃ b, L.isElf binary s₁ = .ok b s₁ ∧ (b = true ↔ magic c) := by
  have h0 := hc 1 0 (by decide) (by decide)
  have h1 := hc 1 1 (by decide) (by decide)
  have h2 := hc 1 2 (by decide) (by decide)
  have h3 := hc 1 3 (by decide) (by decide)
  rw [Nat.add_zero] at h0
  refine ⟨_, ?_, decide_eq_true_iff⟩
  unfold ElfLoader.isElf
  rw [Act.bind_ok h0, Act.bind_ok h1, Act.bind_ok h2, Act.bind_ok h3]
  rfl

/-- The code up to the headers. -/
theorem run_parse (hstart : L.start s = .ok () s₁) (hc : L.Holds binary c s₁) :
    (¬ magic c → L.run k binary s = .ok none s₁) ∧
    (magic c → L.run k binary s = (L.headers k ((binary + k.phoff c) % 2 ^ k.bits) (k.phnum c) 0 >>=
      fun _ => L.finish >>= fun entry => pure (some entry)) s₁) := by
  obtain ⟨b, hb, hmagic⟩ := isElf_run hc
  have hphoff : L.load k.phoffSize (binary + k.phoffOff) s₁ = .ok (k.phoff c) s₁ :=
    hc _ _ (by cases k <;> decide) (by cases k <;> decide)
  have hphnum : L.load 2 (binary + k.phnumOff) s₁ = .ok (k.phnum c) s₁ :=
    hc _ _ (by cases k <;> decide) (by cases k <;> decide)
  unfold ElfLoader.run
  rw [Act.bind_ok hstart, Act.bind_ok hb]
  constructor
  · intro hm
    rw [if_neg fun h => hm (hmagic.mp h)]
    rfl
  · intro hm
    rw [if_pos (hmagic.mpr hm), Act.bind_ok hphoff, Act.bind_ok hphnum]

/-- What the whole looks at: the first of the headers, one at least, and all if
it returns. -/
theorem run_log (hstart : L.start s = .ok () s₁) (hc : L.Holds binary c s₁) (hm : magic c) :
    (L.traced.run k binary ⟨s, []⟩).state.log <+:
      k.headersFrom ((binary + k.phoff c) % 2 ^ k.bits) 0 (k.phnum c) ∧
    (k.phnum c ≠ 0 → (L.traced.run k binary ⟨s, []⟩).state.log ≠ []) ∧
    ∀ r t, L.traced.run k binary ⟨s, []⟩ = .ok r t → r ≠ none ∧
      t.log = k.headersFrom ((binary + k.phoff c) % 2 ^ k.bits) 0 (k.phnum c) := by
  have hstart' : L.traced.start ⟨s, []⟩ = .ok () ⟨s₁, []⟩ := Inspected.act_ok hstart
  have hc' : L.traced.Holds binary c ⟨s₁, []⟩ := fun n o hn ho => Inspected.act_ok (hc n o hn ho)
  rw [(run_parse hstart' hc').2 hm]
  obtain ⟨l, hl, hfirst, hone, hall⟩ :=
    headers_log (L := L) (k := k) ((binary + k.phoff c) % 2 ^ k.bits) (k.phnum c) 0
      ⟨s₁, []⟩
  rw [List.nil_append] at hl
  cases hrun : L.traced.headers k ((binary + k.phoff c) % 2 ^ k.bits) (k.phnum c) 0 ⟨s₁, []⟩ with
  | fault t =>
    rw [hrun, Res.state_fault] at hl
    rw [Act.bind_fault hrun, Res.state_fault, hl]
    exact ⟨hfirst, hone, fun r t h => by cases h⟩
  | ok u t =>
    rw [hrun, Res.state_ok] at hl
    rw [Act.bind_ok hrun]
    have hfin := Inspected.act_log L.finish t
    cases hend : L.traced.finish t with
    | fault t' =>
      rw [show Inspected.act L.finish t = _ from hend, Res.state_fault] at hfin
      rw [Act.bind_fault hend, Res.state_fault, hfin, hl]
      exact ⟨hfirst, hone, fun r t h => by cases h⟩
    | ok entry t' =>
      rw [show Inspected.act L.finish t = _ from hend, Res.state_ok] at hfin
      rw [Act.bind_ok hend, Act.pure_apply, Res.state_ok, hfin, hl]
      refine ⟨hfirst, hone, fun r t'' h => ?_⟩
      cases h
      exact ⟨Option.some_ne_none entry, hfin.trans (hl.trans (hall t hrun))⟩

/-- The headers stay in the bytes that were read if the file says so, and in a
run that returns only then. -/
theorem ElfLoader.stays_iff (hb : binary + binarySize ≤ 2 ^ k.bits)
    (hstart : L.start s = .ok () s₁) (hc : L.Holds binary c s₁) :
    (k.Fits c → k.Stays binary (L.traced.run k binary ⟨s, []⟩)) ∧
    ∀ r t, L.traced.run k binary ⟨s, []⟩ = .ok r t →
      k.Stays binary (L.traced.run k binary ⟨s, []⟩) → k.Fits c := by
  have hlt := phoff_lt (k := k) c
  constructor
  · intro hfits
    by_cases hm : magic c
    · refine .inr fun h hh => ?_
      obtain ⟨j, -, hj, rfl⟩ := mem_headersFrom.mp ((run_log hstart hc hm).1.subset hh)
      have hfit : k.phoff c + k.phdrSize * k.phnum c ≤ binarySize := by
        rcases hfits with h | h | h
        · exact absurd hm h
        · omega
        · exact h
      have hstep : k.phdrSize * (j + 1) ≤ k.phdrSize * k.phnum c :=
        Nat.mul_le_mul_left _ (by omega)
      have hpos : 0 < k.phdrSize := by cases k <;> decide
      rw [Nat.mul_succ] at hstep
      rw [Nat.mod_eq_of_lt (by omega)]
      omega
    · have hstart' : L.traced.start ⟨s, []⟩ = .ok () ⟨s₁, []⟩ := Inspected.act_ok hstart
      exact .inl ⟨_, (run_parse hstart' fun n o hn ho => Inspected.act_ok (hc n o hn ho)).1 hm⟩
  · intro r t hrun hstays
    by_cases hm : magic c
    · obtain ⟨hsome, hlog⟩ := (run_log hstart hc hm).2.2 r t hrun
      rw [ElfClass.Stays, hrun, Res.state_ok, hlog] at hstays
      have hin := hstays.resolve_left fun ⟨t', h⟩ => hsome (by cases h; rfl)
      by_cases hnum : k.phnum c = 0
      · exact .inr (.inl hnum)
      · have hfirst := hin _ (mem_headersFrom.mpr ⟨0, Nat.le_refl 0, by omega, rfl⟩)
        have hlast := hin _ (mem_headersFrom.mpr ⟨k.phnum c - 1, Nat.zero_le _, by omega, rfl⟩)
        rw [Nat.mul_zero, Nat.add_zero] at hfirst
        have hsum : k.phdrSize * k.phnum c = k.phdrSize * (k.phnum c - 1) + k.phdrSize := by
          rw [← Nat.mul_succ, Nat.succ_eq_add_one, Nat.sub_add_cancel (Nat.pos_of_ne_zero hnum)]
        -- the sum does not wrap, since what it comes to is not below the buffer
        have hwrap : (binary + k.phoff c) % 2 ^ k.bits = binary + k.phoff c := by
          refine Nat.mod_eq_of_lt (Nat.not_le.mp fun hle => ?_)
          have hsub := Nat.mod_eq_sub_mod hle
          have hsmall := Nat.mod_le (binary + k.phoff c - 2 ^ k.bits) (2 ^ k.bits)
          omega
        exact .inr (.inr (by omega))
    · exact .inl hm

/-- A file whose first header is not in the bytes that were read. -/
theorem ElfLoader.leaves (hstart : L.start s = .ok () s₁) (hc : L.Holds binary c s₁)
    (hm : magic c) (hnum : k.phnum c ≠ 0) (hout : binarySize < k.phoff c + k.phdrSize) :
    ¬ k.Stays binary (L.traced.run k binary ⟨s, []⟩) := by
  have hlt := phoff_lt (k := k) c
  obtain ⟨hlog, hone, hall⟩ := run_log (k := k) hstart hc hm
  rintro (⟨t, hrun⟩ | hin)
  · exact (hall none t hrun).1 rfl
  · obtain ⟨h, l, hl⟩ := List.exists_cons_of_ne_nil (hone hnum)
    rw [hl] at hlog hin
    obtain ⟨n, hn⟩ := Nat.exists_eq_succ_of_ne_zero hnum
    rw [hn, headersFrom_succ, List.cons_prefix_cons, Nat.mul_zero, Nat.add_zero] at hlog
    have hfirst := hin h List.mem_cons_self
    have hmod := Nat.mod_le (binary + k.phoff c) (2 ^ k.bits)
    by_cases hwrap : binary + k.phoff c < 2 ^ k.bits
    · rw [hlog.1, Nat.mod_eq_of_lt hwrap] at hfirst
      omega
    · have hsub := Nat.mod_eq_sub_mod (Nat.not_lt.mp hwrap)
      have hsmall := Nat.mod_le (binary + k.phoff c - 2 ^ k.bits) (2 ^ k.bits)
      omega

end Trace

/-! ## `amd64` -/

section Amd64

variable {s s₁ : FileSt} {filename pgdir pa : Nat} {c : Mem}

/-- A buffer in the direct map. -/
theorem execLoader_holds (hpa : pa + binarySize ≤ 2 ^ 31)
    (hc : ∀ i, i < binarySize → s.fs.mm.mem (pa + i) = c i) :
    (execLoader filename pgdir (kbase + pa)).Holds (kbase + pa) c s := by
  intro n o hn ho
  unfold binarySize at *
  have hload : load n (kbase + pa + o) s.fs.mm = .ok (Mem.rd n c o) s.fs.mm := by
    rw [Nat.add_assoc, load_ok (s.fs.mm.kpa_direct (by omega))]
    refine congrArg (Res.ok · s.fs.mm) (Mem.rd_shift fun i hi => ?_)
    rw [Nat.add_assoc]
    exact hc (o + i) (by omega)
  exact fileFs_ok (fsMm_ok hload)

/-- HEADERS: `sys_execve`, once the first 128 bytes of a file are in its buffer,
returns a negative value or looks at program headers in these bytes only, if the
file is none, or has no header, or all of them are in these bytes; and in a run
that returns only then. -/
theorem exec_headers_bounded (hpa : pa + binarySize ≤ 2 ^ 31)
    (hstart : (execLoader filename pgdir (kbase + pa)).start s = .ok () s₁)
    (hc : ∀ i, i < binarySize → s₁.fs.mm.mem (pa + i) = c i) :
    execLoad filename pgdir (kbase + pa) s =
      ((execLoader filename pgdir (kbase + pa)).traced.run .elf64 (kbase + pa) ⟨s, []⟩).map
        Inspected.st ∧
    (ElfClass.elf64.Fits c → ElfClass.elf64.Stays (kbase + pa)
      ((execLoader filename pgdir (kbase + pa)).traced.run .elf64 (kbase + pa) ⟨s, []⟩)) ∧
    ∀ r t, (execLoader filename pgdir (kbase + pa)).traced.run .elf64 (kbase + pa) ⟨s, []⟩ =
      .ok r t → ElfClass.elf64.Stays (kbase + pa)
        ((execLoader filename pgdir (kbase + pa)).traced.run .elf64 (kbase + pa) ⟨s, []⟩) →
          ElfClass.elf64.Fits c := by
  have hb : kbase + pa + binarySize ≤ 2 ^ ElfClass.elf64.bits := by
    have hbits : ElfClass.elf64.bits = 64 := rfl
    rw [hbits]
    unfold kbase
    omega
  obtain ⟨hfits, hstays⟩ := ElfLoader.stays_iff (k := .elf64) hb hstart (execLoader_holds hpa hc)
  refine ⟨?_, hfits, hstays⟩
  rw [← execLoader_run]
  exact run_lifts ⟨s, []⟩

end Amd64

/-! ## A file to load -/

/-- Frame 1 holds the inodes: the root directory is one block, 20, and the file
with inode 1 starts with block 21. Frame 4 holds a name. -/
def sampleInodes : Mem :=
  Mem.wr 1 (Mem.wr 2 (Mem.wr 2 (Mem.wr 4 (fun _ => 0) (pageSize * 1) 4096)
    (pageSize * 1 + blockOff) 20) (pageSize * 1 + inodeSize + blockOff) 21) (pageSize * 4) 97

/-- The entry of the name in block 20, and `c` in block 21. -/
def sampleBlocks (c : Mem) : Mem := fun y =>
  if blkSize * 21 ≤ y then c (y - blkSize * 21)
  else if y = blkSize * 20 + inoOff then 1
  else if y = blkSize * 20 + nameOff then 97
  else 0

/-- Sixteen frames, those from 8 on free; a file that starts with `c`. -/
def sampleExec (c : Mem) : FileSt where
  fs := { sampleFile.fs with
    mm := sampleFile.fs.mm.setMem sampleInodes
    disk := sampleBlocks c }
  file := {}

section Sample

variable {c : Mem}

/-- A directory without entries has no pages to remove. -/
theorem removePages_blank {s : Mm} {g n addr : Nat} (hg : g < 2 ^ 19)
    (hzero : Mem.entry s.mem g 0 = 0) (hend : addr + pageSize * n ≤ 2 ^ 39) :
    removePages (frameVa g) n addr s = .ok () s := by
  induction n generalizing addr with
  | zero => rfl
  | succ n ih =>
    rw [Nat.mul_succ] at hend
    have hpml : pmlIndex addr = 0 := by
      rw [pmlIndex_eq]
      unfold pageSize at hend
      omega
    have hwalk : walkPage (frameVa g) addr 0 s = .ok none s := by
      unfold walkPage
      rw [hpml, Act.bind_ok (load_entry hg (by decide)), hzero, if_neg (by decide), if_pos rfl]
      rfl
    have hremove : removePage (frameVa g) addr s = .ok (-1) s := by
      unfold removePage
      rw [Act.bind_ok hwalk]
      rfl
    rw [removePages, Act.bind_ok hremove]
    exact ih (by omega)

theorem sampleInodes_out {x : Nat} (h : x < pageSize * 1 ∨ pageSize * 2 ≤ x) (hx : x ≠ pageSize * 4) :
    sampleInodes x = 0 := by
  unfold sampleInodes pageSize inodeSize blockOff at *
  rw [Mem.wr_out (by omega), Mem.wr_out (by omega), Mem.wr_out (by omega), Mem.wr_out (by omega)]

theorem sampleInodes_kept {l : List Nat} (hlow : ∀ f, f ∈ l → 8 ≤ f) {i : Nat} (hi : i < 2) :
    Kept l (frameVa 1 + inodeSize * i) inodeSize := by
  refine (kept_frame (by decide) fun hl => absurd (hlow 1 hl) (by decide)).part ?_
  unfold inodeSize pageSize
  omega

/-- The memory with the buffer cleared. -/
def sampleCleared : Mem := sampleInodes.fill (pageSize * 3) 128 0

theorem sampleCleared_name : Spells sampleCleared (pageSize * 4) [97] := by
  have hend : sampleCleared (pageSize * 4 + 1) = 0 := by decide
  exact ⟨by decide, by decide, hend⟩

theorem sampleCleared_dir : Mem.entry sampleCleared 5 0 = 0 := by decide

theorem sampleBlocks_entry : Spells (sampleBlocks c) (blkSize * 20 + nameOff) [97] ∧
    Mem.rd 2 (sampleBlocks c) (blkSize * 20 + inoOff) = 1 := by
  have hlow : ∀ y, y < blkSize * 21 → sampleBlocks c y = sampleBlocks (fun _ => 0) y := fun y hy => by
    unfold sampleBlocks
    rw [if_neg (Nat.not_le.mpr hy), if_neg (Nat.not_le.mpr hy)]
  have hspell : Spells (sampleBlocks fun _ => 0) (blkSize * 20 + nameOff) [97] := by
    have hend : sampleBlocks (fun _ => 0) (blkSize * 20 + nameOff + 1) = 0 := by decide
    exact ⟨by decide, by decide, hend⟩
  refine ⟨hspell.congr fun x _ h2 => hlow x ?_, ?_⟩
  · rw [List.length_singleton] at h2
    unfold blkSize nameOff at *
    omega
  · rw [Mem.rd_congr fun x _ h2 => hlow x (by unfold blkSize inoOff at *; omega)]
    decide

theorem sampleBlocks_file {i : Nat} : sampleBlocks c (blkSize * 21 + i) = c i := by
  rw [sampleBlocks, if_pos (Nat.le_add_right _ _), Nat.add_sub_cancel_left]

/-- The state once the buffer is cleared. -/
def sampleFs (c : Mem) : Fs := Fs.setMm (sampleFile.fs.mm.setMem sampleCleared) (sampleExec c).fs

theorem sampleFs_list : FreeList (sampleFs c).mm [8, 9, 10, 11, 12, 13, 14, 15] :=
  sampleFile_list.congr rfl rfl rfl

theorem sampleFs_npages : (sampleFs c).mm.npages ≤ 2 ^ 19 := (by decide : 16 ≤ 2 ^ 19)

theorem sampleFs_low : ∀ f, f ∈ [8, 9, 10, 11, 12, 13, 14, 15] → 8 ≤ f := by decide

section Directory

variable {s : Fs} {l : List Nat}

theorem sampleInodes_slot (hmem : s.mm.mem = sampleCleared) : s.slot (frameVa 1) 0 = 20 ∧
    s.slot (frameVa 1 + inodeSize * 1) 0 = 21 := by
  have hsub : ∀ i, blockSlot (frameVa 1 + i) 0 - kbase = pageSize * 1 + i + blockOff := fun i => by
    unfold blockSlot frameVa
    omega
  have h0 := hsub 0
  rw [Nat.add_zero] at h0
  rw [Fs.slot, Fs.slot, hmem, h0, hsub]
  decide

/-- The entry of the file is the first of the directory. -/
theorem sampleInodes_find (hl : FreeList s.mm l) (hn : s.mm.npages ≤ 2 ^ 19)
    (hlow : ∀ f, f ∈ l → 8 ≤ f) (hne : l ≠ []) (hmem : s.mm.mem = sampleCleared)
    (hdisk : s.disk = sampleBlocks c) (htable : s.inoTable = frameVa 1) :
    ∃ q l' f, l = q :: l' ∧ Took s l f l' ∧ f.starved = s.starved ∧
      walkPath (frameVa 4) s = .ok (0, some (frameVa 1 + inodeSize * 1)) f := by
  have hsub : frameVa 1 - kbase = pageSize * 1 := by
    unfold frameVa
    omega
  have hroot : Kept l (frameVa 1) inodeSize := by
    have h0 := sampleInodes_kept hlow (by decide : 0 < 2)
    rw [Nat.mul_zero, Nat.add_zero] at h0
    exact h0
  have hname : ∀ m : Mem, (∀ x, x / pageSize ∉ l → m x = s.mm.mem x) →
      Spells m (pageSize * 4) [97] := fun m hm => by
    refine sampleCleared_name.congr fun x h1 h2 => ?_
    have hdiv : x / pageSize = 4 := by
      rw [List.length_singleton] at h2
      unfold pageSize at *
      omega
    rw [hm x (fun hx => absurd (hlow _ hx) (by rw [hdiv]; decide)), hmem]
  obtain ⟨hspell, hino⟩ := sampleBlocks_entry (c := c)
  rw [← hdisk] at hspell hino
  rw [← htable] at hroot hsub ⊢
  exact walkPath_first hl hn hroot (by rw [hmem, hsub]; decide)
    (by rw [htable]; exact (sampleInodes_slot hmem).1) (by decide : 20 ≠ 0) hspell (by decide) hino
    hname (by decide) hne

end Directory

/-- The file is found with the first frame that is free. -/
theorem sampleFs_find : ∃ f, Took (sampleFs c) [8, 9, 10, 11, 12, 13, 14, 15] f
    [9, 10, 11, 12, 13, 14, 15] ∧ f.starved = false ∧
      walkPath (frameVa 4) (sampleFs c) = .ok (0, some (frameVa 1 + inodeSize * 1)) f := by
  obtain ⟨q, l', f, hq, htook, hstarved, hwalk⟩ := sampleInodes_find (s := sampleFs c)
    sampleFs_list sampleFs_npages sampleFs_low (List.cons_ne_nil 8 _) rfl rfl rfl
  obtain ⟨rfl, rfl⟩ := List.cons.inj hq
  exact ⟨f, htook, hstarved, hwalk⟩

/-- The file is found, and its first 128 bytes are in the buffer. -/
theorem sampleExec_start (c : Mem) : ∃ s₁,
    (execLoader (frameVa 4) (frameVa 5) (frameVa 3)).start (sampleExec c) = .ok () s₁ ∧
      ∀ i, i < binarySize → s₁.fs.mm.mem (pageSize * 3 + i) = c i := by
  obtain ⟨f, htook, hstarved, hwalk⟩ := sampleFs_find (c := c)
  obtain ⟨s₂, hs₂⟩ : ∃ s₂ : FileSt, s₂ = ⟨f, { inode := frameVa 1 + inodeSize * 1 }⟩ := ⟨_, rfl⟩
  have hfs : s₂.fs = f := by rw [hs₂]
  have hinode : s₂.file.inode = frameVa 1 + inodeSize * 1 := by rw [hs₂]
  have hset : fileFs (fsMm (memset (frameVa 3) 0 128)) (sampleExec c) =
      .ok () ⟨sampleFs c, {}⟩ := by
    have hmm : memset (frameVa 3) 0 128 (sampleExec c).fs.mm =
        .ok () (sampleFile.fs.mm.setMem sampleCleared) := by
      rw [frameVa, memset_direct (by unfold pageSize; omega)]
      rfl
    exact fileFs_ok (fsMm_ok hmm)
  have hopen : fileOpen (frameVa 4) ⟨sampleFs c, {}⟩ = .ok 0 s₂ := by
    have hwalk' : fileFs (walkPath (frameVa 4)) ⟨sampleFs c, {}⟩ =
        .ok (0, some (frameVa 1 + inodeSize * 1)) ⟨f, {}⟩ := fileFs_ok hwalk
    unfold fileOpen
    rw [Act.bind_ok hwalk', hs₂]
    rfl
  have hremove : fileFs (fsMm (removePages (frameVa 5) (turns utext ustacktop) utext)) s₂ =
      .ok () s₂ := by
    have hblank : Mem.entry s₂.fs.mm.mem 5 0 = 0 := by
      rw [hfs, ← sampleCleared_dir]
      refine Mem.entry_congr (by decide) fun o ho => htook.mem _ ?_
      rw [show (pageSize * 5 + o) / pageSize = 5 by unfold pageSize at *; omega]
      decide
    exact fileFs_ok (fsMm_ok (removePages_blank (by decide) hblank (by decide)))
  have hfree : FreeList s₂.fs.mm [9, 10, 11, 12, 13, 14, 15] := by
    rw [hfs]
    exact htook.free
  have hnpages : s₂.fs.mm.npages ≤ 2 ^ 19 := by
    rw [hfs, htook.npages]
    exact sampleFs_npages
  have hkept : Kept [9, 10, 11, 12, 13, 14, 15] s₂.file.inode inodeSize := by
    rw [hinode]
    exact (sampleInodes_kept sampleFs_low (by decide)).mono fun f hf => List.mem_cons_of_mem 8 hf
  have hblock : s₂.fs.blockNo s₂.file.inode 0 = 21 := by
    rw [hfs, hinode, htook.blockNo (sampleInodes_kept sampleFs_low (by decide)), Fs.blockNo,
      if_pos (by decide)]
    exact (sampleInodes_slot rfl).2
  have hserved : (fileRead (frameVa 3) 128 ((0 : Nat) : Int) s₂).state.starved = false := by
    have hup : s₂.fs.mm.starved = false := by
      rw [hfs]
      exact hstarved
    have hspends : Spends (fun s : FileSt => s.fs.mm) 2
        (fileRead (frameVa 3) 128 ((0 : Nat) : Int)) :=
      fileRead_one_spends (by decide) (by decide)
    exact (hspends s₂ _ hfree hnpages (by decide) hup).1
  have hzero : ∀ i : Nat, i < 128 → i / blkSize = 0 := fun i hi =>
    Nat.div_eq_of_lt (by unfold blkSize; omega)
  have htarget : Target s₂.fs.mm [9, 10, 11, 12, 13, 14, 15] (frameVa 3) 128
      fun i => pageSize * 3 + i := by
    refine ⟨fun m' _ i hi => Mm.kpa_frameVa (by decide) (by unfold pageSize; omega),
      fun i j _ _ h => by omega, fun i hi => ?_⟩
    rw [show (pageSize * 3 + i) / pageSize = 3 by unfold pageSize; omega]
    decide
  have hclear : Clear s₂.file.inode inodeSize (fun i => pageSize * 3 + i) 128 := fun i hi => by
    have hsub : frameVa 1 + inodeSize * 1 - kbase = pageSize * 1 + inodeSize := by
      unfold frameVa
      omega
    rw [hinode, hsub]
    refine .inr ?_
    show _ ≤ pageSize * 3 + i
    unfold pageSize inodeSize
    omega
  have hblocks : ∀ i : Nat, i < 128 → ∃ x : Nat, ((0 : Nat) : Int) + i = x ∧ x / blkSize < 2058 ∧
      s₂.fs.blockNo s₂.file.inode (x / blkSize) ≠ 0 := fun i hi =>
    ⟨i, by omega, by rw [hzero i hi]; decide, by rw [hzero i hi, hblock]; decide⟩
  obtain ⟨s₃, l₃, hrun, hreads⟩ := (file_read_slice hfree hnpages hkept (by rw [hs₂]; rfl) hblocks
    htarget hclear hserved).mpr (by decide)
  refine ⟨s₃, ?_, fun i hi => ?_⟩
  · have hrun' : fileRead (frameVa 3) 128 0 s₂ = .ok ((128 : Nat) : Int) s₃ := hrun
    show ((fileFs (fsMm (memset (frameVa 3) 0 128)) >>= _) (sampleExec c) : Res FileSt Unit) = _
    rw [Act.bind_ok hset, Act.bind_ok hopen, Act.bind_ok hremove, Act.bind_ok hrun']
    rfl
  · have hi' : ((0 : Nat) : Int).toNat + i = i := by omega
    rw [hreads.bytes i hi, FileSt.bytesFrom, Fs.fileByte, Fs.fileAddr, hi', hzero i hi, hblock,
      Nat.mod_eq_of_lt (Nat.lt_trans hi (by decide)), hfs, htook.disk]
    exact sampleBlocks_file

/-- A header with the magic, and one program header at `phoff`. -/
def sampleElf (phoff : Nat) : Mem :=
  Mem.wr 4 (Mem.wr 8 (Mem.wr 2 (fun _ => 0) ePhnumOff 1) ePhoffOff phoff) 0 0x464c457f

/-- A file with one program header, behind the first page. -/
theorem exec_headers_outside : ¬ ∀ (filename pgdir pa : Nat) (s s₁ : FileSt) (c : Mem),
    pa + binarySize ≤ 2 ^ 31 →
    (execLoader filename pgdir (kbase + pa)).start s = .ok () s₁ →
    (∀ i, i < binarySize → s₁.fs.mm.mem (pa + i) = c i) →
    ElfClass.elf64.Stays (kbase + pa)
      ((execLoader filename pgdir (kbase + pa)).traced.run .elf64 (kbase + pa) ⟨s, []⟩) := by
  intro h
  obtain ⟨s₁, hstart, hc⟩ := sampleExec_start (sampleElf 4096)
  refine ElfLoader.leaves (k := .elf64) hstart (execLoader_holds (by decide) hc) ?_ ?_ ?_
    (h _ _ (pageSize * 3) _ s₁ _ (by decide) hstart hc)
  · decide
  · decide
  · decide

/-- A file with one program header, behind the file's. -/
theorem exec_headers_inside :
    ElfClass.elf64.Stays (kbase + pageSize * 3)
      ((execLoader (frameVa 4) (frameVa 5) (kbase + pageSize * 3)).traced.run .elf64
        (kbase + pageSize * 3) ⟨sampleExec (sampleElf 64), []⟩) := by
  obtain ⟨s₁, hstart, hc⟩ := sampleExec_start (sampleElf 64)
  exact (exec_headers_bounded (by decide) hstart hc).2.1 (.inr (.inr (by decide)))

end Sample

end Myos.Kernel
