import Mathlib.Data.List.Dedup
import Mathlib.Data.List.Perm.Basic
import Mathlib.Tactic.IntervalCases
import Myos.Kernel.Mm

/-!
# The other processors

`find_smp_config`, `init_mp_config` and `startup_smp` of `kernel/lapic.c`. The
tables of the firmware are read through the direct map; what the functions
print is left out.

The state keeps what the two functions leave behind, and beside it two ghosts:
the addresses `init_mp_config` took for entries, and the places of `lapic_ids`
it stored at. The stores to the local APIC are kept in order, and `received`
says what they come to at a processor: a store to the low half of the command
register sends the command to the one the high half names.
-/

namespace Myos.Kernel

open Myos.Lib

/-- `MAXCPUS`. -/
def maxcpus : Nat := 8

/-- The static variables of `lapic.c`, and the memory they are read beside. -/
structure Smp where
  mm : Mm
  /-- The pointers `mpfp` and `mpct`. -/
  mpfp : Nat
  mpct : Nat
  /-- `lapic_ids`; from `maxcpus` on, what lies behind the array. -/
  lapicIds : Nat → UInt8
  numcores : Nat
  /-- The stores to the registers of the local APIC: the offset and the value. -/
  lapic : List (Nat × Nat)
  /-- Ghost: the addresses taken for entries of the table, in turn. -/
  looked : List Nat
  /-- Ghost: the places of `lapic_ids` stored at, in turn. -/
  stored : List Nat

namespace Smp

/-- Work on memory. -/
def look {α : Type} (x : Act Mm α) : Act Smp α := Act.zoom Smp.mm (fun m s => { s with mm := m }) x

/-- `lapic_ids[numcores] = id; numcores++`. -/
def record (s : Smp) (id : UInt8) : Smp :=
  { s with
    lapicIds := Function.update s.lapicIds s.numcores id
    numcores := s.numcores + 1
    stored := s.stored ++ [s.numcores] }

/-- The local APIC ids recorded so far, in order. -/
def ids (s : Smp) : List UInt8 := (List.range s.numcores).map s.lapicIds

theorem look_ok {α : Type} {x : Act Mm α} {s : Smp} {a : α} (h : x s.mm = .ok a s.mm) :
    look x s = .ok a s := Act.zoom_ok h

theorem record_ids (s : Smp) (id : UInt8) : (s.record id).ids = s.ids ++ [id] := by
  have hold : ∀ i ∈ List.range s.numcores,
      Function.update s.lapicIds s.numcores id i = s.lapicIds i := by
    intro i hi
    exact Function.update_of_ne (Nat.ne_of_lt (List.mem_range.mp hi)) id s.lapicIds
  show (List.range (s.numcores + 1)).map (Function.update s.lapicIds s.numcores id) = _
  rw [List.range_succ, List.map_append, List.map_congr_left hold, List.map_singleton,
    Function.update_self]
  rfl

end Smp

/-! ## The tables -/

/-- `p[0] == c0 && p[1] == c1 && …`. -/
def begins : List UInt8 → Nat → Act Mm Bool
  | [], _ => pure true
  | c :: cs, p => do
    if (← load 1 p) = c.toNat then begins cs (p + 1) else return false

/-- The characters `_MP_`. -/
def mpSignature : List UInt8 := [0x5F, 0x4D, 0x50, 0x5F]

/-- The loop of `find_smp_config`, with `n` turns to go. -/
def findLoop : Nat → Nat → Act Mm (Option Nat)
  | 0, _ => pure none
  | n + 1, start => do
    if ← begins mpSignature start then return some start else findLoop n (start + 4)

/-- `find_smp_config`, with the address it leaves in `mpfp` when it finds one. -/
def findSmpConfig (addr size : Nat) : Act Mm (Option Nat) := findLoop ((size + 3) / 4) (kpa2va addr)

/-- `sizeof(struct mp_configuration_table)`. -/
def sizeofMpTable : Nat := 44

/-- `sizeof(struct entry_processor)`. -/
def sizeofEntryProcessor : Nat := 20

/-- `sizeof(struct entry_io_apic)`. -/
def sizeofEntryIoApic : Nat := 8

/-- The loop of `init_mp_config` over the entries. The enabled flag of a
processor, bit 0 of the byte after the version, is not looked at. -/
def entriesLoop : Nat → Nat → Act Smp Unit
  | 0, _ => pure ()
  | n + 1, pp => do
    Act.modify fun s => { s with looked := s.looked ++ [pp] }
    let type ← Smp.look (load 1 pp)
    if type = 0 then
      let id ← Smp.look (load 1 (pp + 1))
      Act.modify fun s => s.record (UInt8.ofNat id)
      entriesLoop n (pp + sizeofEntryProcessor)
    else if type = 2 then
      entriesLoop n (pp + sizeofEntryIoApic)
    else
      entriesLoop n (pp + 8)

/-- The condition of `init_mp_config`: the three places searched in turn. -/
def findAnywhere : Act Mm (Option Nat) := do
  match ← findSmpConfig 0x0 0x400 with
  | some p => return some p
  | none =>
    match ← findSmpConfig (639 * 0x400) 0x400 with
    | some p => return some p
    | none => findSmpConfig 0xF0000 0x10000

/-- `init_mp_config`. Nothing in the loop stores to the table, so the count of
its entries is read once. -/
def initMpConfig : Act Smp Unit := do
  match ← Smp.look findAnywhere with
  | none => return ()
  | some p =>
    Act.modify fun s => { s with mpfp := p }
    let table ← Smp.look (load 4 (p + 4))
    let mpct := kpa2va table
    Act.modify fun s => { s with mpct := mpct }
    let count ← Smp.look (load 2 (mpct + 34))
    entriesLoop count (mpct + sizeofMpTable)

/-! ## The interrupts -/

/-- A store to a register of the local APIC. -/
def lapicStore (reg v : Nat) : Act Smp Unit :=
  Act.modify fun s => { s with lapic := s.lapic ++ [(reg, v)] }

/-- `i << 24`, as it is stored. -/
def highHalf (i : Nat) : Nat := (i <<< 24) % 2 ^ 32

/-- `for (j = 0; j < 2; j++)` of `startup_smp`: a STARTUP interrupt a turn. -/
def sendStartup (i : Nat) : Nat → Act Smp Unit
  | 0 => pure ()
  | n + 1 => do
    lapicStore 0x310 (highHalf i)
    lapicStore 0x300 (0x00000600 ||| 0x8)
    sendStartup i n

/-- The loop of `startup_smp` from `i` on, with `n` turns to go. -/
def startupLoop (bspid : UInt8) : Nat → Nat → Act Smp Unit
  | 0, _ => pure ()
  | n + 1, i => do
    if (← Act.gets fun s => s.lapicIds i) = bspid then
      startupLoop bspid n (i + 1)
    else
      lapicStore 0x310 (highHalf i)
      lapicStore 0x300 0x00C500
      lapicStore 0x300 0x008500
      sendStartup i 2
      startupLoop bspid n (i + 1)

/-- `startup_smp` on the processor with the local APIC id `bspid`. -/
def startupSmp (bspid : UInt8) : Act Smp Unit := do
  startupLoop bspid (← Act.gets Smp.numcores) 0

/-! ## What the search finds -/

/-- The signature at a physical address. -/
def signed (m : Mem) (a : Nat) : Bool :=
  m a = 0x5F ∧ m (a + 1) = 0x4D ∧ m (a + 2) = 0x50 ∧ m (a + 3) = 0x5F

/-- The addresses a call of `find_smp_config` looks at. -/
def probes (a n : Nat) : List Nat := (List.range n).map fun i => a + 4 * i

/-- The addresses looked at, in order. -/
def places : List Nat := probes 0 256 ++ (probes (639 * 0x400) 256 ++ probes 0xF0000 16384)

theorem kpa2va_eq {pa : Nat} (h : pa < 2 ^ 31) : kpa2va pa = kbase + pa := by
  unfold kpa2va u64 kbase
  omega

section Search

variable {s : Mm} {a n : Nat}

theorem begins_cons (c : UInt8) (cs : List UInt8) (h : a < 2 ^ 31) :
    begins (c :: cs) (kbase + a) s =
      if s.mem a = c then begins cs (kbase + (a + 1)) s else .ok false s := by
  rw [begins, Act.bind_ok (load_byte h)]
  by_cases hc : s.mem a = c
  · rw [if_pos hc, if_pos (congrArg UInt8.toNat hc)]
    rfl
  · rw [if_neg hc, if_neg fun h => hc (UInt8.toNat_inj.mp h)]
    rfl

theorem begins_run (h : a + 4 ≤ 2 ^ 31) :
    begins mpSignature (kbase + a) s = .ok (signed s.mem a) s := by
  unfold mpSignature signed
  rw [begins_cons _ _ (by omega), begins_cons _ _ (by omega), begins_cons _ _ (by omega),
    begins_cons _ _ (by omega)]
  by_cases h0 : s.mem a = 0x5F
  · by_cases h1 : s.mem (a + 1) = 0x4D
    · by_cases h2 : s.mem (a + 2) = 0x50
      · by_cases h3 : s.mem (a + 3) = 0x5F
        · simp [h0, h1, h2, h3, begins]
        · simp [h0, h1, h2, h3]
      · simp [h0, h1, h2]
    · simp [h0, h1]
  · simp [h0]

theorem probes_succ (a n : Nat) : probes a (n + 1) = a :: probes (a + 4) n := by
  unfold probes
  rw [List.range_succ_eq_map, List.map_cons, List.map_map]
  refine congrArg (_ :: ·) (List.map_congr_left fun i _ => ?_)
  show a + 4 * (i + 1) = a + 4 + 4 * i
  omega

/-- The loop stops at the first signature. -/
theorem findLoop_run (h : a + 4 * n ≤ 2 ^ 31) :
    findLoop n (kbase + a) s = .ok (((probes a n).find? (signed s.mem)).map (kbase + ·)) s := by
  induction n generalizing a with
  | zero => rfl
  | succ n ih =>
    rw [findLoop, Act.bind_ok (begins_run (a := a) (by omega)), probes_succ]
    cases hs : signed s.mem a with
    | true =>
      rw [List.find?_cons_of_pos hs]
      rfl
    | false =>
      rw [List.find?_cons_of_neg (by rw [hs]; decide)]
      exact ih (a := a + 4) (by omega)

theorem findSmpConfig_run (h : a + 4 * n < 2 ^ 31) : findSmpConfig a (4 * n) s =
    .ok (((probes a n).find? (signed s.mem)).map (kbase + ·)) s := by
  rw [findSmpConfig, kpa2va_eq (by omega), show (4 * n + 3) / 4 = n by omega]
  exact findLoop_run (Nat.le_of_lt h)

/-- The search stops at the first signature of the three places. -/
theorem findAnywhere_run :
    findAnywhere s = .ok ((places.find? (signed s.mem)).map (kbase + ·)) s := by
  have hlow : findSmpConfig 0x0 0x400 s = _ := findSmpConfig_run (n := 256) (by decide)
  have htop : findSmpConfig (639 * 0x400) 0x400 s = _ := findSmpConfig_run (n := 256) (by decide)
  have hbios : findSmpConfig 0xF0000 0x10000 s = _ := findSmpConfig_run (n := 16384) (by decide)
  unfold findAnywhere places
  generalize probes 0 256 = low at hlow ⊢
  generalize probes (639 * 0x400) 256 = top at htop ⊢
  generalize probes 0xF0000 16384 = bios at hbios ⊢
  rw [Act.bind_ok hlow, List.find?_append]
  cases low.find? (signed s.mem) with
  | some p => rfl
  | none =>
    rw [Option.none_or, List.find?_append]
    show (findSmpConfig (639 * 0x400) 0x400 >>= _) s = _
    rw [Act.bind_ok htop]
    cases top.find? (signed s.mem) with
    | some p => rfl
    | none => exact hbios

end Search

/-! ## The table -/

/-- An entry of the table: a processor, or anything else. -/
inductive MpEntry where
  | processor (id version flags : UInt8) (rest : Fin 16 → UInt8)
  | other (type : UInt8) (rest : Fin 7 → UInt8) (h : type ≠ 0)

namespace MpEntry

/-- The bytes of an entry. -/
def bytes : MpEntry → List UInt8
  | processor id version flags rest => [0, id, version, flags] ++ List.ofFn rest
  | other type rest _ => type :: List.ofFn rest

/-- Its size in the table. -/
def size : MpEntry → Nat
  | processor .. => 20
  | other .. => 8

/-- The local APIC id, if it is a processor. -/
def id : MpEntry → Option UInt8
  | processor id .. => some id
  | other .. => none

/-- Bit 0 of the flags of a processor: clear, and it must be ignored. -/
def enabled : MpEntry → Bool
  | processor _ _ flags _ => flags &&& 1 = 1
  | other .. => true

theorem length_bytes (e : MpEntry) : e.bytes.length = e.size := by
  cases e with
  | processor id version flags rest => simp [bytes, size]
  | other type rest h => simp [bytes, size]

end MpEntry

/-- The entries laid one after the other from a physical address on. -/
def Laid (m : Mem) : Nat → List MpEntry → Prop
  | _, [] => True
  | a, e :: es => (∀ i (h : i < e.bytes.length), m (a + i) = e.bytes[i]) ∧ Laid m (a + e.size) es

/-- Where the entries stand. -/
def stands : Nat → List MpEntry → List Nat
  | _, [] => []
  | a, e :: es => a :: stands (a + e.size) es

/-- The bytes the entries take. -/
def tableSize (es : List MpEntry) : Nat := (es.map MpEntry.size).sum

/-- Any bytes are a table, of any number of entries. -/
theorem laid_exists (m : Mem) (a n : Nat) : ∃ es : List MpEntry, es.length = n ∧ Laid m a es := by
  induction n generalizing a with
  | zero => exact ⟨[], rfl, trivial⟩
  | succ n ih =>
    by_cases h0 : m a = 0
    · obtain ⟨es, hlen, hes⟩ := ih (a + 20)
      refine ⟨.processor (m (a + 1)) (m (a + 2)) (m (a + 3)) (fun i => m (a + 4 + i)) :: es,
        by rw [List.length_cons, hlen], fun i hi => ?_, hes⟩
      rcases i with _ | _ | _ | _ | i
      · exact h0
      · rfl
      · rfl
      · rfl
      · simp only [MpEntry.bytes, List.cons_append, List.nil_append, List.getElem_cons_succ,
          List.getElem_ofFn]
        exact congrArg m (by omega)
    · obtain ⟨es, hlen, hes⟩ := ih (a + 8)
      refine ⟨.other (m a) (fun i => m (a + 1 + i)) h0 :: es, by rw [List.length_cons, hlen],
        fun i hi => ?_, hes⟩
      rcases i with _ | i
      · rfl
      · simp only [MpEntry.bytes, List.getElem_cons_succ, List.getElem_ofFn]
        exact congrArg m (by omega)

/-- The firmware's structures: the pointer at the first signature, the table
it points to, and the entries after the header. -/
structure Firmware (m : Mem) (pointer table : Nat) (es : List MpEntry) : Prop where
  found : places.find? (signed m) = some pointer
  points : Mem.rd 4 m (pointer + 4) = table
  counts : Mem.rd 2 m (table + 34) = es.length
  laid : Laid m (table + sizeofMpTable) es
  /-- The table ends in the direct map. -/
  mapped : table + sizeofMpTable + tableSize es ≤ 2 ^ 31

/-- The processors of a table. -/
def processors (es : List MpEntry) : List UInt8 := es.filterMap MpEntry.id

/-- The processors of a table that are enabled. -/
def enabledProcessors (es : List MpEntry) : List UInt8 :=
  (es.filter MpEntry.enabled).filterMap MpEntry.id

/-- What the loop over the entries leaves: every processor recorded, at the
next places of `lapic_ids`, and every entry looked at where it stands. -/
structure Walked (s s' : Smp) (a : Nat) (es : List MpEntry) : Prop where
  ids : s'.ids = s.ids ++ processors es
  numcores : s'.numcores = s.numcores + (processors es).length
  stored : s'.stored = s.stored ++ List.range' s.numcores (processors es).length
  looked : s'.looked = s.looked ++ (stands a es).map (kbase + ·)

section Table

variable {s : Smp} {a : Nat} {es : List MpEntry}

theorem tableSize_cons (e : MpEntry) (es : List MpEntry) :
    tableSize (e :: es) = e.size + tableSize es := List.sum_cons

/-- RUN: the loop over the entries of a table. -/
theorem entriesLoop_run (hlaid : Laid s.mm.mem a es) (hend : a + tableSize es ≤ 2 ^ 31) :
    ∃ s', entriesLoop es.length (kbase + a) s = .ok () s' ∧ Walked s s' a es := by
  induction es generalizing s a with
  | nil =>
    refine ⟨s, rfl, ?_, rfl, ?_, ?_⟩
    · exact (List.append_nil s.ids).symm
    · exact (List.append_nil s.stored).symm
    · exact (List.append_nil s.looked).symm
  | cons e es ih =>
    obtain ⟨hbytes, hrest⟩ := hlaid
    rw [tableSize_cons] at hend
    have hlook : (stands a (e :: es)).map (kbase + ·) =
        (kbase + a) :: (stands (a + e.size) es).map (kbase + ·) := rfl
    have h0 := hbytes 0
    rw [List.length_cons, entriesLoop, Act.modify_bind_apply]
    cases e with
    | processor id version flags rest =>
      have hsize : (MpEntry.processor id version flags rest).size = 20 := rfl
      rw [hsize] at hend hrest
      have htype := h0 (by rw [MpEntry.length_bytes, hsize]; omega)
      have hid := hbytes 1 (by rw [MpEntry.length_bytes, hsize]; omega)
      rw [Act.bind_ok (Smp.look_ok (load_byte (by omega)))]
      rw [show (s.mm.mem a).toNat = 0 by rw [show s.mm.mem a = 0 from htype]; rfl, if_pos rfl,
        show kbase + a + 1 = kbase + (a + 1) from Nat.add_assoc kbase a 1,
        Act.bind_ok (Smp.look_ok (load_byte (by omega))), Act.modify_bind_apply,
        show s.mm.mem (a + 1) = id from hid, UInt8.ofNat_toNat,
        show kbase + a + sizeofEntryProcessor = kbase + (a + 20) from Nat.add_assoc kbase a 20]
      obtain ⟨s', hrun, hw⟩ := ih
        (s := Smp.record { s with looked := s.looked ++ [kbase + a] } id) hrest (by omega)
      refine ⟨s', hrun, ?_, ?_, ?_, ?_⟩
      · rw [hw.ids, Smp.record_ids, List.append_assoc]
        rfl
      · rw [hw.numcores]
        show s.numcores + 1 + (processors es).length = s.numcores + ((processors es).length + 1)
        omega
      · rw [hw.stored]
        show s.stored ++ [s.numcores] ++ _ =
          s.stored ++ List.range' s.numcores ((processors es).length + 1)
        rw [List.range'_succ, List.append_assoc]
        rfl
      · rw [hw.looked, hlook]
        show s.looked ++ [kbase + a] ++ _ = _
        rw [List.append_assoc]
        rfl
    | other type rest hne =>
      have hsize : (MpEntry.other type rest hne).size = 8 := rfl
      rw [hsize] at hend hrest
      have htype := h0 (by rw [MpEntry.length_bytes, hsize]; omega)
      have hnz : (s.mm.mem a).toNat ≠ 0 := by
        rw [show s.mm.mem a = type from htype]
        exact fun h => hne (UInt8.toNat_inj.mp h)
      obtain ⟨s', hrun, hw⟩ := ih
        (s := { s with looked := s.looked ++ [kbase + a] }) hrest (by omega)
      refine ⟨s', ?_, hw.ids, hw.numcores, hw.stored, ?_⟩
      · rw [Act.bind_ok (Smp.look_ok (load_byte (by omega))), if_neg hnz,
          show kbase + a + sizeofEntryIoApic = kbase + (a + 8) from Nat.add_assoc kbase a 8,
          show kbase + a + 8 = kbase + (a + 8) from Nat.add_assoc kbase a 8, ite_self]
        exact hrun
      · rw [hw.looked, hlook]
        show s.looked ++ [kbase + a] ++ _ = _
        rw [List.append_assoc]
        rfl

/-- RUN: `init_mp_config` on the structures of the firmware. -/
theorem initMpConfig_run {pointer table : Nat} (h : Firmware s.mm.mem pointer table es) :
    ∃ s', initMpConfig s = .ok () s' ∧ Walked s s' (table + sizeofMpTable) es := by
  obtain ⟨hfound, hpoints, hcounts, hlaid, hmapped⟩ := h
  have hpointer : pointer < 0x100000 := by
    have hmem := List.mem_of_find?_eq_some hfound
    simp only [places, probes, List.mem_append, List.mem_map, List.mem_range] at hmem
    rcases hmem with ⟨i, hi, rfl⟩ | ⟨i, hi, rfl⟩ | ⟨i, hi, rfl⟩ <;> omega
  have htable : table + 44 ≤ 2 ^ 31 := by
    unfold sizeofMpTable at hmapped
    omega
  let s1 : Smp := { s with mpfp := kbase + pointer }
  let s2 : Smp := { s1 with mpct := kbase + table }
  obtain ⟨s', hrun, hw⟩ := entriesLoop_run (s := s2) hlaid hmapped
  refine ⟨s', ?_, hw.ids, hw.numcores, hw.stored, hw.looked⟩
  have hsearch : findAnywhere s.mm = .ok (some (kbase + pointer)) s.mm := by
    rw [findAnywhere_run, hfound]
    rfl
  have hread : load 4 (kbase + pointer + 4) s1.mm = .ok table s1.mm := by
    rw [Nat.add_assoc, load_ok (Mm.kpa_direct (by omega)), ← hpoints]
  have hcount : load 2 (kbase + table + 34) s2.mm = .ok es.length s2.mm := by
    rw [Nat.add_assoc, load_ok (Mm.kpa_direct (by omega)), ← hcounts]
  unfold initMpConfig
  rw [Act.bind_ok (Smp.look_ok hsearch)]
  simp only [Act.modify_bind_apply]
  rw [Act.bind_ok (Smp.look_ok hread), kpa2va_eq (by omega), Act.modify_bind_apply,
    Act.bind_ok (Smp.look_ok hcount), Nat.add_assoc]
  exact hrun

end Table

/-! ## Which tables are read right -/

/-- What is to be had of the table: the enabled processors recorded in order,
nothing stored behind `lapic_ids`, every entry looked at where it stands. -/
structure TableRead (s : Smp) (a : Nat) (es : List MpEntry) : Prop where
  recorded : s.ids = enabledProcessors es
  within : ∀ i ∈ s.stored, i < maxcpus
  stepped : s.looked = (stands a es).map (kbase + ·)

/-- All processors are the enabled ones exactly if all are enabled. -/
theorem processors_eq_enabled (es : List MpEntry) :
    processors es = enabledProcessors es ↔ ∀ e ∈ es, e.enabled = true := by
  have hlen : ∀ es, (enabledProcessors es).length ≤ (processors es).length := by
    intro es
    exact (List.filter_sublist.filterMap MpEntry.id).length_le
  induction es with
  | nil => simp [processors, enabledProcessors]
  | cons e es ih =>
    refine Iff.trans ?_ (List.forall_mem_cons.trans (and_congr_right fun _ => ih.symm)).symm
    cases e with
    | other type rest h =>
      have henabled : (MpEntry.other type rest h).enabled = true := rfl
      constructor
      · intro heq
        exact ⟨henabled, heq⟩
      · rintro ⟨-, heq⟩
        exact heq
    | processor id version flags rest =>
      have hall : processors (.processor id version flags rest :: es) = id :: processors es := rfl
      cases hen : (MpEntry.processor id version flags rest).enabled with
      | true =>
        have hsome : enabledProcessors (.processor id version flags rest :: es) =
            id :: enabledProcessors es := by
          unfold enabledProcessors
          rw [List.filter_cons_of_pos hen]
          rfl
        rw [hall, hsome, List.cons.injEq]
        simp
      | false =>
        have hnone : enabledProcessors (.processor id version flags rest :: es) =
            enabledProcessors es := by
          unfold enabledProcessors
          rw [List.filter_cons_of_neg (by rw [hen]; decide)]
        rw [hall, hnone]
        constructor
        · intro heq
          have := congrArg List.length heq
          have := hlen es
          rw [List.length_cons] at *
          omega
        · rintro ⟨h, -⟩
          cases h

/-- `init_mp_config` reads a table right exactly if every processor in it is
enabled and there are not more than `MAXCPUS`. -/
theorem init_mp_config_iff {s : Smp} {pointer table : Nat} {es : List MpEntry}
    (h : Firmware s.mm.mem pointer table es) (hcores : s.numcores = 0) (hstored : s.stored = [])
    (hlooked : s.looked = []) : ∃ s', initMpConfig s = .ok () s' ∧
      (TableRead s' (table + sizeofMpTable) es ↔
        (∀ e ∈ es, e.enabled = true) ∧ (processors es).length ≤ maxcpus) := by
  obtain ⟨s', hrun, hw⟩ := initMpConfig_run h
  have hids : s'.ids = processors es := by
    rw [hw.ids, Smp.ids, hcores]
    rfl
  have hplaces : s'.stored = List.range' 0 (processors es).length := by
    rw [hw.stored, hstored, hcores, List.nil_append]
  refine ⟨s', hrun, ?_⟩
  rw [← processors_eq_enabled]
  constructor
  · rintro ⟨hrec, hwithin, -⟩
    refine ⟨hids.symm.trans hrec, ?_⟩
    by_contra hmany
    have := hwithin maxcpus (by rw [hplaces, List.mem_range'_1]; omega)
    omega
  · rintro ⟨hrec, hfew⟩
    refine ⟨hids.trans hrec, fun i hi => ?_, by rw [hw.looked, hlooked, List.nil_append]⟩
    rw [hplaces, List.mem_range'_1] at hi
    omega

/-- The memory of a machine with one processor in its table, local APIC id 1,
and these flags: the pointer at nought, the table at `0x40`. -/
def firmwareMem (flags : UInt8) : Mem
  | 0 => 0x5F
  | 1 => 0x4D
  | 2 => 0x50
  | 3 => 0x5F
  | 4 => 0x40
  | 98 => 1
  | 109 => 1
  | 111 => flags
  | _ => 0

/-- The one entry of that table. -/
def oneProcessor (flags : UInt8) : MpEntry := .processor 1 0 flags fun _ => 0

/-- The kernel on that machine before `init_smp`. -/
def beforeSmp (flags : UInt8) : Smp where
  mm := { mem := firmwareMem flags, pages := fun _ => {}, phead := none, npages := 4096,
          kusedMem := 0, pagesVa := 0, cr3 := 0, starved := false }
  mpfp := 0
  mpct := 0
  lapicIds := fun _ => 0
  numcores := 0
  lapic := []
  looked := []
  stored := []

theorem firmware_one (flags : UInt8) :
    Firmware (beforeSmp flags).mm.mem 0 0x40 [oneProcessor flags] := by
  refine ⟨?_, by rfl, by rfl, ⟨fun i hi => ?_, trivial⟩, show 0x40 + 44 + 20 ≤ 2 ^ 31 by decide⟩
  · unfold places
    rw [probes_succ, List.cons_append, List.find?_cons_of_pos (by rfl)]
  · have hlen : i < 20 := by
      rw [MpEntry.length_bytes] at hi
      exact hi
    interval_cases i <;> rfl

/-- A table with one enabled processor is read right. -/
theorem init_mp_config_one : ∃ s', initMpConfig (beforeSmp 1) = .ok () s' ∧
    TableRead s' (0x40 + sizeofMpTable) [oneProcessor 1] := by
  obtain ⟨s', hrun, hiff⟩ := init_mp_config_iff (firmware_one 1) rfl rfl rfl
  refine ⟨s', hrun, hiff.mpr ⟨fun e he => ?_, by decide⟩⟩
  rw [List.mem_singleton.mp he]
  rfl

/-- A disabled processor is recorded. -/
theorem init_mp_config_disabled : ¬ ∀ (s s' : Smp) (pointer table : Nat) (es : List MpEntry),
    Firmware s.mm.mem pointer table es → s.numcores = 0 → s.stored = [] → s.looked = [] →
      initMpConfig s = .ok () s' → TableRead s' (table + sizeofMpTable) es := by
  intro h
  obtain ⟨s', hrun, hw⟩ := initMpConfig_run (firmware_one 0)
  have hread := (h _ s' 0 0x40 _ (firmware_one 0) rfl rfl rfl hrun).recorded
  rw [hw.ids] at hread
  cases hread

/-! ## Which processors are started -/

/-- What the stores to the local APIC send, when the high half of the command
register holds `high`: destinations and commands, in order. -/
def sent : Nat → List (Nat × Nat) → List (Nat × Nat)
  | _, [] => []
  | high, (reg, v) :: ws =>
    if reg = 0x310 then sent (v >>> 24) ws
    else if reg = 0x300 then (high, v) :: sent high ws
    else sent high ws

/-- The commands a processor receives, in order. -/
def received (d : Nat) (ws : List (Nat × Nat)) : List Nat :=
  ((sent 0 ws).filter fun c => c.1 = d).map Prod.snd

/-- INIT, de-assert and two STARTUPs. -/
def startSequence : List Nat := [0xC500, 0x8500, 0x608, 0x608]

namespace Smp

/-- The processors to start: the ids recorded, other than the boot processor's. -/
def meant (s : Smp) (bspid : UInt8) : List Nat :=
  ((s.ids.filter fun id => id ≠ bspid).dedup).map UInt8.toNat

/-- The places in `lapic_ids` of ids other than the boot processor's, each as
the byte that reaches the command register. -/
def aimed (s : Smp) (bspid : UInt8) : List Nat :=
  ((List.range s.numcores).filter fun i => s.lapicIds i ≠ bspid).map fun i => i % 256

theorem meant_nodup (s : Smp) (bspid : UInt8) : (s.meant bspid).Nodup :=
  (List.nodup_dedup _).map fun _ _ h => UInt8.toNat_inj.mp h

end Smp

/-- The stores that start a processor, for the place `i`. -/
def startStores (i : Nat) : List (Nat × Nat) :=
  [(0x310, highHalf i), (0x300, 0xC500), (0x300, 0x8500), (0x310, highHalf i), (0x300, 0x608),
    (0x310, highHalf i), (0x300, 0x608)]

/-- The byte of a place in the command register. -/
theorem highHalf_byte (i : Nat) : highHalf i >>> 24 = i % 256 := by
  rw [highHalf, Nat.shiftLeft_eq, Nat.shiftRight_eq_div_pow]
  omega

theorem sent_startStores (high i : Nat) (ws : List (Nat × Nat)) :
    sent high (startStores i ++ ws) =
      startSequence.map (fun v => (i % 256, v)) ++ sent (i % 256) ws := by
  simp [startStores, startSequence, sent, highHalf_byte]

/-- The whole trace, a group of stores for a place. -/
theorem sent_startStores_all (high : Nat) (is : List Nat) :
    sent high (is.flatMap startStores) =
      is.flatMap fun i => startSequence.map fun v => (i % 256, v) := by
  induction is generalizing high with
  | nil => rfl
  | cons i is ih =>
    rw [List.flatMap_cons, sent_startStores, ih, List.flatMap_cons]

/-- A processor receives the sequence once for each place that names it. -/
theorem received_startStores (d : Nat) (is : List Nat) : received d (is.flatMap startStores) =
    (List.replicate ((is.map fun i => i % 256).count d) startSequence).flatten := by
  unfold received
  rw [sent_startStores_all]
  induction is with
  | nil => rfl
  | cons i is ih =>
    rw [List.flatMap_cons, List.filter_append, List.map_append, ih, List.map_cons]
    by_cases hd : i % 256 = d
    · rw [hd, List.count_cons_self, List.replicate_succ, List.flatten_cons]
      refine congrArg (· ++ _) ?_
      simp [startSequence]
    · rw [List.count_cons_of_ne hd]
      simp [startSequence, hd]

/-- RUN: the loop of `startup_smp`. -/
theorem startupLoop_run (bspid : UInt8) (n i : Nat) (s : Smp) :
    startupLoop bspid n i s = .ok () { s with
      lapic := s.lapic ++
        ((List.range' i n).filter fun j => s.lapicIds j ≠ bspid).flatMap startStores } := by
  induction n generalizing i s with
  | zero =>
    rw [startupLoop]
    show Res.ok () s = _
    rw [List.range'_zero, List.filter_nil, List.flatMap_nil, List.append_nil]
  | succ n ih =>
    rw [startupLoop, Act.gets_bind_apply, List.range'_succ]
    by_cases hb : s.lapicIds i = bspid
    · rw [if_pos hb, ih, List.filter_cons_of_neg (by simp [hb])]
    · rw [if_neg hb, List.filter_cons_of_pos (by simp [hb]), List.flatMap_cons]
      have hsend : ∀ s : Smp, sendStartup i 2 s = .ok () { s with lapic := s.lapic ++
          [(0x310, highHalf i), (0x300, 0x608), (0x310, highHalf i), (0x300, 0x608)] } := by
        intro s
        simp only [sendStartup, lapicStore, Act.modify_bind_apply, List.append_assoc]
        rfl
      simp only [lapicStore, Act.modify_bind_apply]
      rw [Act.bind_ok (hsend _), ih]
      simp only [List.append_assoc]
      rfl

theorem startupSmp_run (bspid : UInt8) (s : Smp) : startupSmp bspid s = .ok () { s with
    lapic := s.lapic ++ ((List.range s.numcores).filter fun j =>
      s.lapicIds j ≠ bspid).flatMap startStores } := by
  rw [startupSmp, Act.gets_bind_apply, startupLoop_run, List.range_eq_range']

/-- `startup_smp` sends every recorded processor but the boot one the sequence,
and no other anything, exactly if the places of their ids in `lapic_ids` are, in
some order, the ids. -/
theorem startup_smp_iff (s : Smp) (bspid : UInt8) (h : s.lapic = []) :
    ∃ s', startupSmp bspid s = .ok () s' ∧
      ((∀ d, received d s'.lapic = if d ∈ s.meant bspid then startSequence else []) ↔
        (s.aimed bspid).Perm (s.meant bspid)) := by
  refine ⟨_, startupSmp_run bspid s, ?_⟩
  rw [h, List.nil_append]
  have hrec : ∀ d, received d (((List.range s.numcores).filter fun j =>
      s.lapicIds j ≠ bspid).flatMap startStores) =
      (List.replicate ((s.aimed bspid).count d) startSequence).flatten :=
    fun d => received_startStores d _
  have hmeant : ∀ d, (s.meant bspid).count d = if d ∈ s.meant bspid then 1 else 0 := by
    intro d
    exact (s.meant_nodup bspid).count
  have hcount : ∀ k, (List.replicate k startSequence).flatten.length = 4 * k := by
    intro k
    induction k with
    | zero => rfl
    | succ k ih =>
      rw [List.replicate_succ, List.flatten_cons, List.length_append, ih]
      show 4 + 4 * k = 4 * (k + 1)
      omega
  rw [List.perm_iff_count]
  refine forall_congr' fun d => ?_
  rw [hrec, hmeant]
  constructor
  · intro heq
    have hlen := congrArg List.length heq
    rw [hcount] at hlen
    split at hlen
    · next hd =>
      rw [if_pos hd]
      have : startSequence.length = 4 := rfl
      omega
    · next hd =>
      rw [if_neg hd]
      rw [List.length_nil] at hlen
      omega
  · intro heq
    rw [heq]
    split
    · rfl
    · rfl

/-- A machine with two processors, the boot processor 0 and another. -/
def twoProcessors (id : UInt8) : Smp :=
  { beforeSmp 1 with lapicIds := fun i => if i = 0 then 0 else id, numcores := 2 }

/-- Ids 0 and 1: the other processor is started. -/
theorem startup_smp_two : ∃ s', startupSmp 0 (twoProcessors 1) = .ok () s' ∧
    ∀ d, received d s'.lapic = if d ∈ (twoProcessors 1).meant 0 then startSequence else [] := by
  obtain ⟨s', hrun, hiff⟩ := startup_smp_iff (twoProcessors 1) 0 rfl
  exact ⟨s', hrun, hiff.mpr (by decide)⟩

/-- Ids 0 and 2: the interrupts go to a processor 1. -/
theorem startup_smp_stray : ¬ ∀ (s s' : Smp) (bspid : UInt8), s.lapic = [] → bspid ∈ s.ids →
    startupSmp bspid s = .ok () s' →
      ∀ d, received d s'.lapic = if d ∈ s.meant bspid then startSequence else [] := by
  intro h
  have hstart := h (twoProcessors 2) _ 0 rfl (by decide) (startupSmp_run 0 _) 2
  revert hstart
  decide

end Myos.Kernel
