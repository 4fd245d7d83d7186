import Mathlib.Data.List.GetD
import Myos.Lib.Loop
import Myos.Kernel.Console
import Myos.Kernel.Keyboard

/-!
# The keyboard interrupt

`kbd_handler` and `handle_scancode` of `kernel/console.c`, down to the ports of the
keyboard controller. The controller has bytes at hand, from the keyboard or from the
auxiliary device, and more come while the handler is at work. The handler takes all that
is there when it looks, each byte once and in the order of arrival, and types those of
the keyboard that stand for a key that was pressed (`kbd_handler_takes`).
-/

namespace Myos.Kernel.Scancodes

open Myos.Lib

/-! ## The controller -/

def kbdStatusReg : Nat := 0x64
def kbdDataReg : Nat := 0x60
def kbdStatAuxb : UInt8 := 0x20
def kbdStatOutb : UInt8 := 0x01

/-- A byte of the controller, and whether the auxiliary device sent it. -/
structure KbByte where
  aux : Bool
  byte : UInt8
deriving DecidableEq, Repr

/-- The bytes at hand, what comes before each of the next port accesses, and the bits of
the status that have nothing to do with either. -/
structure Controller where
  out : List KbByte
  later : List (List KbByte)
  other : UInt8

/-- What comes before an access is there. -/
def Controller.arrive (c : Controller) : Controller :=
  { c with out := c.out ++ c.later.head?.getD [], later := c.later.tail }

/-- The status register: what is next, if anything is, and from which device. -/
def Controller.status (c : Controller) : UInt8 :=
  match c.out with
  | [] => c.other &&& ~~~kbdStatOutb
  | b :: _ => (c.other &&& ~~~kbdStatAuxb) ||| kbdStatOutb ||| if b.aux then kbdStatAuxb else 0

/-- The controller, the keyboard buffer and the screen. -/
structure Desk where
  ctl : Controller
  kbs : Kbs
  screen : Console

/-- `inb` of the two registers; the byte that was read is gone. -/
def inb (port : Nat) : Act Desk UInt8 := fun d =>
  let c := d.ctl.arrive
  if port = kbdStatusReg then .ok c.status { d with ctl := c }
  else if port = kbdDataReg then
    .ok ((c.out.head?.map KbByte.byte).getD 0) { d with ctl := { c with out := c.out.tail } }
  else .fault d

/-! ## The handler -/

/-- `ascii_map`. -/
def asciiMap : List UInt8 := [
  0x20, 0x21, 0x22, 0x23, 0x24, 0x25, 0x26, 0x27,
  0x28, 0x29, 0x2a, 0x2b, 0x2c, 0x2d, 0x2e, 0x2f,
  0x30, 0x31, 0x32, 0x33, 0x34, 0x35, 0x36, 0x37,
  0x38, 0x39, 0x3a, 0x3b, 0x3c, 0x3d, 0x3e, 0x3f,
  0x40, 0x41, 0x42, 0x43, 0x44, 0x45, 0x46, 0x47,
  0x48, 0x49, 0x4a, 0x4b, 0x4c, 0x4d, 0x4e, 0x4f,
  0x50, 0x51, 0x52, 0x53, 0x54, 0x55, 0x56, 0x57,
  0x58, 0x59, 0x5a, 0x5b, 0x5c, 0x5d, 0x5e, 0x5f,
  0x60, 0x61, 0x62, 0x63, 0x64, 0x65, 0x66, 0x67,
  0x68, 0x69, 0x6a, 0x6b, 0x6c, 0x6d, 0x6e, 0x6f,
  0x70, 0x71, 0x72, 0x73, 0x74, 0x75, 0x76, 0x77,
  0x78, 0x79, 0x7a, 0x7b, 0x7c, 0x7d, 0x7e]

/-- `plain_map`. -/
def plainMap : List UInt8 := [
  0x00, 0x1b, 0x31, 0x32, 0x33, 0x34, 0x35, 0x36,
  0x37, 0x38, 0x39, 0x30, 0x2d, 0x3d, 0x7f, 0x09,
  0x71, 0x77, 0x65, 0x72, 0x74, 0x79, 0x75, 0x69,
  0x6f, 0x70, 0x5b, 0x5d, 0x0a, 0x02, 0x61, 0x73,
  0x64, 0x66, 0x67, 0x68, 0x6a, 0x6b, 0x6c, 0x3b,
  0x27, 0x60, 0x00, 0x5c, 0x7a, 0x78, 0x63, 0x76,
  0x62, 0x6e, 0x6d, 0x2c, 0x2e, 0x2f, 0x00, 0x0c,
  0x03, 0x20, 0x07, 0x00, 0x01, 0x02, 0x03, 0x04,
  0x05, 0x06, 0x07, 0x08, 0x09, 0x08, 0x09, 0x07,
  0x08, 0x09, 0x0b, 0x04, 0x05, 0x06, 0x0a, 0x01,
  0x02, 0x03, 0x00, 0x10, 0x06, 0x00, 0x3c, 0x0a,
  0x0b, 0x00, 0x00, 0x00, 0x00, 0x00, 0x00, 0x00,
  0x0e, 0x02, 0x0d, 0x1c, 0x01, 0x05, 0x14, 0x03,
  0x18, 0x01, 0x02, 0x17, 0x00, 0x19, 0x15, 0x16,
  0x1a, 0x0c, 0x0d, 0x1b, 0x1c, 0x10, 0x11, 0x1d,
  0x00, 0x00, 0x00, 0x00, 0x00, 0x00, 0x00, 0x00]

/-- `handle_scancode`. -/
def handleScancode (scancode : UInt8) : Act Desk Unit :=
  let i := plainMap.getD scancode.toNat 0
  if 31 < i ∧ i < 127 then
    let ch := asciiMap.getD (i - 32).toNat 0
    Act.modify fun d => { d with kbs := addKbdata ch d.kbs, screen := myputchar d.screen ch.toNat }
  else Act.modify fun d => { d with kbs := addKbdata i d.kbs }

/-- What the loop of `kbd_handler` does with a byte: the auxiliary device has no driver, and
of the keyboard only keys that are pressed count. -/
def handleByte (status scancode : UInt8) : Act Desk Unit :=
  if status &&& kbdStatAuxb ≠ 0 then return ()
  else if scancode < 0x7f then handleScancode scancode
  else return ()

/-- The loop of `kbd_handler`, with the status it looked at last. -/
def kbdHandlerLoop : Nat → UInt8 → Act Desk Unit
  | 0, _ => Act.stop
  | t + 1, status =>
    if status &&& kbdStatOutb ≠ 0 then do
      let scancode ← inb kbdDataReg
      handleByte status scancode
      kbdHandlerLoop t (← inb kbdStatusReg)
    else return ()

/-- `kbd_handler`, with so many turns. -/
def kbdHandlerPorts (t : Nat) : Act Desk Unit := do kbdHandlerLoop t (← inb kbdStatusReg)

/-! ## What was typed -/

/-- What a key that was pressed is typed as. -/
def translate (scancode : UInt8) : UInt8 := plainMap.getD scancode.toNat 0

/-- What a byte of the controller is typed as, if it stands for a key that was pressed. -/
def KbByte.typed (b : KbByte) : Option UInt8 :=
  if b.aux then none else if b.byte < 0x7f then some (translate b.byte) else none

/-- What a row of bytes is typed as. -/
def typed (bs : List KbByte) : List UInt8 := bs.filterMap KbByte.typed

/-- The characters of it that are displayed. -/
def printable (data : List UInt8) : List UInt8 := data.filter fun b => 31 < b ∧ b < 127

theorem typed_append (bs bs' : List KbByte) : typed (bs ++ bs') = typed bs ++ typed bs' :=
  List.filterMap_append

theorem asciiMap_eq : asciiMap = (List.range 95).map fun n => UInt8.ofNat (n + 32) := by decide

/-- `ascii_map` has at `i - 32` the character `i`. -/
theorem asciiMap_getD {i : UInt8} (h : 31 < i ∧ i < 127) : asciiMap.getD (i - 32).toNat 0 = i := by
  have hlo : 31 < i.toNat := UInt8.lt_iff_toNat_lt.mp h.1
  have hhi : i.toNat < 127 := UInt8.lt_iff_toNat_lt.mp h.2
  have hle : (32 : UInt8) ≤ i := UInt8.le_iff_toNat_le.mpr hlo
  have hsub : (i - 32).toNat = i.toNat - 32 := UInt8.toNat_sub_of_le i 32 hle
  rw [hsub, asciiMap_eq, List.getD_eq_getElem _ _ (by simp; omega)]
  simp only [List.getElem_map, List.getElem_range]
  rw [Nat.sub_add_cancel hlo, UInt8.ofNat_toNat]

theorem plainMap_lt : plainMap.all (· < 128) = true := by decide +kernel

/-- No key is typed as a byte that is not ASCII. -/
theorem translate_lt (scancode : UInt8) : translate scancode < 128 := by
  unfold translate
  rw [List.getD_eq_getElem?_getD]
  cases hget : plainMap[scancode.toNat]? with
  | none => exact (by decide : (0 : UInt8) < 128)
  | some i =>
    have hlt := List.all_eq_true.mp plainMap_lt i (List.mem_of_getElem? hget)
    exact of_decide_eq_true hlt

theorem typed_lt {bs : List KbByte} {b : UInt8} (h : b ∈ typed bs) : b < 128 := by
  obtain ⟨x, -, hx⟩ := List.mem_filterMap.mp h
  unfold KbByte.typed at hx
  split at hx
  · cases hx
  · split at hx
    · cases hx
      exact translate_lt x.byte
    · cases hx

/-! ## The run of the handler -/

/-- The keyboard buffer after a row of bytes. -/
def typeInto (k : Kbs) (data : List UInt8) : Kbs := data.foldl (fun k b => addKbdata b k) k

/-- The screen after what of them is displayed. -/
def echo (s : Console) (data : List UInt8) : Console :=
  (printable data).foldl (fun s b => myputchar s b.toNat) s

/-- The bytes `data` are typed. -/
def Desk.type (d : Desk) (data : List UInt8) : Desk :=
  { d with kbs := typeInto d.kbs data, screen := echo d.screen data }

section Run

variable {d : Desk} {data data' : List UInt8} {bs : List KbByte} {b : KbByte} {t n : Nat}

theorem printable_append : printable (data ++ data') = printable data ++ printable data' :=
  List.filter_append ..

theorem Desk.type_append (d : Desk) : d.type (data ++ data') = (d.type data).type data' := by
  simp only [Desk.type, typeInto, echo, printable_append, List.foldl_append]

/-- A scancode types the byte it stands for. -/
theorem handleScancode_run (scancode : UInt8) (d : Desk) :
    handleScancode scancode d = .ok () (d.type [translate scancode]) := by
  unfold handleScancode
  by_cases h : 31 < translate scancode ∧ translate scancode < 127
  · have hprint : printable [translate scancode] = [translate scancode] :=
      List.filter_eq_self.mpr fun b hb => by
        rw [List.mem_singleton.mp hb]
        exact decide_eq_true h
    rw [Desk.type, echo, hprint]
    unfold translate at h ⊢
    simp only [if_pos h, asciiMap_getD h, Act.modify_apply, typeInto, List.foldl_cons,
      List.foldl_nil]
  · have hprint : printable [translate scancode] = [] :=
      List.filter_eq_nil_iff.mpr fun b hb => by
        rw [List.mem_singleton.mp hb, decide_eq_true_eq]
        exact h
    rw [Desk.type, echo, hprint]
    unfold translate at h ⊢
    simp only [if_neg h, Act.modify_apply, typeInto, List.foldl_cons, List.foldl_nil]

theorem inb_status (d : Desk) : inb kbdStatusReg d =
    .ok d.ctl.arrive.status { d with ctl := d.ctl.arrive } := rfl

/-- The byte that is next. -/
theorem inb_data {out : List KbByte} (h : d.ctl.arrive.out = b :: out) :
    inb kbdDataReg d = .ok b.byte { d with ctl := { d.ctl.arrive with out := out } } := by
  unfold inb
  dsimp only
  rw [if_neg (by decide), if_pos rfl, h]
  rfl

/-- No byte is at hand. -/
theorem Controller.status_empty {c : Controller} (h : c.out = []) :
    c.status &&& kbdStatOutb = 0 := by
  unfold Controller.status
  rw [h]
  show (c.other &&& ~~~kbdStatOutb) &&& kbdStatOutb = 0
  rw [UInt8.and_assoc, show ~~~kbdStatOutb &&& kbdStatOutb = 0 from rfl, UInt8.and_zero]

theorem and_or_right (x y z : UInt8) : (x ||| y) &&& z = (x &&& z) ||| (y &&& z) :=
  UInt8.toBitVec_inj.mp BitVec.and_or_distrib_right

/-- A byte is at hand, and it is known where it is from. -/
theorem Controller.status_next {c : Controller} {out : List KbByte} (h : c.out = b :: out) :
    c.status &&& kbdStatOutb ≠ 0 ∧ (c.status &&& kbdStatAuxb ≠ 0 ↔ b.aux = true) := by
  have hout : c.status = (c.other &&& ~~~kbdStatAuxb) |||
      (kbdStatOutb ||| if b.aux then kbdStatAuxb else 0) := by
    unfold Controller.status
    rw [h, ← UInt8.or_assoc]
  have hrest : (c.other &&& ~~~kbdStatAuxb) &&& kbdStatAuxb = 0 := by
    rw [UInt8.and_assoc, show ~~~kbdStatAuxb &&& kbdStatAuxb = 0 from rfl, UInt8.and_zero]
  constructor
  · intro hzero
    rw [hout, and_or_right, UInt8.or_eq_zero_iff] at hzero
    cases haux : b.aux with
    | false =>
      rw [haux] at hzero
      exact absurd hzero.2 (by decide)
    | true =>
      rw [haux] at hzero
      exact absurd hzero.2 (by decide)
  · rw [hout, and_or_right, hrest, UInt8.zero_or]
    cases b.aux with
    | false => decide
    | true => decide

/-- A byte of the controller is typed, if it is to be. -/
theorem handleByte_run {c : Controller} {out : List KbByte} (h : c.out = b :: out) (d : Desk) :
    handleByte c.status b.byte d = .ok () (d.type (typed [b])) := by
  obtain ⟨-, haux⟩ := Controller.status_next h
  unfold handleByte
  by_cases hb : b.aux = true
  · have hnone : typed [b] = [] := by simp [typed, KbByte.typed, hb]
    rw [if_pos (haux.mpr hb), hnone]
    rfl
  · rw [if_neg (mt haux.mp hb)]
    by_cases hlt : b.byte < 0x7f
    · have hsome : typed [b] = [translate b.byte] := by simp [typed, KbByte.typed, hb, hlt]
      rw [if_pos hlt, hsome]
      exact handleScancode_run b.byte d
    · have hnone : typed [b] = [] := by simp [typed, KbByte.typed, hb, hlt]
      rw [if_neg hlt, hnone]
      rfl

/-- The controller once the handler took `n` bytes: none is at hand, and two accesses a byte
were made. -/
def Controller.after (c : Controller) (n : Nat) : Controller :=
  { c with out := [], later := c.later.drop (2 * n) }

theorem flatten_take_succ {α : Type} (l : List (List α)) (n : Nat) :
    (l.take (n + 1)).flatten = l.head?.getD [] ++ (l.tail.take n).flatten := by
  cases l with
  | nil => simp
  | cons a l => simp

/-- The controller after a turn of the loop: a byte was taken, and two accesses were made. -/
def Controller.turned (c : Controller) : Controller :=
  Controller.arrive { c.arrive with out := c.arrive.out.tail }

/-- The loop is at its end. -/
theorem kbdHandlerLoop_done (h : d.ctl.out = []) :
    Act.Settles (fun t => kbdHandlerLoop t d.ctl.status) d () d := by
  refine ⟨1, fun t ht => ?_⟩
  obtain ⟨n, rfl⟩ := Nat.exists_eq_add_of_le' ht
  show kbdHandlerLoop (n + 1) d.ctl.status d = _
  rw [kbdHandlerLoop, if_neg (not_not.mpr (Controller.status_empty h))]
  rfl

/-- The loop has a turn to go. -/
theorem kbdHandlerLoop_turn {out : List KbByte} {u : Desk} (h : d.ctl.out = b :: out)
    (hrest : Act.Settles (fun t => kbdHandlerLoop t d.ctl.turned.status)
      (Desk.type { d with ctl := d.ctl.turned } (typed [b])) () u) :
    Act.Settles (fun t => kbdHandlerLoop t d.ctl.status) d () u := by
  obtain ⟨lower, hrest⟩ := hrest
  have hnext : d.ctl.arrive.out = b :: d.ctl.arrive.out.tail := by
    rw [Controller.arrive, h]
    rfl
  refine ⟨lower + 1, fun t ht => ?_⟩
  obtain ⟨n, rfl⟩ := Nat.exists_eq_add_of_le' (Nat.le_trans (Nat.le_add_left 1 lower) ht)
  show kbdHandlerLoop (n + 1) d.ctl.status d = _
  rw [kbdHandlerLoop, if_pos (Controller.status_next h).1, Act.bind_ok (inb_data hnext),
    Act.bind_ok (handleByte_run h _), Act.bind_ok (inb_status _)]
  exact hrest n (Nat.le_of_succ_le_succ ht)

theorem Controller.after_zero {c : Controller} (h : c.out = []) : c.after 0 = c := by
  obtain ⟨out, later, other⟩ := c
  rw [Controller.after, Nat.mul_zero, List.drop_zero, ← h]

/-- A byte more was taken. -/
theorem Controller.after_turned (c : Controller) (n : Nat) :
    c.turned.after n = c.after (n + 1) := by
  unfold Controller.after Controller.turned Controller.arrive
  dsimp only
  rw [List.drop_tail, List.drop_tail, Nat.mul_succ]

/-- What is at hand after a turn. -/
theorem Controller.turned_out {c : Controller} {out : List KbByte} (h : c.out = b :: out) :
    c.turned.out = out ++ (c.later.take 2).flatten := by
  unfold Controller.turned Controller.arrive
  dsimp only
  rw [h, flatten_take_succ, flatten_take_succ, List.cons_append, List.tail_cons, List.append_assoc,
    List.take_zero, List.flatten_nil, List.append_nil]

theorem Controller.turned_later (c : Controller) : c.turned.later = c.later.drop 2 := by
  show c.later.tail.tail = _
  rw [← List.drop_one, ← List.drop_one, List.drop_drop]

/-- LOOP: the bytes at hand and those that come meanwhile are taken, one after the other. -/
theorem kbdHandlerLoop_settles (d : Desk) : ∃ bs,
    Act.Settles (fun t => kbdHandlerLoop t d.ctl.status) d ()
      (Desk.type { d with ctl := d.ctl.after bs.length } (typed bs)) ∧
    bs = d.ctl.out ++ (d.ctl.later.take (2 * bs.length)).flatten := by
  -- on how many bytes there are, at hand or to come
  induction hn : d.ctl.out.length + d.ctl.later.flatten.length generalizing d with
  | zero =>
    have hout : d.ctl.out = [] := List.eq_nil_of_length_eq_zero (by omega)
    refine ⟨[], ?_, by rw [hout]; rfl⟩
    rw [List.length_nil, Controller.after_zero hout]
    exact kbdHandlerLoop_done hout
  | succ n ih =>
    rcases hout : d.ctl.out with - | ⟨b, out⟩
    · refine ⟨[], ?_, rfl⟩
      rw [List.length_nil, Controller.after_zero hout]
      exact kbdHandlerLoop_done hout
    · have hless : d.ctl.turned.out.length + d.ctl.turned.later.flatten.length = n := by
        have hall := congrArg (fun l => l.flatten.length) (List.take_append_drop 2 d.ctl.later)
        rw [List.flatten_append, List.length_append] at hall
        rw [hout, List.length_cons] at hn
        rw [Controller.turned_out hout, Controller.turned_later, List.length_append]
        omega
      obtain ⟨bs, hsettles, hbs⟩ := ih (Desk.type { d with ctl := d.ctl.turned } (typed [b])) hless
      refine ⟨b :: bs, kbdHandlerLoop_turn hout ?_, ?_⟩
      · have htyped : typed (b :: bs) = typed [b] ++ typed bs := typed_append [b] bs
        rw [htyped, Desk.type_append, List.length_cons, ← Controller.after_turned]
        exact hsettles
      · have htaken : bs = d.ctl.turned.out ++ (d.ctl.turned.later.take (2 * bs.length)).flatten :=
          hbs
        rw [Controller.turned_out hout, Controller.turned_later] at htaken
        rw [List.length_cons, Nat.mul_succ, Nat.add_comm, List.take_add, List.flatten_append,
          List.cons_append, ← List.append_assoc, ← htaken]

/-- INTERRUPT: `kbd_handler` ends, whatever comes while it is at work. It takes what was at
hand and what came meanwhile, and nothing is at hand then; each key that was pressed is
typed once, in the order of arrival. -/
theorem kbdHandlerPorts_settles (d : Desk) : ∃ bs,
    Act.Settles kbdHandlerPorts d ()
      (Desk.type { d with ctl := d.ctl.arrive.after bs.length } (typed bs)) ∧
    bs = d.ctl.out ++ (d.ctl.later.take (2 * bs.length + 1)).flatten := by
  obtain ⟨bs, hsettles, hbs⟩ := kbdHandlerLoop_settles { d with ctl := d.ctl.arrive }
  refine ⟨bs, Act.Settles.bind (Act.Settles.of_ok (inb_status d)) hsettles, ?_⟩
  rw [flatten_take_succ, ← List.append_assoc]
  exact hbs

/-- What is typed is what is unread, behind what was, if there is room for it. -/
theorem typeInto_pending {k : Kbs} (h : k.Inside) : (typeInto k data).Inside ∧
    (k.unread + data.length < kbBufSize → (typeInto k data).pending = k.pending ++ data) := by
  induction data generalizing k with
  | nil => exact ⟨h, fun _ => (List.append_nil _).symm⟩
  | cons b data ih =>
    obtain ⟨hinside, hpending⟩ := ih (h.step (.add b))
    refine ⟨hinside, fun hroom => ?_⟩
    rw [List.length_cons] at hroom
    have hadd : (addKbdata b k).pending = k.pending ++ [b] := Kbs.pending_add h (by omega)
    have hunread : (addKbdata b k).unread = k.unread + 1 := by
      rw [← Kbs.pending_length, hadd, List.length_append, Kbs.pending_length]
      rfl
    have hrest : (typeInto (addKbdata b k) data).pending = (addKbdata b k).pending ++ data :=
      hpending (by
        show (addKbdata b k).unread + data.length < kbBufSize
        omega)
    rw [hadd, List.append_assoc] at hrest
    exact hrest

/-- What is displayed is what the terminal shows. -/
theorem echo_shows {v : Int → UInt8} {s : Console} {u : Terminal} (h : Shows v s u) :
    Shows v (echo s data) ((printable data).foldl (fun u b => u.put b.toNat) u) := by
  unfold echo
  induction printable data generalizing s u with
  | nil => exact h
  | cons b bs ih => exact ih (h.put b.toNat)

/-- KEYS: `kbd_handler` ends, whatever comes while it is at work, with nothing at hand. The
keys that were pressed come to be unread, in the order of arrival and each once, if the
buffer has room, and the terminal shows those that have a character. -/
theorem kbd_handler_takes (d : Desk) {v : Int → UInt8} {u : Terminal} (hin : d.kbs.Inside)
    (hshows : Shows v d.screen u) : ∃ bs d', Act.Settles kbdHandlerPorts d () d' ∧
      bs = d.ctl.out ++ (d.ctl.later.take (2 * bs.length + 1)).flatten ∧
      d'.ctl.out = [] ∧ d'.ctl.later = d.ctl.later.drop (2 * bs.length + 1) ∧ d'.kbs.Inside ∧
      (d.kbs.unread + (typed bs).length < kbBufSize → d'.kbs.pending = d.kbs.pending ++ typed bs) ∧
      Shows v d'.screen ((printable (typed bs)).foldl (fun u b => u.put b.toNat) u) := by
  obtain ⟨bs, hsettles, hbs⟩ := kbdHandlerPorts_settles d
  have hqueue : (typeInto d.kbs (typed bs)).Inside ∧ _ := typeInto_pending hin
  refine ⟨bs, _, hsettles, hbs, rfl, ?_, hqueue.1, hqueue.2, echo_shows hshows⟩
  show d.ctl.later.tail.drop (2 * bs.length) = _
  rw [List.drop_tail]

end Run

/-- A key is at hand, and a byte of the auxiliary device and another key come. -/
def sampleDesk : Desk where
  ctl := ⟨[⟨false, 0x1e⟩], [[⟨true, 7⟩], [⟨false, 0x30⟩]], 0⟩
  kbs := ⟨fun _ => 0, 0, 0⟩
  screen := initVga ⟨fun _ => 0, 0, 0⟩

theorem kbd_handler_takes_sample : ∃ bs d', Act.Settles kbdHandlerPorts sampleDesk () d' ∧
    bs = sampleDesk.ctl.out ++ (sampleDesk.ctl.later.take (2 * bs.length + 1)).flatten ∧
    d'.ctl.out = [] ∧ d'.ctl.later = sampleDesk.ctl.later.drop (2 * bs.length + 1) ∧
    d'.kbs.Inside ∧
    (sampleDesk.kbs.unread + (typed bs).length < kbBufSize →
      d'.kbs.pending = sampleDesk.kbs.pending ++ typed bs) ∧
    Shows (fun _ => 0) d'.screen
      ((printable (typed bs)).foldl (fun u b => u.put b.toNat) Terminal.blank) :=
  kbd_handler_takes sampleDesk (initKbdata_inside ⟨fun _ => 0, 0, 0⟩)
    (initVga_shows ⟨fun _ => 0, 0, 0⟩)

end Myos.Kernel.Scancodes
