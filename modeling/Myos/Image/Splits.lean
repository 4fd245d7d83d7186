import Myos.Image.Format

/-!
# How a file is read

`write_file` stores a file that is read in whole blocks. Of the ways to split the same
bytes that is the only one that works: once the size is not a multiple of a block, the
loop counts on from the position in the block but compares with the count of bytes
read, and comes to copy nought bytes for ever, or less than nought.
-/

namespace Myos.Image

open Myos.Lib
open Myos.Kernel (blkSize diSizeOff)

section Stuck

variable {m m' : Mem} {ino : Fin inodes} {data buf : List UInt8}

/-- From a position inside a block the loop does not come to its end. -/
theorem writeLoop_stuck {pino offset : Nat} (hoff : 0 < offset) (hlen : buf.length ≤ blkSize)
    {t i pos : Nat} {d : Option Nat} {o : Int × Option Nat} (hi : i < buf.length + offset)
    (hrun : writeLoop pino buf offset t i pos d m = .ok o m') : o.1 < 0 := by
  induction t generalizing i pos d m with
  | zero => cases hrun
  | succ t ih =>
    have hbn : (if (blkSize : Int) - i < buf.length - i then (blkSize : Int) - i
        else buf.length - i) = buf.length - i := if_neg (by omega)
    rw [writeLoop, if_pos hi] at hrun
    simp only [hbn] at hrun
    obtain ⟨_, _, -, hrun⟩ := Act.bind_eq_ok.mp hrun
    obtain ⟨w, _, -, hrun⟩ := Act.bind_eq_ok.mp hrun
    -- the copy is of the bytes up to the count, which is behind or at the end of the block
    have hcopy : ∀ bno m, (if (buf.length : Int) - i < 0 then Act.stop
        else do
          copyIn (bno * blkSize + i % blkSize) ((buf.length : Int) - i).toNat
            fun k => buf.getD (pos + k) 0
          let size ← load 4 (pino + diSizeOff)
          store 4 (pino + diSizeOff) (size + ((buf.length : Int) - i).toNat)
          writeLoop pino buf offset t (i + ((buf.length : Int) - i).toNat)
            (pos + ((buf.length : Int) - i).toNat) w.2) m = .ok o m' → o.1 < 0 := by
      intro bno m hrun
      split at hrun
      · cases hrun
      · obtain ⟨_, _, -, hrun⟩ := Act.bind_eq_ok.mp hrun
        obtain ⟨_, _, -, hrun⟩ := Act.bind_eq_ok.mp hrun
        obtain ⟨_, _, -, hrun⟩ := Act.bind_eq_ok.mp hrun
        exact ih (by omega) hrun
    split at hrun
    · cases hrun
      exact Int.negSucc_lt_zero 0
    · obtain ⟨_, _, -, hrun⟩ := Act.bind_eq_ok.mp hrun
      obtain ⟨_, _, -, hrun⟩ := Act.bind_eq_ok.mp hrun
      split at hrun
      · obtain ⟨_, _, -, hrun⟩ := Act.bind_eq_ok.mp hrun
        split at hrun
        · cases hrun
          exact Int.negSucc_lt_zero 0
        · obtain ⟨_, _, -, hrun⟩ := Act.bind_eq_ok.mp hrun
          obtain ⟨_, _, -, hrun⟩ := Act.bind_eq_ok.mp hrun
          exact hcopy _ _ hrun
      · exact hcopy _ _ hrun

/-- A file of which a read that is not the last one is short is not stored. -/
theorem writeChunks_short (t : Nat) {chunks : List (List UInt8)} {d : Option Nat} {r : Int}
    (hne : ∀ c ∈ chunks, c ≠ []) (hfit : ∀ c ∈ chunks, c.length ≤ blkSize)
    (hshort : ¬ ∀ c ∈ chunks.dropLast, c.length = blkSize) (hm : Sane m)
    (h : Written m ino data) (hdiv : blkSize ∣ data.length)
    (hlen : (data ++ chunks.flatten).length ≤ fileBlocks * blkSize)
    (hrun : writeChunks (t + 2) (inode ino) chunks d m = .ok r m') : r = -1 := by
  induction chunks generalizing d m data with
  | nil => exact absurd (fun c hc => by cases hc) hshort
  | cons buf rest ih =>
    have hrest : rest ≠ [] := fun he => hshort fun c hc => by
      rw [he] at hc
      cases hc
    rw [List.dropLast_cons_of_ne_nil hrest, List.forall_mem_cons] at hshort
    rw [List.flatten_cons, List.length_append, List.length_append] at hlen
    have hpos : 0 < buf.length := List.length_pos_iff.mpr (hne buf List.mem_cons_self)
    obtain ⟨r₁, d₁, m₁, hturn, hm₁, -, hcase⟩ := writeTurn (d := d) (t := t) hm h hdiv (by omega)
      (hne buf List.mem_cons_self) (hfit buf List.mem_cons_self)
    obtain ⟨_, _, hsize, hloop⟩ := Act.bind_eq_ok.mp hturn
    rw [writeChunks, Act.bind_ok hsize] at hrun
    simp only [] at hrun
    rw [Act.bind_ok hloop] at hrun
    split at hcase
    · obtain ⟨rfl, hw, -⟩ := hcase
      simp only [Int.lt_irrefl, if_false] at hrun
      have hfit' : ∀ c ∈ rest, c.length ≤ blkSize := fun c hc => hfit c (List.mem_cons_of_mem _ hc)
      by_cases hfull : buf.length = blkSize
      · refine ih (fun c hc => hne c (List.mem_cons_of_mem _ hc)) hfit'
          (fun hall => hshort ⟨hfull, hall⟩) hm₁ hw ?_ ?_ hrun
        · rw [List.length_append, hfull]
          exact Nat.dvd_add hdiv (Nat.dvd_refl _)
        · rw [List.length_append, List.length_append]
          omega
      · -- the read was short, and the next one does not get on
        obtain ⟨buf', rest', rfl⟩ := List.exists_cons_of_ne_nil hrest
        have hle := hfit buf List.mem_cons_self
        have hoff : 0 < fileSize m₁ ino % blkSize := by
          obtain ⟨K, hK⟩ := hdiv
          rw [hw.size, List.length_append, hK, Nat.mul_add_mod, Nat.mod_eq_of_lt (by omega)]
          exact hpos
        rw [writeChunks, Act.bind_ok load_size] at hrun
        obtain ⟨⟨r', d'⟩, m₂, hloop', hrun⟩ := Act.bind_eq_ok.mp hrun
        have hneg := writeLoop_stuck hoff (hfit' buf' List.mem_cons_self) (by
          have := List.length_pos_iff.mpr (hne buf' (List.mem_cons_of_mem _ List.mem_cons_self))
          omega) hloop'
        simp only [hneg, if_true] at hrun
        cases hrun
        rfl
    · obtain ⟨rfl, -⟩ := hcase
      cases hrun
      rfl

end Stuck

/-! ## The claim of `write_file` -/

/-- There is one way to read a file in whole blocks. -/
theorem whole_unique {xs ys : List (List UInt8)} (hx : ∀ c ∈ xs, c ≠ []) (hy : ∀ c ∈ ys, c ≠ [])
    (hx' : ∀ c ∈ xs, c.length ≤ blkSize) (hy' : ∀ c ∈ ys, c.length ≤ blkSize)
    (hxw : ∀ c ∈ xs.dropLast, c.length = blkSize) (hyw : ∀ c ∈ ys.dropLast, c.length = blkSize)
    (h : xs.flatten = ys.flatten) : xs = ys := by
  have hempty : ∀ zs : List (List UInt8), (∀ c ∈ zs, c ≠ []) → zs.flatten = [] → zs = [] := by
    intro zs hz hflat
    cases zs with
    | nil => rfl
    | cons z zs =>
      rw [List.flatten_cons] at hflat
      exact absurd (List.append_eq_nil_iff.mp hflat).1 (hz z List.mem_cons_self)
  -- the first reads are as long as each other
  have hfirst : ∀ (z z' : List UInt8) (zs zs' : List (List UInt8)), z.length ≤ blkSize →
      (∀ c ∈ zs, c ≠ []) → (∀ c ∈ (z' :: zs').dropLast, c.length = blkSize) →
      z ++ zs.flatten = z' ++ zs'.flatten → z.length ≤ z'.length := by
    intro z z' zs zs' hle hz hw heq
    cases zs' with
    | nil =>
      have hlen := congrArg List.length heq
      rw [List.flatten_nil, List.append_nil, List.length_append] at hlen
      omega
    | cons w ws =>
      rw [hw z' (by rw [List.dropLast_cons_of_ne_nil (List.cons_ne_nil _ _)]; exact List.mem_cons_self)]
      exact hle
  induction xs generalizing ys with
  | nil => exact (hempty ys hy h.symm).symm
  | cons x xs ih =>
    cases ys with
    | nil => exact hempty _ hx h
    | cons y ys =>
      rw [List.flatten_cons, List.flatten_cons] at h
      have hlen : x.length = y.length := Nat.le_antisymm
        (hfirst x y xs ys (hx' x List.mem_cons_self) (fun c hc => hx c (List.mem_cons_of_mem _ hc))
          hyw h)
        (hfirst y x ys xs (hy' y List.mem_cons_self) (fun c hc => hy c (List.mem_cons_of_mem _ hc))
          hxw h.symm)
      obtain ⟨rfl, hrest⟩ := List.append_inj h hlen
      have htail : ∀ {z : List UInt8} {zs : List (List UInt8)},
          (∀ c ∈ (z :: zs).dropLast, c.length = blkSize) → ∀ c ∈ zs.dropLast, c.length = blkSize := by
        intro z zs hw c hc
        have hne : zs ≠ [] := fun he => by
          rw [he] at hc
          cases hc
        refine hw c ?_
        rw [List.dropLast_cons_of_ne_nil hne]
        exact List.mem_cons_of_mem _ hc
      rw [ih (fun c hc => hx c (List.mem_cons_of_mem _ hc))
        (fun c hc => hy c (List.mem_cons_of_mem _ hc))
        (fun c hc => hx' c (List.mem_cons_of_mem _ hc))
        (fun c hc => hy' c (List.mem_cons_of_mem _ hc)) (htail hxw) (htail hyw) hrest]

section Claim

variable {m : Mem} {ino : Fin inodes}

/-- `write_file` comes to its end, the inode has the size and the bytes of the file, and the
image is the one that reads of whole blocks would have made. -/
def StoredAs (m : Mem) (ino : Fin inodes) (file : Reads) : Prop :=
  ∃ turns m', writeFile turns (some file) (inode ino) m = .ok 0 m' ∧ Stores m' ino file.bytes ∧
    ∀ file' : Reads, file'.Whole → file'.bytes = file.bytes →
      writeFile turns (some file') (inode ino) m = .ok 0 m'

/-- A file is stored in a fresh inode just if it is read in whole blocks and there are as many
free blocks as it needs. -/
theorem write_file_chunks (hm : Sane m) (hfresh : Fresh m ino) (file : Reads)
    (hlen : file.bytes.length ≤ fileBlocks * blkSize) :
    StoredAs m ino file ↔ file.Whole ∧ cost file.bytes.length ≤ freeBlocks m := by
  have hrun := fun hw => writeChunks_run (d := none) 0 file.nonempty file.fits hw hm
    hfresh.written (fun _ => Nat.dvd_zero _) (by rwa [List.nil_append])
  have hzero : cost ([] : List UInt8).length = 0 := by decide
  constructor
  · rintro ⟨turns, m', hok, -, -⟩
    have hok' := writeFile_more (some file) (inode ino) (Nat.le_max_left turns 2) m 0 m' hok
    obtain ⟨t, ht⟩ := Nat.exists_eq_add_of_le' (Nat.le_max_right turns 2)
    rw [ht] at hok'
    have hwhole : file.Whole := by
      by_contra hshort
      have hneg := writeChunks_short t file.nonempty file.fits hshort hm hfresh.written
        (Nat.dvd_zero _) (by rwa [List.nil_append]) hok'
      exact absurd hneg (by decide)
    refine ⟨hwhole, ?_⟩
    obtain ⟨r, m'', hrun', -, -, hcase⟩ := writeChunks_run (d := none) t file.nonempty file.fits
      hwhole hm hfresh.written (fun _ => Nat.dvd_zero _) (by rwa [List.nil_append])
    by_contra hcost
    rw [List.nil_append, hzero, Nat.add_zero,
      if_neg (show ¬ cost file.chunks.flatten.length ≤ _ from hcost)] at hcase
    have heq := hrun'.symm.trans hok'
    rw [hcase.1] at heq
    cases heq
  · rintro ⟨hwhole, hcost⟩
    obtain ⟨r, m', hok, -, -, hcase⟩ := hrun hwhole
    rw [List.nil_append, hzero, Nat.add_zero,
      if_pos (show cost file.chunks.flatten.length ≤ _ from hcost)] at hcase
    obtain ⟨rfl, hw⟩ := hcase
    refine ⟨2, m', hok, hw.toStores, fun file' hwhole' hbytes => ?_⟩
    have hsame : file'.chunks = file.chunks := whole_unique file'.nonempty file.nonempty file'.fits
      file.fits hwhole' hwhole hbytes
    show writeChunks 2 (inode ino) file'.chunks none m = _
    rw [hsame]
    exact hok

end Claim

/-- A file of two bytes, read at once. -/
def sampleWhole : Reads := ⟨[[1, 2]], by decide, by decide⟩

/-- The same file, read byte by byte. -/
def sampleBytes : Reads := ⟨[[1], [2]], by decide, by decide⟩

theorem write_file_chunks_one : StoredAs (formatted blank) firstIno sampleWhole :=
  (write_file_chunks blank_sane (blank_fresh firstIno) sampleWhole (by decide)).mpr
    ⟨by unfold Reads.Whole; decide, by rw [blank_freeBlocks]; decide⟩

/-- Two bytes that are read one by one are not stored. -/
theorem write_file_chunks_two : ¬ ∀ (m : Mem) (ino : Fin inodes) (file : Reads), Sane m →
    Fresh m ino → file.bytes.length ≤ fileBlocks * blkSize → StoredAs m ino file := by
  intro h
  obtain ⟨turns, m', hok, -, -⟩ := h (formatted blank) firstIno sampleBytes blank_sane (blank_fresh firstIno)
    (by decide)
  have hok' := writeFile_more (some sampleBytes) (inode firstIno) (Nat.le_max_left turns 2) _ 0 m' hok
  obtain ⟨t, ht⟩ := Nat.exists_eq_add_of_le' (Nat.le_max_right turns 2)
  rw [ht] at hok'
  have hneg := @writeChunks_short _ _ firstIno _ t _ _ _ sampleBytes.nonempty sampleBytes.fits
    (by decide) blank_sane (blank_fresh firstIno).written (Nat.dvd_zero _) (by decide) hok'
  exact absurd hneg (by decide)

end Myos.Image
