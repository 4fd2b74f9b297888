import GzOS.CTypes
import GzOS.Runs
import Mathlib.Tactic

/-!
# Descriptors of a file in the temporary file system

The descriptors of one file share its vector and have an offset each. `seek` compares
the new offset to the address of the vector and to that address added to its end, so
what it accepts depends on where the vector lies. `write` inserts at the end of the
vector and moves the offset as if it had written there.
-/
namespace GzOS.TmpfsFile
open Runs List Function Option

/-- In kernel memory and not longer than `max_size`. -/
def Located (base : BitVec 32) (n : ℕ) : Prop :=
  2 ^ 31 ≤ base.toNat ∧ base.toNat + n ≤ 2 ^ 32 ∧ n < 2 ^ 31

instance (base : BitVec 32) (n : ℕ) : Decidable (Located base n) :=
  inferInstanceAs (Decidable (_ ∧ _ ∧ _))

structure State where
  data : List Byte
  base : BitVec 32
  offset : ℕ → BitVec 32
  located : Located base data.length

namespace State

variable (s : State) (d : ℕ)

def size : BitVec 32 := BitVec.ofNat 32 s.data.length

def sizeLeft : BitVec 32 := s.size - s.offset d

def setOffset (offset : BitVec 32) : State :=
  { s with offset := update s.offset d offset }

def readLength (size : BitVec 32) : ℕ := min size.toNat (s.sizeLeft d).toNat

/-- The memory of the kernel, with the vector in it. -/
def byteAt (memory : BitVec 32 → Byte) (address : BitVec 32) : Byte :=
  s.data.getD (address - s.base).toNat (memory address)

/-- The bytes that a read copies. -/
def readBytes (memory : BitVec 32 → Byte) (size : BitVec 32) : List Byte :=
  (range (s.readLength d size)).map fun i =>
    s.byteAt memory (s.base + s.offset d + BitVec.ofNat 32 i)

def read (size : BitVec 32) : State :=
  s.setOffset d (s.offset d + BitVec.ofNat 32 (s.readLength d size))

/-- Insert at the end. The vector may move, if there is a place. -/
def write (bytes : List Byte) (base : BitVec 32) : Option State :=
  if h : Located base (s.data ++ bytes).length then
    some { data := s.data ++ bytes
           base := base
           offset := update s.offset d (s.offset d + BitVec.ofNat 32 bytes.length)
           located := h }
  else none

end State

def pointerIsInRange (ptr start length : BitVec 32) : Bool :=
  start.sle ptr && ptr.slt (start + length)

namespace State

variable (s : State) (d : ℕ)

def seekTarget (position : BitVec 32) : Whence → Option (BitVec 32)
  | .seekSet => some position
  | .seekCur => some (s.offset d + position)
  | .seekEnd => some (s.size - position)
  | .other => none

/-- The test that `seek` makes. -/
def accepts (target : BitVec 32) : Bool := pointerIsInRange target s.base (s.base + s.size)

/-- The new state and the returned value. -/
def seek (position : BitVec 32) (whence : Whence) : State × BitVec 32 :=
  match (s.seekTarget d position whence).filter s.accepts with
  | some target => (s.setOffset d target, target)
  | none => (s, -1)

end State

inductive Event
  | read (d : ℕ) (size : BitVec 32)
  | write (d : ℕ) (bytes : List Byte) (base : BitVec 32)
  | seek (d : ℕ) (position : BitVec 32) (whence : Whence)

def step (s : State) : Event → Option State
  | .read d size => some (s.read d size)
  | .write d bytes base => s.write d bytes base
  | .seek d position whence => some (s.seek d position whence).1

/-- The file with all descriptors just opened. -/
def State.opened (data : List Byte) (base : BitVec 32) (h : Located base data.length) : State :=
  { data := data, base := base, offset := fun _ => 0, located := h }

/-- An offset between 0 and the size of the file. -/
def State.Inside (s : State) (offset : BitVec 32) : Prop :=
  0 ≤ offset.toInt ∧ offset.toInt ≤ s.data.length

/-- Only bytes of the file are copied, those at the offset. -/
def State.ReadsFile (s : State) (d : ℕ) (size : BitVec 32) : Prop :=
  (∀ i < s.readLength d size, ∃ j < s.data.length,
    s.base + s.offset d + BitVec.ofNat 32 i = s.base + BitVec.ofNat 32 j) ∧
  ∀ memory, s.readBytes d memory size = (s.data.drop (s.offset d).toNat).take size.toNat

/-- All offsets are in the file, and reads give its bytes. -/
def Bounded (s : State) : Prop :=
  ∀ d, s.Inside (s.offset d) ∧ ∀ size, s.ReadsFile d size

/-- What a seek accepts is an offset in the file. -/
def SeeksInside (s : State) : Event → Prop
  | .seek d position whence =>
    ∀ target ∈ (s.seekTarget d position whence).filter s.accepts, s.Inside target
  | _ => True

variable {s s' : State} {d : ℕ}

lemma inside_iff {offset : BitVec 32} : s.Inside offset ↔ offset.toNat ≤ s.data.length := by
  have hlen := s.located.2.2
  rw [State.Inside, BitVec.toInt_eq_toNat_cond]
  split_ifs <;> omega

lemma toNat_size : s.size.toNat = s.data.length := by
  have hlen := s.located.2.2
  rw [State.size, BitVec.toNat_ofNat]
  omega

lemma readLength_eq (h : (s.offset d).toNat ≤ s.data.length) (size : BitVec 32) :
    s.readLength d size = min size.toNat (s.data.length - (s.offset d).toNat) := by
  have hle : s.offset d ≤ s.size := by
    rw [BitVec.le_def, toNat_size]
    exact h
  rw [State.readLength, State.sizeLeft, BitVec.toNat_sub_of_le hle, toNat_size]

lemma byteAt_index {j : ℕ} (hj : j < s.data.length) (memory : BitVec 32 → Byte) :
    s.byteAt memory (s.base + BitVec.ofNat 32 j) = s.data[j] := by
  have hlen := s.located.2.2
  have hsub : s.base + BitVec.ofNat 32 j - s.base = BitVec.ofNat 32 j := by
    rw [BitVec.add_comm, BitVec.add_sub_cancel]
  have hindex : (BitVec.ofNat 32 j).toNat = j := by
    rw [BitVec.toNat_ofNat]
    omega
  rw [State.byteAt, hsub, hindex, getD_eq_getElem?_getD, getElem?_eq_getElem hj,
    getD_some]

lemma readsFile_of_inside (h : (s.offset d).toNat ≤ s.data.length) (size : BitVec 32) :
    s.ReadsFile d size := by
  have hread := readLength_eq h size
  have hindex (i : ℕ) :
      s.base + s.offset d + BitVec.ofNat 32 i =
        s.base + BitVec.ofNat 32 ((s.offset d).toNat + i) := by
    rw [BitVec.add_assoc, BitVec.ofNat_add, BitVec.ofNat_toNat, BitVec.setWidth_eq]
  refine ⟨fun i hi => ⟨(s.offset d).toNat + i, by omega, hindex i⟩, fun memory => ?_⟩
  apply ext_getElem
  · simp [State.readBytes, hread]
  intro i hi _
  have hi' : i < s.readLength d size := by simpa [State.readBytes] using hi
  have hj : (s.offset d).toNat + i < s.data.length := by omega
  simp only [State.readBytes, getElem_map, getElem_range]
  rw [hindex i, byteAt_index hj]
  simp

lemma bounded_iff : Bounded s ↔ ∀ d, (s.offset d).toNat ≤ s.data.length := by
  refine forall_congr' fun d => ?_
  rw [inside_iff]
  exact and_iff_left_of_imp fun h size => readsFile_of_inside h size

lemma bounded_setOffset (h : Bounded s) {offset : BitVec 32} :
    Bounded (s.setOffset d offset) ↔ offset.toNat ≤ s.data.length := by
  rw [bounded_iff] at h ⊢
  refine ⟨fun hb => by simpa [State.setOffset] using hb d, fun ho e => ?_⟩
  by_cases he : e = d
  · simpa [State.setOffset, he] using ho
  · simpa [State.setOffset, he] using h e

lemma write_some {bytes : List Byte} {base : BitVec 32} (hs : s.write d bytes base = some s') :
    s'.data = s.data ++ bytes ∧
      s'.offset = update s.offset d (s.offset d + BitVec.ofNat 32 bytes.length) := by
  rw [State.write] at hs
  split_ifs at hs
  cases hs
  exact ⟨rfl, rfl⟩

lemma write_offset {bytes : List Byte} {base : BitVec 32} (hs : s.write d bytes base = some s')
    (h : (s.offset d).toNat ≤ s.data.length) :
    (s'.offset d).toNat = (s.offset d).toNat + bytes.length := by
  obtain ⟨hdata, hoffset⟩ := write_some hs
  have hlen := s'.located.2.2
  rw [hdata, length_append] at hlen
  rw [hoffset, update_self, BitVec.toNat_add, BitVec.toNat_ofNat]
  omega

lemma bounded_write (h : Bounded s) {bytes : List Byte} {base : BitVec 32}
    (hs : s.write d bytes base = some s') : Bounded s' := by
  rw [bounded_iff] at h ⊢
  intro e
  obtain ⟨hdata, hoffset⟩ := write_some hs
  rw [hdata, length_append]
  by_cases hed : e = d
  · rw [hed, write_offset hs (h d)]
    exact Nat.add_le_add_right (h d) _
  · rw [hoffset, update_of_ne hed]
    exact (h e).trans (Nat.le_add_right _ _)

lemma bounded_step {e : Event} (h : Bounded s) (hs : step s e = some s') :
    (SeeksInside s e → Bounded s') ∧ (Bounded s' → SeeksInside s e) := by
  cases e with
  | read d size =>
    cases hs
    refine ⟨fun _ => (bounded_setOffset h).2 ?_, fun _ => trivial⟩
    have hd := bounded_iff.1 h d
    rw [readLength_eq hd, BitVec.toNat_add, BitVec.toNat_ofNat]
    omega
  | write d bytes base => exact ⟨fun _ => bounded_write h hs, fun _ => trivial⟩
  | seek d position whence =>
    cases hs
    rw [SeeksInside, State.seek]
    cases hf : (s.seekTarget d position whence).filter s.accepts with
    | none => exact ⟨fun _ => h, fun _ _ hc => absurd hc (not_mem_none _)⟩
    | some target =>
      simp [bounded_setOffset h, ← inside_iff]

/-- In every run of reads, writes and seeks on the descriptors of a file, the offsets
stay in the file and the reads read the bytes of the file at their offset, exactly
if every seek that is accepted is to an offset in the file. -/
theorem tmpfs_bounded_iff {data : List Byte} {base : BitVec 32} (h : Located base data.length)
    (events : List Event) {u : State} (hrun : exec step (.opened data base h) events = some u) :
    Always step Bounded (.opened data base h) events ↔
      Meets step SeeksInside (.opened data base h) events := by
  have hstart : Bounded (.opened data base h) := bounded_iff.2 fun _ => Nat.zero_le _
  exact always_iff_meets (fun _ => id) (fun _ _ _ hb hs => bounded_step hb hs) hstart hrun

lemma located_kseg0 : Located 0x80100000 1 := by decide

/-- A file of one byte. -/
def oneByte : State := .opened [7] 0x80100000 located_kseg0

instance (s : State) (offset : BitVec 32) : Decidable (s.Inside offset) :=
  inferInstanceAs (Decidable (_ ∧ _))

lemma seeksInside_sample : SeeksInside oneByte (.seek 0 1 .seekSet) := by
  intro target htarget
  obtain ⟨hmem, -⟩ := mem_filter_iff.1 htarget
  obtain rfl : 1 = target := some.inj hmem
  exact inside_iff.2 (by decide)

theorem tmpfs_bounded_iff_sample : Always step Bounded oneByte
    [.seek 0 1 .seekSet, .write 1 [8] 0x80200000, .read 0 4] := by
  refine (tmpfs_bounded_iff located_kseg0 _ rfl).2 ?_
  refine meets_cons.2 ⟨seeksInside_sample, fun _ _ => ?_⟩
  exact meets_cons.2 ⟨trivial, fun _ _ => meets_singleton.2 trivial⟩

/-- A seek to offset 100 of the file is accepted. -/
theorem seek_leaves_file :
    (oneByte.seek 0 100 .seekSet).2 = 100 ∧ ¬ Bounded (oneByte.seek 0 100 .seekSet).1 := by
  refine ⟨by decide, fun h => ?_⟩
  exact absurd (bounded_iff.1 h 0) (by decide)

/-! Writes. -/

/-- The bytes are read back; the file keeps all others. -/
structure WritesAt (s s' : State) (d : ℕ) (bytes : List Byte) : Prop where
  readBack : ∀ memory, (s'.seek d (s.offset d) .seekSet).1.readBytes d memory
    (BitVec.ofNat 32 bytes.length) = bytes
  before : s'.data.take (s.offset d).toNat = s.data.take (s.offset d).toNat
  after : s'.data.drop ((s.offset d).toNat + bytes.length) =
    s.data.drop ((s.offset d).toNat + bytes.length)
  size : s'.data.length = max s.data.length ((s.offset d).toNat + bytes.length)

lemma readBytes_seek (h : (s.offset d).toNat ≤ s.data.length) (offset : BitVec 32)
    (hin : offset.toNat ≤ s.data.length) (size : BitVec 32) (memory : BitVec 32 → Byte) :
    (s.seek d offset .seekSet).1.readBytes d memory size =
      (s.data.drop (if s.accepts offset then offset else s.offset d).toNat).take size.toNat := by
  simp only [State.seek, State.seekTarget]
  split_ifs with ha
  · have hset : ((s.setOffset d offset).offset d).toNat ≤ s.data.length := by
      simpa [State.setOffset] using hin
    rw [filter_some_pos ha, (readsFile_of_inside hset size).2 memory]
    simp [State.setOffset]
  · rw [filter_some_neg (Bool.eq_false_iff.2 ha), (readsFile_of_inside h size).2 memory]

/-- A write from an offset in the file puts its bytes at that offset, where they can
be read back, exactly if it has none or the offset is the end of the file and `seek`
accepts it in the place the vector has then. -/
theorem tmpfs_write_iff (d : ℕ) (h : s.Inside (s.offset d)) (bytes : List Byte)
    (base : BitVec 32) (hs : s.write d bytes base = some s') :
    WritesAt s s' d bytes ↔
      bytes = [] ∨ ((s.offset d).toNat = s.data.length ∧ s'.accepts (s.offset d) = true) := by
  rw [inside_iff] at h
  obtain ⟨hdata, -⟩ := write_some hs
  have hoffset := write_offset hs h
  have hlen : s'.data.length = s.data.length + bytes.length := by simp [hdata]
  have hread := readBytes_seek (s := s') (d := d) (by omega) (s.offset d) (by omega)
    (BitVec.ofNat 32 bytes.length)
  have hsize : (BitVec.ofNat 32 bytes.length).toNat = bytes.length := by
    rw [BitVec.toNat_ofNat]
    omega
  rw [hsize] at hread
  constructor
  · intro hw
    refine or_iff_not_imp_left.2 fun hne => ?_
    have hpos := length_pos_iff.2 hne
    have hend : (s.offset d).toNat = s.data.length := by
      have := hw.size
      omega
    refine ⟨hend, ?_⟩
    -- otherwise the offset stays behind the bytes and nothing is left to read
    by_contra hno
    have hback := (hread fun _ => 0).symm.trans (hw.readBack _)
    rw [if_neg hno, drop_eq_nil_of_le (by omega), take_nil] at hback
    exact hne hback.symm
  · rintro (rfl | ⟨hend, hacc⟩)
    · refine ⟨fun memory => ?_, ?_, ?_, ?_⟩
      · rw [hread memory, length_nil, take_zero]
      · simp [hdata]
      · simp [hdata]
      · simp [hdata, h]
    · refine ⟨fun memory => ?_, ?_, ?_, ?_⟩
      · rw [hread memory, if_pos hacc, hend, hdata, drop_left, take_length]
      · rw [hend, hdata, take_left, take_length]
      · rw [drop_eq_nil_of_le (by omega), drop_eq_nil_of_le (by omega)]
      · omega

/-- A byte more at the end of the file. -/
theorem tmpfs_write_iff_append : ∃ s',
    (oneByte.setOffset 0 1).write 0 [8] 0x80200000 = some s' ∧
      WritesAt (oneByte.setOffset 0 1) s' 0 [8] :=
  ⟨_, rfl, (tmpfs_write_iff 0 (by decide) [8] 0x80200000 rfl).2 (Or.inr (by decide))⟩

/-- A write at the beginning of the file does not change the byte there. -/
theorem write_appends : ∃ s', oneByte.write 0 [8] 0x80100000 = some s' ∧
    s'.data = [7, 8] ∧ ¬ WritesAt oneByte s' 0 [8] := by
  refine ⟨_, rfl, rfl, fun h => ?_⟩
  have hsize := h.size
  revert hsize
  decide

end GzOS.TmpfsFile
