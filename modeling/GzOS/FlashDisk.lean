import GzOS.CTypes
import GzOS.Runs
import Mathlib.Tactic

/-!
# Reading sectors of a flash partition

A descriptor of a partition adds its offset to the start and subtracts the sum from the
end, in 32 bits. `seek` does not test the offset, and behind the end the difference
wraps around. `disk_read` computes offset and size in 32 bits as well, so a large sector
number or count stands for a small one.
-/
namespace GzOS.FlashDisk
open Runs List BitVec

structure Partition where
  start : BitVec 32
  fin : BitVec 32
  ordered : start.toNat ≤ fin.toNat

inductive DResult
  | ok
  | error
  | notReady
  | parameterError
  deriving DecidableEq, Repr

/-- Number 0 is the `_fd` of the disk, once it is open. -/
structure State where
  ready : Bool
  offset : ℕ → BitVec 32

namespace Partition

variable (p : Partition) (offset size : BitVec 32)

def length : ℕ := p.fin.toNat - p.start.toNat

def sizeLeft : BitVec 32 := p.fin - (p.start + offset)

def readLength : ℕ := min size.toNat (p.sizeLeft offset).toNat

/-- The addresses that a read copies from. -/
def accessed : List (BitVec 32) :=
  (range (p.readLength offset size)).map fun i => p.start + offset + BitVec.ofNat 32 i

def contents (memory : BitVec 32 → Byte) : List Byte :=
  (range p.length).map fun i => memory (p.start + BitVec.ofNat 32 i)

end Partition

def State.setOffset (s : State) (d : ℕ) (offset : BitVec 32) : State :=
  { s with offset := Function.update s.offset d offset }

/-- `PFlashFileDescriptor::write` returns -1 and does nothing. -/
inductive Event
  | diskRead (pdrv : ℕ) (sector count : BitVec 32)
  | read (d : ℕ) (size : BitVec 32)
  | write (d : ℕ) (bytes : List Byte)
  | seek (d : ℕ) (position : BitVec 32) (whence : Whence)

/-- The state, the addresses read from, and the result of `disk_read`. -/
structure Outcome where
  state : State
  accessed : List (BitVec 32) := []
  result : DResult := .ok

section

variable (p : Partition) (s : State)

def read (d : ℕ) (size : BitVec 32) : Outcome where
  state := s.setOffset d (s.offset d + BitVec.ofNat 32 (p.readLength (s.offset d) size))
  accessed := p.accessed (s.offset d) size

def seek (d : ℕ) (position : BitVec 32) : Whence → State
  | .seekSet => s.setOffset d position
  | .seekCur => s.setOffset d (s.offset d + position)
  | .seekEnd => s.setOffset d (p.fin - position - p.start)
  | .other => s

/-- The seek returns the offset it was given, so its result is never refused. -/
def diskRead (pdrv : ℕ) (sector count : BitVec 32) : Outcome :=
  if pdrv ≠ 0 then { state := s, result := .parameterError }
  else if s.ready = false then { state := s, result := .notReady }
  else
    let sought := seek p s 0 (sector * 512) .seekSet
    let copied := read p sought 0 (count * 512)
    if count * 512 ≠ BitVec.ofNat 32 (p.readLength (sector * 512) (count * 512)) then
      { copied with result := .error }
    else copied

def call : Event → Outcome
  | .diskRead pdrv sector count => diskRead p s pdrv sector count
  | .read d size => read p s d size
  | .write _ _ => { state := s }
  | .seek d position whence => { state := seek p s d position whence }

def step (e : Event) : Option State := some (call p s e).state

def Inside (address : BitVec 32) : Prop :=
  p.start.toNat ≤ address.toNat ∧ address.toNat < p.fin.toNat

def Exact (sector count : BitVec 32) (o : Outcome) : Prop :=
  o.result = .ok → ∀ memory, o.accessed.length = 512 * count.toNat ∧ o.accessed.map memory =
      ((p.contents memory).drop (512 * sector.toNat)).take (512 * count.toNat)

/-- A call accesses only its partition, and a read gives the sectors asked for. -/
def Isolated (e : Event) : Prop :=
  (∀ a ∈ (call p s e).accessed, Inside p a) ∧
    ∀ pdrv sector count, e = .diskRead pdrv sector count → Exact p sector count (call p s e)

/-- Offsets are in the partition. Sectors do not wrap around, unless the read fails for what
they wrap around to. -/
def InPartition : Event → Prop
  | .diskRead pdrv sector count => pdrv = 0 → s.ready = true → count = 0 ∨
      ((sector * 512).toNat ≤ p.length ∧ (p.length - (sector * 512).toNat < (count * 512).toNat ∨
          (sector.toNat < 2 ^ 23 ∧ count.toNat < 2 ^ 23)))
  | .read d size => size = 0 ∨ (s.offset d).toNat ≤ p.length
  | _ => True

end

variable {p : Partition} {s : State} {offset size : BitVec 32}

lemma sizeLeft_of_le (h : offset.toNat ≤ p.length) :
    (p.sizeLeft offset).toNat = p.length - offset.toNat := by
  have hp := p.ordered
  simp only [Partition.length, Partition.sizeLeft] at h ⊢
  bv_omega

lemma inside_accessed_iff :
    (∀ a ∈ p.accessed offset size, Inside p a) ↔ size = 0 ∨ offset.toNat ≤ p.length := by
  have hp := p.ordered
  constructor
  · intro h
    by_contra hno
    obtain ⟨hsize, hbehind⟩ := not_or.1 hno
    have hpos : 0 < p.readLength offset size := by
      have hs : size.toNat ≠ 0 := fun hz => hsize (eq_of_toNat_eq hz)
      have hl : (p.sizeLeft offset).toNat ≠ 0 := by
        simp only [Partition.length, Partition.sizeLeft] at hbehind ⊢
        bv_omega
      unfold Partition.readLength
      omega
    have hfirst := h (p.start + offset)
      (mem_map.2 ⟨0, mem_range.2 hpos, by simp⟩)
    simp only [Inside, Partition.length] at hfirst hbehind
    bv_omega
  · rintro (rfl | hle) a ha
    · simp [Partition.accessed, Partition.readLength] at ha
    obtain ⟨i, hi, rfl⟩ := mem_map.1 ha
    have hi' : i < p.length - offset.toNat := by
      rw [← sizeLeft_of_le hle]
      exact (mem_range.1 hi).trans_le (min_le_right _ _)
    simp only [Inside, Partition.length] at hi' hle ⊢
    bv_omega

lemma accessed_contents (h : offset.toNat ≤ p.length) (memory : BitVec 32 → Byte) :
    (p.accessed offset size).map memory =
      ((p.contents memory).drop offset.toNat).take size.toNat := by
  have hlen : p.readLength offset size = min size.toNat (p.length - offset.toNat) := by
    rw [Partition.readLength, sizeLeft_of_le h]
  apply ext_getElem
  · simp [Partition.accessed, Partition.contents, hlen]
  intro i hi _
  have hsum : p.start + offset + BitVec.ofNat 32 i =
      p.start + BitVec.ofNat 32 (offset.toNat + i) := by
    rw [BitVec.add_assoc, BitVec.ofNat_add, BitVec.ofNat_toNat, BitVec.setWidth_eq]
  simp [Partition.accessed, Partition.contents, hsum]

/-- With the disk open, the read of the sectors is the one of the descriptor. -/
lemma diskRead_ready (sector count : BitVec 32) (hr : s.ready) :
    (diskRead p s 0 sector count).accessed = p.accessed (sector * 512) (count * 512) ∧
      ((diskRead p s 0 sector count).result = .ok ↔
        (count * 512).toNat ≤ (p.sizeLeft (sector * 512)).toNat) := by
  have hoff : (seek p s 0 (sector * 512) .seekSet).offset 0 = sector * 512 := by
    simp [seek, State.setOffset]
  have hlen : count * 512 = BitVec.ofNat 32 (p.readLength (sector * 512) (count * 512)) ↔
      (count * 512).toNat ≤ (p.sizeLeft (sector * 512)).toNat := by
    rw [← BitVec.toNat_inj, BitVec.toNat_ofNat, Partition.readLength]
    omega
  simp only [diskRead, hr, ne_eq, not_true_eq_false, if_false, Bool.true_eq_false, hlen]
  split_ifs with hle
  · exact ⟨by rw [read, hoff], iff_of_true rfl hle⟩
  · exact ⟨by rw [read, hoff], iff_of_false (fun h => by cases h) hle⟩

/-- The products with 512 can wrap around; a read that fails for that is isolated. -/
lemma isolated_diskRead_iff {sector count : BitVec 32} (hr : s.ready) :
    Isolated p s (.diskRead 0 sector count) ↔ InPartition p s (.diskRead 0 sector count) := by
  obtain ⟨hacc, hok⟩ := diskRead_ready (p := p) sector count hr
  have hs : (sector * 512).toNat = sector.toNat * 512 % 2 ^ 32 := toNat_mul _ _
  have hz : (count * 512).toNat = count.toNat * 512 % 2 ^ 32 := toNat_mul _ _
  have hn : p.length < 2 ^ 32 := (Nat.sub_le _ _).trans_lt p.fin.isLt
  simp only [Isolated, InPartition, call, Exact, hok, hacc, inside_accessed_iff, hr,
    forall_const, Event.diskRead.injEq]
  constructor
  · rintro ⟨hinside, hexact⟩
    refine or_iff_not_imp_left.2 fun hne => ?_
    have hpos : count.toNat ≠ 0 := fun h => hne (eq_of_toNat_eq h)
    by_cases hle : (count * 512).toNat ≤ (p.sizeLeft (sector * 512)).toNat
    · obtain ⟨hlen, heq⟩ := hexact 0 sector count ⟨rfl, rfl, rfl⟩ hle fun _ => 0
      have hall := congrArg length heq
      simp only [length_map, length_take, length_drop,  Partition.contents, length_range] at hall
      have hin : (sector * 512).toNat ≤ p.length := by omega
      refine ⟨hin, .inr ?_⟩
      omega
    · have hin : (sector * 512).toNat ≤ p.length := by
        refine hinside.resolve_left fun hzero => hle ?_
        rw [hzero]
        exact Nat.zero_le _
      rw [sizeLeft_of_le hin] at hle
      exact ⟨hin, .inl (by omega)⟩
  · rintro (hnone | ⟨hin, hor⟩)
    · rw [hnone]
      refine ⟨.inl (by simp), ?_⟩
      rintro _ _ _ ⟨-, rfl, rfl⟩ - memory
      simp [Partition.accessed, Partition.readLength]
    · refine ⟨.inr hin, ?_⟩
      rintro _ _ _ ⟨-, rfl, rfl⟩ hle memory
      have hlen : (p.accessed (sector * 512) (count * 512)).length = (count * 512).toNat := by
        simpa [Partition.accessed, Partition.readLength] using hle
      rw [sizeLeft_of_le hin] at hle
      have hsector : (sector * 512).toNat = 512 * sector.toNat := by omega
      have hbytes : (count * 512).toNat = 512 * count.toNat := by omega
      rw [accessed_contents hin, hlen, hsector, hbytes]
      exact ⟨rfl, rfl⟩

lemma isolated_iff (e : Event) : Isolated p s e ↔ InPartition p s e := by
  cases e with
  | diskRead pdrv sector count =>
    by_cases hgo : pdrv = 0 ∧ s.ready
    · rw [hgo.1]
      exact isolated_diskRead_iff hgo.2
    have hno : (diskRead p s pdrv sector count).accessed = [] ∧
        (diskRead p s pdrv sector count).result ≠ .ok := by
      by_cases hd : pdrv = 0
      · have hr : s.ready = false := by simpa [hd] using hgo
        simp [diskRead, hd, hr]
      · simp [diskRead, hd]
    refine iff_of_true ⟨?_, fun _ _ _ _ hok => absurd hok hno.2⟩
      fun hd hr => absurd ⟨hd, hr⟩ hgo
    simp [call, hno.1]
  | read d size =>
    rw [InPartition, ← inside_accessed_iff]
    exact and_iff_left fun _ _ _ he => by cases he
  | write d bytes => exact iff_of_true ⟨by simp [call], fun _ _ _ he => by cases he⟩ trivial
  | seek d position whence =>
    exact iff_of_true ⟨by simp [call], fun _ _ _ he => by cases he⟩ trivial

/-- In every sequence of calls all accesses lie in the partition and every read of
sectors that succeeds is exact, exactly if every read meets the condition. -/
theorem flash_isolated_iff (p : Partition) (s : State) (events : List Event) :
    Meets (step p) (Isolated p) s events ↔ Meets (step p) (InPartition p) s events := by
  simp only [Meets, isolated_iff]

lemma sample_ordered : (0x9e000000 : BitVec 32).toNat ≤ (0x9e000400 : BitVec 32).toNat := by
  decide

/-- Two sectors. -/
def twoSectors : Partition := ⟨0x9e000000, 0x9e000400, sample_ordered⟩

/-- A read of sector `2 ^ 23` succeeds with the bytes of sector 0, and a read behind
the end of the partition goes on there. -/
theorem flash_not_isolated :
    ¬ Isolated twoSectors ⟨true, fun _ => 0⟩ (.diskRead 0 0x800000 1) ∧
      ¬ Isolated twoSectors ⟨true, fun _ => 0x401⟩ (.read 1 1) := by
  simp only [isolated_iff, InPartition]
  decide

end GzOS.FlashDisk
