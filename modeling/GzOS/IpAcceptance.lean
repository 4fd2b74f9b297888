import GzOS.IpInput

/-!
# Which datagrams the protocols see

`ip_input` shifts the flags field by 5 instead of 13, and it compares the network of the
source instead of the destination. So a datagram that passes its checks has a valid
checksum, but it may be a fragment or be addressed to someone else.
-/
namespace GzOS.Net
open OnesComplement

/-- The header with its checksum sums to all ones. -/
def ChecksumValid (f : Frame) : Prop :=
  fold 65536 2 (sumEvery16Bits f.memory l3Offset (4 * f.ihl)) = 65535

instance (f : Frame) : Decidable (ChecksumValid f) := inferInstanceAs (Decidable (_ = _))

def Unfragmented (f : Frame) : Prop := f.fragOffset / 2 ^ 13 % 2 = 0 ∧ f.fragOffset % 2 ^ 13 = 0

def ForInterface (f : Frame) (interface : Option Interface) : Prop :=
  interface.map Interface.address = some f.daddr

/-- `ip_input` calls the input function of a protocol. -/
def HandsOver (f : Frame) (rawSockets : ℕ) (interface : Option Interface) : Prop :=
  ∃ protocol spans, ipInput f rawSockets interface [] = some (some protocol, spans)

/-- What `ip_input` does check: the header with its sum, the clones, one of three protocols,
and an interface on the network of the source. -/
def PassesChecks (f : Frame) (rawSockets : ℕ) (interface : Option Interface) : Prop :=
  HeaderAccepted f ∧ Clonable f rawSockets ∧ (f.proto = 1 ∨ f.proto = 6 ∨ f.proto = 17) ∧
    ∃ i, interface = some i ∧ isIpOnSameNetwork f.saddr i.address i.netmask = true

lemma ipDispatch_isSome (f : Frame) (interface : Option Interface) :
    (ipDispatch f interface).isSome ↔ (f.proto = 1 ∨ f.proto = 6 ∨ f.proto = 17) ∧
        ∃ i, interface = some i ∧ isIpOnSameNetwork f.saddr i.address i.netmask := by
  cases interface with
  | none => simp [ipDispatch]
  | some i =>
    rw [ipDispatch]
    by_cases h : isIpOnSameNetwork f.saddr i.address i.netmask
    · rw [if_pos h, protocolOf]
      split_ifs <;> simp [*]
    · simp [h]

lemma handsOver_iff (f : Frame) (rawSockets : ℕ) (interface : Option Interface) :
    HandsOver f rawSockets interface ↔ PassesChecks f rawSockets interface := by
  unfold HandsOver PassesChecks
  by_cases h : HeaderAccepted f
  · by_cases hclonable : Clonable f rawSockets
    · rw [yields_ipInput interface (fun _ => hclonable) [], ← ipDispatch_isSome,
       Option.isSome_iff_exists]
      simp [h, hclonable]
    · rw [ipInput_none interface h hclonable []]
      simp [hclonable]
  · rw [yields_ipInput interface (fun haccepted => absurd haccepted h) []]
    simp [h]

/-! ### The checksum of the header -/

lemma sumEvery16Bits_le (mem : Memory) (addr count : ℕ) :
    sumEvery16Bits mem addr count ≤ 65535 * count := by
  induction count using Nat.strong_induction_on generalizing addr with
  | _ count ih =>
    match count with
    | 0 => simp [sumEvery16Bits]
    | 1 =>
      have := (mem addr).toNat_lt
      rw [sumEvery16Bits]
      omega
    | count + 2 =>
      have := ih count (by omega) (addr + 2)
      have := half_lt mem addr
      rw [sumEvery16Bits]
      omega

lemma half_zeroField_of_ne {mem : Memory} {pos addr : ℕ} (h : addr + 1 < pos ∨ pos + 1 < addr) :
    half (zeroField mem pos) addr = half mem addr := by
  have h1 : ¬ (addr = pos ∨ addr = pos + 1) := by omega
  have h2 : ¬ (addr + 1 = pos ∨ addr + 1 = pos + 1) := by omega
  simp only [half, zeroField, if_neg h1, if_neg h2]

lemma sumEvery16Bits_zeroField_of_lt (mem : Memory) {pos addr : ℕ} (count : ℕ)
    (h : pos + 1 < addr) :
    sumEvery16Bits (zeroField mem pos) addr count = sumEvery16Bits mem addr count := by
  induction count using Nat.strong_induction_on generalizing addr with
  | _ count ih =>
    match count with
    | 0 => rfl
    | 1 =>
      have hne : ¬ (addr = pos ∨ addr = pos + 1) := by omega
      simp only [sumEvery16Bits, zeroField, if_neg hne]
    | count + 2 =>
      rw [sumEvery16Bits, sumEvery16Bits, half_zeroField_of_ne (.inr h),
        ih count (by omega) (by omega)]

lemma sumEvery16Bits_zeroField (mem : Memory) (k addr count : ℕ) (h : 2 * k + 2 ≤ count) :
    sumEvery16Bits mem addr count =
      sumEvery16Bits (zeroField mem (addr + 2 * k)) addr count + half mem (addr + 2 * k) := by
  induction k generalizing addr count with
  | zero =>
    obtain ⟨rest, rfl⟩ : ∃ rest, count = rest + 2 := ⟨count - 2, by omega⟩
    have hzero : half (zeroField mem addr) addr = 0 := by simp [half, zeroField]
    rw [mul_zero, add_zero, sumEvery16Bits, sumEvery16Bits,
       sumEvery16Bits_zeroField_of_lt mem rest (by omega)]
    omega
  | succ k ih =>
    obtain ⟨rest, rfl⟩ : ∃ rest, count = rest + 2 := ⟨count - 2, by omega⟩
    have hrest := ih (addr + 2) rest (by omega)
    have hpos : addr + 2 + 2 * k = addr + 2 * (k + 1) := by omega
    rw [hpos] at hrest
    rw [sumEvery16Bits, sumEvery16Bits, half_zeroField_of_ne (.inl (by omega))]
    omega

lemma checksumValid_of_accepted {f : Frame} (h : HeaderAccepted f) : ChecksumValid f := by
  obtain ⟨⟨-, -, hihl, -⟩, hcsum⟩ := h
  have hlt := ihl_lt f
  set zeroed := sumEvery16Bits (zeroField f.memory (l3Offset + 10)) l3Offset (4 * f.ihl) with hz
  have hsum : sumEvery16Bits f.memory l3Offset (4 * f.ihl) = zeroed + f.csum :=
    sumEvery16Bits_zeroField f.memory 5 l3Offset (4 * f.ihl) (by omega)
  have hle : zeroed ≤ 65535 * (4 * f.ihl) := sumEvery16Bits_le _ _ _
  have hstored : f.csum = 65535 - fold 65536 2 zeroed := by
    rw [hcsum, ipChecksum, checksum, zero_add, ← hz, Nat.mod_eq_of_lt (by omega)]
  rw [ChecksumValid, hsum, hstored]
  exact fold_add_complement (by decide) (by omega) (by omega)

/-- A datagram reaches a protocol only in good order exactly if it fails one of
the checks that are made, or is no fragment and addressed to the interface. -/
theorem handsOver_proper_iff (f : Frame) (rawSockets : ℕ) (interface : Option Interface) :
    (HandsOver f rawSockets interface →
        ChecksumValid f ∧ Unfragmented f ∧ ForInterface f interface) ↔
      (PassesChecks f rawSockets interface → Unfragmented f ∧ ForInterface f interface) := by
  rw [handsOver_iff]
  constructor
  · intro h hpass
    exact (h hpass).2
  · intro h hpass
    exact ⟨checksumValid_of_accepted hpass.1, h hpass⟩

def foreignFragment : Frame where
  memory i := ([0, 0, 0, 0, 0, 0, 0, 0, 0, 0, 0, 0, 8, 0,
    0x45, 0, 0, 0x14, 0, 0, 0x20, 0, 0x40, 1, 0x46, 0xdf, 10, 0, 0, 2, 10, 0, 0, 9]
      : List Byte).getD i 0
  size := 34
  ethernet := by decide
  fits := by decide

/-- The host 10.0.0.1 hands it to ICMP. -/
theorem foreignFragment_handsOver :
    ¬ (HandsOver foreignFragment 0 (some ⟨0x0a000001, 0xffffff00⟩) →
      ChecksumValid foreignFragment ∧ Unfragmented foreignFragment ∧
        ForInterface foreignFragment (some ⟨0x0a000001, 0xffffff00⟩)) := by
  intro h
  have hpass : HandsOver foreignFragment 0 (some ⟨0x0a000001, 0xffffff00⟩) :=
    ⟨.icmp, [⟨14, 20⟩, ⟨14, 20⟩], by decide +kernel⟩
  have hflag : foreignFragment.fragOffset / 2 ^ 13 % 2 = 1 := by decide
  have hclear := (h hpass).2.1.1
  omega

end GzOS.Net
