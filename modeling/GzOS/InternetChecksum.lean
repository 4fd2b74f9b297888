import GzOS.IpAcceptance

/-!
# The checksums of the internet protocols

The bytes are taken in pairs, high byte first, the words are added with end-around
carry, and the sum is complemented. The code adds into 32 bits and folds at the end. For
at most 65535 bytes alone nothing is lost on the way; with two addresses added as they
are, something can be.
-/
namespace GzOS.Net
open OnesComplement List UInt8

/-! ### What the checksum should be -/

def rfcWords : List Byte → List ℕ
  | [] => []
  | [a] => [256 * a.toNat]
  | a :: b :: rest => (256 * a.toNat + b.toNat) :: rfcWords rest

def onesSum (bytes : List Byte) : ℕ := (rfcWords bytes).foldl (endAround 65536) 0

def rfcChecksum (bytes : List Byte) : BitVec 16 := ~~~BitVec.ofNat 16 (onesSum bytes)

def bytes (mem : Memory) (addr : ℕ) : ℕ → List Byte
  | 0 => []
  | count + 1 => mem addr :: bytes mem (addr + 1) count

lemma rfcWords_lt (l : List Byte) : ∀ w ∈ rfcWords l, w < 65536 := by
  induction l using rfcWords.induct with
  | case1 => simp [rfcWords]
  | case2 a =>
    have := a.toNat_lt
    simp only [rfcWords, mem_singleton]
    omega
  | case3 a b rest ih =>
    have ha := a.toNat_lt
    have hb := b.toNat_lt
    simp only [rfcWords, forall_mem_cons]
    exact ⟨by omega, ih⟩

lemma onesSum_lt (l : List Byte) : onesSum l < 65536 :=
  foldl_endAround_lt (by decide) (rfcWords_lt l)

lemma rfcChecksum_toNat (l : List Byte) : (rfcChecksum l).toNat = 65535 - onesSum l := by
  have hlt := onesSum_lt l
  rw [rfcChecksum, BitVec.toNat_not, BitVec.toNat_ofNat, Nat.mod_eq_of_lt hlt]

lemma sum_rfcWords (mem : Memory) (addr count : ℕ) :
    (rfcWords (bytes mem addr count)).sum = sumEvery16Bits mem addr count := by
  induction addr, count using sumEvery16Bits.induct with
  | case1 addr => rfl
  | case2 addr => simp [bytes, rfcWords, sumEvery16Bits]
  | case3 addr count ih =>
    rw [sumEvery16Bits, ← ih]
    rfl

variable {count value k : ℕ}

lemma sumEvery16Bits_lt (mem : Memory) (addr : ℕ) (h : count ≤ 65535) :
    sumEvery16Bits mem addr count < 65536 * 65536 := by
  have hle := sumEvery16Bits_le mem addr count
  omega

variable {mem : Memory} {addr v i pos : ℕ}

lemma checksum_eq (h : count ≤ 65535) :
    checksum mem addr count 0 = 65535 - fold 65536 2 (sumEvery16Bits mem addr count) := by
  have hlt : sumEvery16Bits mem addr count < 2 ^ 32 := sumEvery16Bits_lt mem addr h
  rw [checksum, Nat.zero_add, Nat.mod_eq_of_lt hlt]

lemma rfcChecksum_bytes (mem : Memory) (addr : ℕ) (h : count ≤ 65535) :
    (rfcChecksum (bytes mem addr count)).toNat = checksum mem addr count 0 := by
  rw [rfcChecksum_toNat, checksum_eq h, onesSum,
    fold_eq_foldl (by decide) (sumEvery16Bits_lt mem addr h) (rfcWords_lt (bytes mem addr count))]
  · rw [sum_rfcWords]
  · rw [sum_rfcWords]

lemma checksum_ne {mem' : Memory} (h : count ≤ 65535)
    (hne : ¬ sumEvery16Bits mem addr count ≡ sumEvery16Bits mem' addr count [MOD 65535]) :
    checksum mem' addr count 0 ≠ checksum mem addr count 0 := by
  intro heq
  rw [checksum_eq h, checksum_eq h] at heq
  have hlt := fold_lt (by decide) (sumEvery16Bits_lt mem addr h)
  have hlt' := fold_lt (by decide) (sumEvery16Bits_lt mem' addr h)
  have hfold : fold 65536 2 (sumEvery16Bits mem addr count) =
      fold 65536 2 (sumEvery16Bits mem' addr count) := by omega
  have hmod := fold_modEq (b := 65536) (by decide) 2 (sumEvery16Bits mem addr count)
  rw [hfold] at hmod
  exact hne (hmod.symm.trans (fold_modEq (by decide) 2 _))

lemma sum_set {l : List ℕ} (w : ℕ) (h : l[i]? = some v) : (l.set i w).sum + v = l.sum + w := by
  induction l generalizing i with
  | nil => cases h
  | cons x l ih =>
    cases i with
    | zero =>
      obtain rfl : x = v := Option.some.inj h
      simp only [set_cons_zero, sum_cons]
      omega
    | succ i =>
      have htail := ih h
      simp only [set_cons_succ, sum_cons]
      omega

/-- The fold ends, the value is the one of the specification, and it tells two buffers apart
that differ in one word. -/
theorem checksum_rfc (mem : Memory) (addr count : ℕ) (h : count ≤ 65535) : (∀ fuel, 2 ≤ fuel →
      fold 65536 fuel (sumEvery16Bits mem addr count) =
        fold 65536 2 (sumEvery16Bits mem addr count) ∧
      fold 65536 fuel (sumEvery16Bits mem addr count) / 65536 = 0) ∧
    checksum mem addr count 0 = (rfcChecksum (bytes mem addr count)).toNat ∧
    ∀ (mem' : Memory) (i v w : ℕ), (rfcWords (bytes mem addr count))[i]? = some v →
      rfcWords (bytes mem' addr count) = (rfcWords (bytes mem addr count)).set i w → v ≠ w →
      ¬ (v = 0 ∧ w = 0xffff) → ¬ (v = 0xffff ∧ w = 0) →
      checksum mem' addr count 0 ≠ checksum mem addr count 0 := by
  have hlt := sumEvery16Bits_lt mem addr h
  refine ⟨fun fuel hfuel => ?_, (rfcChecksum_bytes mem addr h).symm, ?_⟩
  · have hfold := fold_of_two_le (by decide) hfuel hlt
    refine ⟨hfold, ?_⟩
    rw [hfold]
    exact Nat.div_eq_of_lt (fold_lt (by decide) hlt)
  · intro mem' i v w hv hset hne hexchange hexchange'
    apply checksum_ne h
    intro hmod
    have hw : w < 65536 := by
      refine rfcWords_lt (bytes mem' addr count) w ?_
      rw [hset]
      exact List.mem_set (List.getElem?_eq_some_iff.1 hv).1 w
    have hsum := sum_set w hv
    rw [← hset, sum_rfcWords, sum_rfcWords] at hsum
    -- the two sums differ by the two words
    have hwords : v ≡ w [MOD 65535] := by
      refine Nat.ModEq.add_left_cancel' (sumEvery16Bits mem addr count) ?_
      rw [← hsum]
      exact hmod.add_right v
    have hlt := rfcWords_lt _ v (mem_of_getElem? hv)
    unfold Nat.ModEq at hwords
    omega

/-- The memory `1, 2, 3` and its value by hand: `0x0102 + 0x0300 = 0x0402`. -/
theorem checksum_rfc_odd : 3 ≤ 65535 ∧ checksum (fun i => ofNat (i + 1)) 0 3 0 = 0xfbfd ∧
    checksum (fun i => ofNat (i + 1)) 0 3 0 =
      (rfcChecksum (bytes (fun i => ofNat (i + 1)) 0 3)).toNat :=
  ⟨by decide, by decide, (checksum_rfc (fun i => ofNat (i + 1)) 0 3 (by decide)).2.1⟩

/-! ### A checksum in its field -/

def storeHalf (mem : Memory) (pos value : ℕ) : Memory :=
  fun i => if i = pos then ofNat (value / 256)
    else if i = pos + 1 then ofNat value else mem i

lemma storeHalf_of_ne (mem : Memory) (value : ℕ) (h : i ≠ pos) (h' : i ≠ pos + 1) :
    storeHalf mem pos value i = mem i := by
  rw [storeHalf, if_neg h, if_neg h']

lemma half_storeHalf (mem : Memory) (pos : ℕ) (h : value < 65536) :
    half (storeHalf mem pos value) pos = value := by
  simp only [half, storeHalf, if_true, Nat.succ_ne_self, if_false, toNat_ofNat']
  omega

lemma zeroField_storeHalf (mem : Memory) (pos value : ℕ) :
    zeroField (storeHalf mem pos value) pos = zeroField mem pos := by
  funext i
  unfold zeroField storeHalf
  split_ifs <;> grind

lemma zeroField_of_half (h : half mem pos = 0) : zeroField mem pos = mem := by
  have hbytes : mem pos = 0 ∧ mem (pos + 1) = 0 := by
    unfold half at h
    exact ⟨UInt8.toNat_inj.1 (by simp; omega), UInt8.toNat_inj.1 (by simp; omega)⟩
  funext i
  unfold zeroField
  split_ifs with hi
  · rcases hi with rfl | rfl
    · exact hbytes.1.symm
    · exact hbytes.2.symm
  · rfl

/-! ### A segment with its pseudo-header -/

/-- The bytes from `data` on, and what the pseudo-header says of them. -/
structure Segment where
  memory : Memory
  saddr : BitVec 32
  daddr : BitVec 32
  proto : BitVec 8
  data : ℕ
  len : BitVec 16

namespace Segment

def checksum (s : Segment) : ℕ :=
  tcpUdpChecksum s.memory s.saddr.toNat s.daddr.toNat s.proto.toNat s.data s.len.toNat

def total (s : Segment) : ℕ :=
  s.saddr.toNat + s.daddr.toNat + s.proto.toNat + s.len.toNat +
    sumEvery16Bits s.memory s.data s.len.toNat

def byteOf (n shift : ℕ) : Byte := ofNat (n >>> shift)

def pseudoHeader (s : Segment) : List Byte :=
  let saddr := s.saddr.toNat
  let daddr := s.daddr.toNat
  [byteOf saddr 24, byteOf saddr 16, byteOf saddr 8, byteOf saddr 0,
    byteOf daddr 24, byteOf daddr 16, byteOf daddr 8, byteOf daddr 0,
    0, byteOf s.proto.toNat 0, byteOf s.len.toNat 8, byteOf s.len.toNat 0]

def summedBytes (s : Segment) : List Byte := s.pseudoHeader ++ bytes s.memory s.data s.len.toNat

lemma byteOf_pair (n shift : ℕ) :
    256 * (byteOf n (shift + 8)).toNat + (byteOf n shift).toNat = n >>> shift % 65536 := by
  simp only [byteOf, toNat_ofNat', Nat.shiftRight_eq_div_pow, Nat.pow_add,
    ← Nat.div_div_eq_div_mul]
  omega

lemma sum_summedBytes (s : Segment) : (rfcWords s.summedBytes).sum =
    carryRound 65536 s.saddr.toNat + carryRound 65536 s.daddr.toNat + s.proto.toNat +
      s.len.toNat + sumEvery16Bits s.memory s.data s.len.toNat := by
  have hhigh : ∀ a : BitVec 32, a.toNat >>> 16 % 65536 = a.toNat / 65536 := by
    intro a
    omega
  have hproto : (byteOf s.proto.toNat 0).toNat = s.proto.toNat := by
    simp only [byteOf, toNat_ofNat']
    omega
  have hlen : s.len.toNat % 65536 = s.len.toNat := Nat.mod_eq_of_lt s.len.isLt
  simp only [summedBytes, pseudoHeader, cons_append, nil_append, rfcWords, sum_cons,
     byteOf_pair _ 16, byteOf_pair _ 0, sum_rfcWords, Nat.shiftRight_zero, hhigh,  carryRound,
    UInt8.toNat_zero]
  omega

lemma onesSum_modEq (s : Segment) : onesSum s.summedBytes ≡ s.total [MOD 65535] := by
  have hround : ∀ n, carryRound 65536 n ≡ n [MOD 65535] := carryRound_modEq (by decide)
  calc
    onesSum s.summedBytes ≡ 0 + (rfcWords s.summedBytes).sum [MOD 65535] :=
      foldl_endAround_modEq 0
    _ = carryRound 65536 s.saddr.toNat + carryRound 65536 s.daddr.toNat + s.proto.toNat +
        s.len.toNat + sumEvery16Bits s.memory s.data s.len.toNat := by
      rw [Nat.zero_add, sum_summedBytes]
    _ ≡ s.total [MOD 65535] :=
      ((((hround _).add (hround _)).add_right _).add_right _).add_right _

lemma onesSum_eq_zero_iff (s : Segment) : onesSum s.summedBytes = 0 ↔ s.total = 0 := by
  have hround : ∀ n, carryRound 65536 n = 0 ↔ n = 0 := by
    intro n
    unfold carryRound
    omega
  rw [onesSum, foldl_endAround_eq_zero_iff (by decide), sum_summedBytes, total]
  simp [hround]

lemma checksum_eq (s : Segment) : s.checksum = 65535 - fold 65536 2 (s.total % 2 ^ 32) := by
  rw [checksum, tcpUdpChecksum, Net.checksum, total, Nat.mod_add_mod]

lemma total_lt (s : Segment) : s.total < 4 * 2 ^ 32 := by
  have hlen := s.len.isLt
  have hsum := sumEvery16Bits_lt s.memory s.data (Nat.le_of_lt_succ hlen)
  unfold total
  omega

/-- The value is right exactly if no carry leaves the 32 bits. -/
lemma checksum_eq_rfc_iff (s : Segment) :
    s.checksum = (rfcChecksum s.summedBytes).toNat ↔ s.total < 2 ^ 32 := by
  have hmod := s.onesSum_modEq
  have htotal := s.total_lt
  have hlt := onesSum_lt s.summedBytes
  have hfold : fold 65536 2 (s.total % 2 ^ 32) < 65536 :=
    fold_lt (by decide) (Nat.mod_lt _ (by decide))
  have hfoldMod : fold 65536 2 (s.total % 2 ^ 32) ≡ s.total % 2 ^ 32 [MOD 65535] :=
    fold_modEq (by decide) 2 _
  rw [checksum_eq, rfcChecksum_toNat]
  constructor
  · intro heq
    have hsame : fold 65536 2 (s.total % 2 ^ 32) = onesSum s.summedBytes := by omega
    rw [hsame] at hfoldMod
    -- every carry out of the 32 bits has the residue 1
    have hwrap := hfoldMod.symm.trans hmod
    unfold Nat.ModEq at hwrap
    omega
  · intro hsmall
    rw [Nat.mod_eq_of_lt hsmall] at hfold hfoldMod ⊢
    rw [eq_of_modEq hfold hlt (hfoldMod.trans hmod.symm)]
    rw [fold_eq_zero_iff, onesSum_eq_zero_iff]

lemma rfcChecksum_eq_zero_iff (s : Segment) :
    (rfcChecksum s.summedBytes).toNat = 0 ↔ s.total % 65535 = 0 ∧ s.total ≠ 0 := by
  have hmod := s.onesSum_modEq
  have hzero := s.onesSum_eq_zero_iff
  have hlt := onesSum_lt s.summedBytes
  rw [rfcChecksum_toNat]
  unfold Nat.ModEq at hmod
  omega

/-! ### Senders and receivers -/

def field (s : Segment) (k : ℕ) : ℕ := half s.memory (s.data + 2 * k)

def store (s : Segment) (k value : ℕ) : Segment :=
  { s with memory := storeHalf s.memory (s.data + 2 * k) value }

def zeroed (s : Segment) (k : ℕ) : Segment :=
  { s with memory := zeroField s.memory (s.data + 2 * k) }

def KernelAccepts (s : Segment) (k : ℕ) : Prop := s.field k = (s.zeroed k).checksum

/-- For UDP zero stands for no checksum, so zero is sent as all ones. -/
def rfcSent (s : Segment) : ℕ :=
  if s.proto = 17 ∧ rfcChecksum s.summedBytes = 0 then 0xffff else (rfcChecksum s.summedBytes).toNat

/-- The sum with the checksum has all bits set. -/
def RfcAccepts (s : Segment) (k : ℕ) : Prop :=
  s.proto = 17 ∧ s.field k = 0 ∨ onesSum s.summedBytes = 0xffff

/-- One side sets the checksum and the other accepts it. -/
structure Accepted (s : Segment) (k : ℕ) : Prop where
  received : (s.store k s.rfcSent).KernelAccepts k
  sent : (s.store k s.checksum).RfcAccepts k

lemma zeroed_store (s : Segment) (value : ℕ) (h : s.field k = 0) :
    (s.store k value).zeroed k = s := by
  have hmemory : zeroField (storeHalf s.memory (s.data + 2 * k) value) (s.data + 2 * k) =
      s.memory := by
    rw [zeroField_storeHalf, zeroField_of_half h]
  exact congrArg (fun memory => { s with memory }) hmemory

lemma total_store (s : Segment) (hvalue : value < 65536) (hk : 2 * k + 2 ≤ s.len.toNat)
    (h : s.field k = 0) : (s.store k value).total = s.total + value := by
  have hsum := sumEvery16Bits_zeroField (s.store k value).memory k s.data s.len.toNat hk
  simp only [store] at hsum
  rw [zeroField_storeHalf, zeroField_of_half h, half_storeHalf _ _ hvalue] at hsum
  simp only [total, store]
  omega

lemma checksum_lt (s : Segment) : s.checksum < 65536 := by
  rw [checksum_eq]
  omega

lemma rfcSent_lt (s : Segment) : s.rfcSent < 65536 := by
  unfold rfcSent
  split_ifs
  · decide
  · exact (rfcChecksum s.summedBytes).isLt

lemma rfcAccepts_store (s : Segment) (hk : 2 * k + 2 ≤ s.len.toNat) (h : s.field k = 0)
    (hsmall : s.total < 2 ^ 32) : (s.store k s.checksum).RfcAccepts k := by
  refine .inr ?_
  have htotal := s.total_store s.checksum_lt hk h
  have hmod := (s.store k s.checksum).onesSum_modEq
  have hzero := (s.store k s.checksum).onesSum_eq_zero_iff
  have hlt := onesSum_lt (s.store k s.checksum).summedBytes
  have hvalue := s.checksum_eq
  rw [Nat.mod_eq_of_lt hsmall] at hvalue
  have hfold : fold 65536 2 s.total < 65536 := fold_lt (by decide) hsmall
  have hfoldMod : fold 65536 2 s.total ≡ s.total [MOD 65535] := fold_modEq (by decide) 2 _
  have hfoldZero : fold 65536 2 s.total = 0 ↔ s.total = 0 := fold_eq_zero_iff 2
  unfold Nat.ModEq at hmod hfoldMod
  omega

/-- They differ on sums that wrap around and on UDP checksums of zero. -/
lemma accepted_iff (s : Segment) (hk : 2 * k + 2 ≤ s.len.toNat) (h : s.field k = 0) :
    s.Accepted k ↔ s.total < 2 ^ 32 ∧ ¬ (s.proto = 17 ∧ s.total % 65535 = 0) := by
  have hreceived : (s.store k s.rfcSent).KernelAccepts k ↔ s.rfcSent = s.checksum := by
    rw [KernelAccepts, s.zeroed_store _ h]
    exact (half_storeHalf _ _ s.rfcSent_lt).congr_left
  have hvalue := s.checksum_eq_rfc_iff
  have hzero := s.rfcChecksum_eq_zero_iff
  -- the only value that is not sent as it is
  have hspecial : s.proto = 17 ∧ rfcChecksum s.summedBytes = 0 ↔
      s.proto = 17 ∧ s.total % 65535 = 0 := by
    refine and_congr_right fun hproto => ?_
    have hpos : s.total ≠ 0 := by
      unfold total
      rw [hproto]
      simp
    have hnone : (0 : BitVec 16).toNat = 0 := rfl
    rw [← BitVec.toNat_inj, hnone, hzero]
    exact and_iff_left hpos
  by_cases hudp : s.proto = 17 ∧ rfcChecksum s.summedBytes = 0
  · have hsent : s.rfcSent = 0xffff := if_pos hudp
    refine iff_of_false (fun haccepted => ?_) (fun hcond => hcond.2 (hspecial.1 hudp))
    have hones : 0xffff = s.checksum := hsent ▸ hreceived.1 haccepted.received
    have hfold : s.total % 2 ^ 32 = 0 := by
      rw [checksum_eq] at hones
      exact (fold_eq_zero_iff (b := 65536) 2).1 (by omega)
    have htotal := s.total_lt
    obtain ⟨hmod, hne⟩ := hzero.1 (by rw [hudp.2]; rfl)
    omega
  · have hsent : s.rfcSent = (rfcChecksum s.summedBytes).toNat := if_neg hudp
    rw [hsent, eq_comm, hvalue] at hreceived
    rw [and_iff_left (fun hcond => hudp (hspecial.2 hcond))]
    exact ⟨fun haccepted => hreceived.1 (hsent ▸ haccepted.received),
      fun hsmall => ⟨hsent.symm ▸ hreceived.2 hsmall, s.rfcAccepts_store hk h hsmall⟩⟩

end Segment

def Frame.segment (f : Frame) (proto : BitVec 8) (len : ℕ) : Segment :=
  ⟨f.memory, BitVec.ofNat 32 f.saddr, BitVec.ofNat 32 f.daddr, proto, l4Offset, BitVec.ofNat 16 len⟩

lemma word_lt (mem : Memory) (pos : ℕ) : word mem pos < 2 ^ 32 := by
  have hhigh := half_lt mem pos
  have hlow := half_lt mem (pos + 2)
  unfold word
  omega

lemma kernelAccepts_segment (f : Frame) (proto : BitVec 8) {len : ℕ} (hlen : len < 65536)
    (k : ℕ) : (f.segment proto len).KernelAccepts k ↔ half f.memory (l4Offset + 2 * k) =
      tcpUdpChecksum (zeroField f.memory (l4Offset + 2 * k)) f.saddr f.daddr proto.toNat l4Offset
        len := by
  have hsaddr : f.saddr % 2 ^ 32 = f.saddr := Nat.mod_eq_of_lt (word_lt _ _)
  have hdaddr : f.daddr % 2 ^ 32 = f.daddr := Nat.mod_eq_of_lt (word_lt _ _)
  have hlen' : len % 2 ^ 16 = len := Nat.mod_eq_of_lt hlen
  simp only [Segment.KernelAccepts, Segment.checksum, Segment.zeroed, Segment.field,
    Frame.segment, BitVec.toNat_ofNat, hsaddr, hdaddr, hlen']

theorem tcpValidation_iff (f : Frame) : (tcpValidation f).found = (tcpValidation f).expected ↔
    (f.segment 6 (ipDataLength f)).KernelAccepts 8 :=
  (kernelAccepts_segment f 6 (Nat.mod_lt _ (by decide)) 8).symm

theorem udpValidation_iff (f : Frame) : (udpValidation f).found = (udpValidation f).expected ↔
    (f.segment 17 f.udpLength).KernelAccepts 3 :=
  (kernelAccepts_segment f 17 (half_lt _ _) 3).symm

namespace Segment

/-- The sum is that of RFC 1071 exactly if it does not overflow, and what is sent is accepted
exactly if besides the sum of a UDP packet is no multiple of 65535. -/
theorem transport_checksum_iff (s : Segment) :
    (s.checksum = (rfcChecksum s.summedBytes).toNat ↔ s.total < 2 ^ 32) ∧
      ∀ k, 2 * k + 2 ≤ s.len.toNat → s.field k = 0 →
        (s.Accepted k ↔ s.total < 2 ^ 32 ∧ ¬ (s.proto = 17 ∧ s.total % 65535 = 0)) :=
  ⟨s.checksum_eq_rfc_iff, fun _ => s.accepted_iff⟩

def emptyTcp (saddr daddr : BitVec 32) : Segment := ⟨fun _ => 0, saddr, daddr, 6, 0, 20⟩

theorem transport_checksum_local : (emptyTcp 0x0a000001 0x0a000002).Accepted 8 :=
  ((transport_checksum_iff _).2 8 (by decide) (by decide)).2 ⟨by decide, by decide⟩

/-- Between 192.168.0.1 and 192.168.0.2 the sum of the addresses alone loses a carry. And a
UDP datagram from 10.0.0.1 to 10.0.0.2 whose checksum is zero is not accepted. -/
theorem transport_checksum_wrong : (emptyTcp 0xc0a80001 0xc0a80002).checksum ≠
        (rfcChecksum (emptyTcp 0xc0a80001 0xc0a80002).summedBytes).toNat ∧
      ¬ (emptyTcp 0xc0a80001 0xc0a80002).Accepted 8 ∧ ¬ (Segment.mk
        (fun i => [0xeb, 0xa6, 0, 53, 0, 8, 0, 0].getD i 0) 0x0a000001 0x0a000002 17 0 8).Accepted
          3 := by
  refine ⟨?_, ?_, ?_⟩
  · decide
  · rw [accepted_iff _ (by decide) (by decide)]
    decide
  · rw [accepted_iff _ (by decide) (by decide)]
    decide

end Segment

end GzOS.Net
