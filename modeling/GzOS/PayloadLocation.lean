import GzOS.IpAcceptance
import GzOS.TcpSession

/-!
# Where the data of a segment is taken from

The TCP header is looked for behind an IP header without options, and the data behind a
TCP header without options, while the length of the data is computed from both header
lengths. With options the session receives bytes that start too early.
-/
namespace GzOS.Net
open OnesComplement List

def slice (mem : Memory) (start length : ℕ) : List Byte :=
  (range length).map fun i => mem (start + i)

@[simp] lemma length_slice (mem : Memory) (start length : ℕ) :
    (slice mem start length).length = length := by simp [slice]

lemma slice_append (mem : Memory) (start m n : ℕ) :
    slice mem start m ++ slice mem (start + m) n = slice mem start (m + n) := by
  simp [slice, range_add, Nat.add_assoc]

lemma slice_eq_iff {mem : Memory} {start1 start2 m n : ℕ} :
    slice mem start1 m = slice mem start2 n ↔
      m = n ∧ ∀ i < n, mem (start1 + i) = mem (start2 + i) := by
  constructor
  · intro h
    have hlen : m = n := by simpa using congrArg length h
    subst hlen
    refine ⟨rfl, fun i hi => ?_⟩
    have hi' := map_inj_left.1 h i (mem_range.2 hi)
    exact hi'
  · rintro ⟨rfl, h⟩
    exact map_inj_left.2 fun i hi => h i (mem_range.1 hi)

def tcpStart (f : Frame) : ℕ := l3Offset + 4 * f.ihl

def sentHl (f : Frame) : ℕ := (f.memory (tcpStart f + 12)).toNat / 16

def payloadLength (f : Frame) : ℕ := f.len - 4 * f.ihl - 4 * sentHl f

def payload (f : Frame) : List Byte :=
  slice f.memory (tcpStart f + 4 * sentHl f) (payloadLength f)

def optionBytes (f : Frame) : ℕ := 4 * f.ihl + 4 * sentHl f - 40

def SegmentChecksumValid (f : Frame) : Prop :=
  fold 65536 2 (f.saddr / 65536 + f.saddr % 65536 + f.daddr / 65536 + f.daddr % 65536 + 6 +
    (f.len - 4 * f.ihl) + sumEvery16Bits f.memory (tcpStart f) (f.len - 4 * f.ihl)) = 65535

instance (f : Frame) : Decidable (SegmentChecksumValid f) := inferInstanceAs (Decidable (_ = _))

/-- Headers have their least sizes and fit, and the checksums are right. -/
structure WellFormed (f : Frame) : Prop where
  ihl : 5 ≤ f.ihl
  sentHl : 5 ≤ sentHl f
  headers : 4 * f.ihl + 4 * Net.sentHl f ≤ f.len
  received : l3Offset + f.len ≤ f.size
  header : ChecksumValid f
  segment : SegmentChecksumValid f

/-- The segment at the place where `tcp_hdr` points to. -/
def segmentAt (f : Frame) (h : Summed f (tcpValidation f)) : Tcp.Segment where
  seq := BitVec.ofNat 32 (word f.memory (l4Offset + 4))
  ackSeq := BitVec.ofNat 32 f.ackSeq
  flags :=
    let flags := (f.memory (l4Offset + 13)).toNat
    { fin := f.isFin, syn := flags.testBit 1, rst := flags.testBit 2, psh := flags.testBit 3
      ack := flags.testBit 4 }
  options := slice f.memory (l4Offset + sizeofTcp) (4 * f.hl - sizeofTcp)
  payload := slice f.memory (l4Offset + sizeofTcp + (4 * f.hl - sizeofTcp)) (tcpDataLength f)
  fits := by
    have hdata : tcpDataLength f ≤ f.size - (l4Offset + sizeofTcp) := h.2
    have hfits := f.fits
    have hhl := hl_lt f
    rw [length_slice, length_slice]
    unfold packetSize at hfits
    omega

lemma copyData_segmentAt (f : Frame) (h : Summed f (tcpValidation f)) :
    Tcp.copyData (segmentAt f h) (Tcp.tcpDataLength (segmentAt f h)) =
      slice f.memory (l4Offset + sizeofTcp) (tcpDataLength f) := by
  have hlength : Tcp.tcpDataLength (segmentAt f h) = tcpDataLength f := by
    rw [Tcp.tcpDataLength_eq]
    exact length_slice _ _ _
  rw [hlength]
  show (slice _ _ _ ++ slice _ _ _).take _ = _
  rw [slice_append, slice, ← map_take, take_range, Nat.min_eq_left (Nat.le_add_left _ _)]
  rfl

/-- It passes `ip_input`, the validation and the first tests of the handler. -/
structure Accepted (f : Frame) (rawSockets : ℕ) (interface : Option Interface)
    (s : Tcp.Session) : Prop where
  handed : ∃ spans, ipInput f rawSockets interface [] = some (some .tcp, spans)
  valid : ∃ spans, tcpValidatePacket f [] = some (true, spans)
  established : ∃ w, s.state = .established w
  seqMatch : BitVec.ofNat 32 f.ackSeq = s.seq
  notFin : f.isFin = false

lemma Accepted.summed {f : Frame} {rawSockets : ℕ} {interface : Option Interface}
    {s : Tcp.Session} (h : Accepted f rawSockets interface s) : Summed f (tcpValidation f) := by
  obtain ⟨spans, hspans⟩ := h.handed
  have hpass := (handsOver_iff f rawSockets interface).1 ⟨_, spans, hspans⟩
  have hl4 : l4Offset ≤ f.size := hpass.1.1.1
  have hfixed : l4Offset + sizeofTcp < packetSize := by decide
  obtain ⟨spans', hvalid⟩ := h.valid
  have hrun := yields_validatePacket (v := tcpValidation f) hl4 hfixed []
  rw [show validatePacket f (tcpValidation f) [] = some (true, spans') from hvalid] at hrun
  have htrue := (congrArg Prod.fst (Option.some.inj hrun)).symm
  exact (of_decide_eq_true htrue).1

variable {f : Frame}

lemma processInSegment_inputBuffer {rawSockets : ℕ} {interface : Option Interface}
    {s : Tcp.Session} (o1 o2 : Tcp.Outcome) (h : Accepted f rawSockets interface s) :
    (s.processInSegment (segmentAt f h.summed) o1 o2).inputBuffer =
      s.inputBuffer ++ slice f.memory (l4Offset + sizeofTcp) (tcpDataLength f) := by
  obtain ⟨w, hw⟩ := h.established
  have hseq : s.isSeqMatch (segmentAt f h.summed) := beq_iff_eq.2 h.seqMatch
  have hprocess : s.processInSegment (segmentAt f h.summed) o1 o2 =
      s.handleEstablished (segmentAt f h.summed) o1 := by
    simp only [Tcp.Session.processInSegment, hw]
  rw [hprocess, Tcp.handleEstablished_input, if_pos ⟨hseq, h.notFin⟩, copyData_segmentAt]

lemma tcpDataLength_eq_iff (hwf : WellFormed f) :
    tcpDataLength f = payloadLength f ↔ f.hl = sentHl f := by
  have hheaders := hwf.headers
  have hlen : f.len < 65536 := half_lt _ _
  have hhl := hl_lt f
  unfold payloadLength
  unfold tcpDataLength ipDataLength at *
  omega

/-- There are no options, or the header length is also found at the place without them and
the data repeats the bytes as far before it. -/
def OptionsHarmless (f : Frame) : Prop :=
  (f.ihl = 5 ∧ sentHl f = 5) ∨
    (f.hl = sentHl f ∧ ∀ i < payloadLength f,
      f.memory (l4Offset + sizeofTcp + i) = f.memory (l4Offset + sizeofTcp + optionBytes f + i))

lemma payload_start (hwf : WellFormed f) :
    tcpStart f + 4 * sentHl f = l4Offset + sizeofTcp + optionBytes f := by
  have h1 := hwf.ihl
  have h2 := hwf.sentHl
  unfold tcpStart optionBytes l3Offset l4Offset sizeofTcp
  omega

lemma payload_eq_iff (hwf : WellFormed f) :
    slice f.memory (l4Offset + sizeofTcp) (tcpDataLength f) = payload f ↔ OptionsHarmless f := by
  unfold payload
  rw [slice_eq_iff, tcpDataLength_eq_iff hwf, payload_start hwf]
  constructor
  · exact Or.inr
  rintro (⟨hihl, hsent⟩ | h)
  · have hstart : tcpStart f = l4Offset := by
      unfold tcpStart
      rw [hihl]
      rfl
    have hnone : optionBytes f = 0 := by
      unfold optionBytes
      omega
    refine ⟨?_, fun i _ => by rw [hnone, add_zero]⟩
    unfold sentHl
    rw [hstart]
    rfl
  · exact h

/-- The session receives the bytes behind both headers exactly if the options
do no harm. -/
theorem appended_eq_payload_iff (f : Frame) (rawSockets : ℕ) (interface : Option Interface)
    (s : Tcp.Session) (o₁ o₂ : Tcp.Outcome) (hwf : WellFormed f)
    (h : Accepted f rawSockets interface s) :
    (s.processInSegment (segmentAt f h.summed) o₁ o₂).inputBuffer = s.inputBuffer ++ payload f ↔
      OptionsHarmless f := by
  rw [processInSegment_inputBuffer o₁ o₂ h, List.append_cancel_left_eq]
  exact payload_eq_iff hwf

def plainSegment : Frame where
  memory i := ([0, 0, 0, 0, 0, 0, 0, 0, 0, 0, 0, 0, 8, 0,
    0x45, 0, 0, 0x29, 0, 0, 0, 0, 0x40, 6, 0x66, 0xcd, 10, 0, 0, 2, 10, 0, 0, 1,
    0, 80, 0, 81, 0, 0, 0, 0, 0, 0, 0, 0, 0x50, 0x10, 0, 0, 0x5a, 0x30, 0, 0,
    0x41] : List Byte).getD i 0
  size := 55
  ethernet := by decide
  fits := by decide

def optionSegment : Frame where
  memory i := ([0, 0, 0, 0, 0, 0, 0, 0, 0, 0, 0, 0, 8, 0,
    0x45, 0, 0, 0x2d, 0, 0, 0, 0, 0x40, 6, 0x66, 0xc9, 10, 0, 0, 2, 10, 0, 0, 1,
    0, 80, 0, 81, 0, 0, 0, 0, 0, 0, 0, 0, 0x60, 0x10, 0, 0, 0x48, 0x2a, 0, 0,
    1, 1, 1, 1, 0x41] : List Byte).getD i 0
  size := 59
  ethernet := by decide
  fits := by decide

def localNetwork : Option Interface := some ⟨0x0a000001, 0xffffff00⟩

def openSession : Tcp.Session := { state := .established false, seq := 0, receiveNextAck := 0 }

theorem plainSegment_appended : ∃ h : Accepted plainSegment 0 localNetwork openSession,
    (openSession.processInSegment (segmentAt plainSegment h.summed) {} {}).inputBuffer =
      openSession.inputBuffer ++ payload plainSegment := by
  have hwf : WellFormed plainSegment :=
    ⟨by decide, by decide, by decide, by decide, by decide +kernel, by decide +kernel⟩
  have h : Accepted plainSegment 0 localNetwork openSession :=
    ⟨⟨[⟨14, 20⟩, ⟨14, 20⟩], by decide +kernel⟩, ⟨[⟨34, 20⟩, ⟨34, 21⟩], by decide +kernel⟩,
      ⟨false, rfl⟩, by decide +kernel, by decide⟩
  refine ⟨h, (appended_eq_payload_iff _ _ _ _ {} {} hwf h).2 (.inl ?_)⟩
  decide

/-- The session receives the first option byte in place of the data. -/
theorem optionSegment_appended : ∃ (_ : WellFormed optionSegment)
    (h : Accepted optionSegment 0 localNetwork openSession),
    (openSession.processInSegment (segmentAt optionSegment h.summed) {} {}).inputBuffer ≠
      openSession.inputBuffer ++ payload optionSegment := by
  have hwf : WellFormed optionSegment :=
    ⟨by decide, by decide, by decide, by decide, by decide +kernel, by decide +kernel⟩
  have h : Accepted optionSegment 0 localNetwork openSession :=
    ⟨⟨[⟨14, 20⟩, ⟨14, 20⟩], by decide +kernel⟩, ⟨[⟨34, 20⟩, ⟨34, 25⟩], by decide +kernel⟩,
      ⟨false, rfl⟩, by decide +kernel, by decide⟩
  refine ⟨hwf, h, ?_⟩
  rw [processInSegment_inputBuffer {} {} h]
  decide +kernel

end GzOS.Net
