import GzOS.IpInput

/-!
# The bytes that parsing a frame reads

The checksum of the header takes as many words as the header says, the one of a segment
as many bytes as the IP header says, and a datagram with a wrong checksum is dumped for
its whole length; none of the three is compared with the bytes received. All other reads
stay inside the frame. A frame that ends with its IP header cannot be cloned.
-/
namespace GzOS.Net
open List

def InBounds (limit : ℕ) (spans : List Span) : Prop :=
  ∀ s ∈ spans, ∀ i, s.start ≤ i → i < s.start + s.length → i < limit

lemma inBounds_nil (limit : ℕ) : InBounds limit [] := by simp [InBounds]

lemma inBounds_append {limit : ℕ} {spans1 spans2 : List Span} :
    InBounds limit (spans1 ++ spans2) ↔ InBounds limit spans1 ∧ InBounds limit spans2 := by
  simp only [InBounds, mem_append, or_imp, forall_and]

lemma inBounds_singleton {limit start length : ℕ} (h : start ≤ limit) :
    InBounds limit [⟨start, length⟩] ↔ start + length ≤ limit := by
  simp only [InBounds, mem_singleton, forall_eq]
  constructor
  · intro hall
    by_contra hover
    exact absurd (hall limit h (by omega)) (lt_irrefl limit)
  · intro hle i _ hi
    omega

lemma inBounds_ite {limit : ℕ} {c : Prop} [Decidable c] {spans : List Span} :
    InBounds limit (if c then spans else []) ↔ (c → InBounds limit spans) := by
  by_cases h : c
  · simp [h]
  · simp [h, inBounds_nil]

def protocolSpans (f : Frame) (seq : ℕ) : Option Protocol → List Span
  | some .tcp => validationSpans f (tcpValidation f) ++
      if Validated f (tcpValidation f) then segmentSpans f seq else []
  | some .udp => validationSpans f (udpValidation f)
  | _ => []

def receiveSpans (f : Frame) (rawSockets : ℕ) (interface : Option Interface) (seq : ℕ) :
    List Span :=
  (headerSpans f ++ if HeaderAccepted f then replicate rawSockets ⟨0, f.size⟩ else []) ++
    if HeaderAccepted f then protocolSpans f seq (ipDispatch f interface) else []

lemma yields_receive {f : Frame} {rawSockets : ℕ} (interface : Option Interface) (seq : ℕ)
    (hclonable : HeaderAccepted f → Clonable f rawSockets) :
    Yields (receive f rawSockets interface seq) ()
      (receiveSpans f rawSockets interface seq) := by
  refine (yields_ipInput interface hclonable).bind ?_
  by_cases h : HeaderAccepted f
  · rw [if_pos h, if_pos h]
    have hl4 : l4Offset ≤ f.size := h.1.1
    cases hd : ipDispatch f interface with
    | none => exact yields_pure ()
    | some protocol =>
      cases protocol with
      | icmp => exact yields_pure ()
      | tcp =>
        have hfixed : l4Offset + sizeofTcp < packetSize := by decide
        refine (yields_validatePacket hl4 hfixed).bind ?_
        by_cases hv : Validated f (tcpValidation f)
        · rw [if_pos hv, decide_eq_true hv]
          exact yields_handleIncomingSegment f seq
        · rw [if_neg hv, decide_eq_false hv]
          exact yields_pure ()
      | udp =>
        have hfixed : l4Offset + sizeofUdp < packetSize := by decide
        have hrest := (yields_validatePacket (v := udpValidation f) hl4 hfixed).bind
          (k := fun _ => pure ()) (yields_pure ())
        rw [append_nil] at hrest
        exact hrest
  · rw [if_neg h, if_neg h]
    exact yields_pure ()

section Limit
variable {f : Frame} {limit : ℕ}

lemma headerSpans_inBounds (hlimit : f.size ≤ limit) :
    InBounds limit (headerSpans f) ↔ (HeaderSummed f → l3Offset + 4 * f.ihl ≤ limit) := by
  have hl3 : l3Offset ≤ limit := f.ethernet.trans hlimit
  unfold headerSpans
  rw [inBounds_ite]
  constructor
  · intro h hsummed
    have hparts := inBounds_append.1 (h hsummed.1)
    exact (inBounds_singleton hl3).1 (inBounds_ite.1 hparts.2 hsummed)
  · intro h hsize
    rw [inBounds_append, inBounds_singleton hl3, inBounds_ite, inBounds_singleton hl3]
    exact ⟨by omega, h⟩

lemma validationSpans_inBounds (v : Validation) (hlimit : f.size ≤ limit) :
    InBounds limit (validationSpans f v) ↔ (Summed f v → l4Offset + v.summedLength ≤ limit ∧
        (v.found ≠ v.expected → l3Offset + f.len ≤ limit)) := by
  have hl3 : l3Offset ≤ limit := f.ethernet.trans hlimit
  unfold validationSpans
  rw [inBounds_ite]
  constructor
  · intro h hsummed
    have hl4 : l4Offset ≤ limit := by
      have := hsummed.1
      omega
    have hparts := inBounds_append.1 (inBounds_ite.1 (inBounds_append.1 (h hsummed.1)).2 hsummed)
    refine ⟨(inBounds_singleton hl4).1 hparts.1, fun hne => ?_⟩
    have hdump := hparts.2
    rw [if_neg hne] at hdump
    exact (inBounds_singleton hl3).1 hdump
  · intro h hsize
    have hl4 : l4Offset ≤ limit := by omega
    rw [inBounds_append, inBounds_singleton hl4, inBounds_ite]
    refine ⟨by omega, fun hsummed => ?_⟩
    rw [inBounds_append, inBounds_singleton hl4]
    refine ⟨(h hsummed).1, ?_⟩
    split
    · exact inBounds_nil limit
    · next hne => exact (inBounds_singleton hl3).2 ((h hsummed).2 hne)

lemma segmentSpans_inBounds (seq : ℕ) (hlimit : f.size ≤ limit)
    (h : Summed f (tcpValidation f)) : InBounds limit (segmentSpans f seq) := by
  have hsize : l4Offset + sizeofTcp ≤ f.size := h.1
  have hdata : tcpDataLength f ≤ f.size - (l4Offset + sizeofTcp) := h.2
  unfold segmentSpans
  rw [inBounds_append, inBounds_singleton (by omega), inBounds_ite]
  refine ⟨by omega, fun _ => ?_⟩
  rw [inBounds_singleton (by omega)]
  omega

lemma udp_summed_le (h : Summed f (udpValidation f)) : l4Offset + f.udpLength ≤ f.size := by
  have hsize : l4Offset + sizeofUdp ≤ f.size := h.1
  have hdata : udpDataLength f ≤ f.size - (l4Offset + sizeofUdp) := h.2
  have hlength : f.udpLength < 65536 := half_lt _ _
  unfold udpDataLength at hdata
  omega

end Limit

/-- The lengths that no check bounds: of the header summed, the frame cloned, the segment
summed and the datagram dumped. -/
structure LengthsFit (f : Frame) (rawSockets : ℕ) (interface : Option Interface)
    (limit : ℕ) : Prop where
  header : HeaderSummed f → l3Offset + 4 * f.ihl ≤ limit
  clones : HeaderAccepted f → Clonable f rawSockets
  segment : HeaderAccepted f → ipDispatch f interface = some .tcp →
    Summed f (tcpValidation f) → l4Offset + ipDataLength f ≤ limit
  tcpDump : HeaderAccepted f → ipDispatch f interface = some .tcp →
    Summed f (tcpValidation f) → f.tcpCsum ≠ tcpChecksum f → l3Offset + f.len ≤ limit
  udpDump : HeaderAccepted f → ipDispatch f interface = some .udp →
    Summed f (udpValidation f) → f.udpCsum ≠ udpChecksum f → l3Offset + f.len ≤ limit

def ReadsInside (f : Frame) (rawSockets : ℕ) (interface : Option Interface)
    (seq limit : ℕ) : Prop :=
  ∃ spans, receive f rawSockets interface seq [] = some ((), spans) ∧ InBounds limit spans

/-- Every byte that is read lies below the limit exactly if the lengths fit. -/
lemma receiveSpans_inBounds {f : Frame} {rawSockets limit : ℕ} {interface : Option Interface}
    (seq : ℕ) (hlimit : f.size ≤ limit) (hclonable : HeaderAccepted f → Clonable f rawSockets) :
    InBounds limit (receiveSpans f rawSockets interface seq) ↔
      LengthsFit f rawSockets interface limit := by
  unfold receiveSpans
  rw [inBounds_append, inBounds_append, headerSpans_inBounds hlimit, inBounds_ite, inBounds_ite]
  constructor
  · rintro ⟨⟨hheader, -⟩, hrest⟩
    refine ⟨hheader, hclonable, ?_, ?_, ?_⟩
    · intro haccepted hd hsummed
      have h := hrest haccepted
      rw [hd] at h
      exact ((validationSpans_inBounds _ hlimit).1 (inBounds_append.1 h).1 hsummed).1
    · intro haccepted hd hsummed
      have h := hrest haccepted
      rw [hd] at h
      exact ((validationSpans_inBounds _ hlimit).1 (inBounds_append.1 h).1 hsummed).2
    · intro haccepted hd hsummed
      have h := hrest haccepted
      rw [hd] at h
      exact ((validationSpans_inBounds _ hlimit).1 h hsummed).2
  · intro h
    have hclones : InBounds limit (replicate rawSockets ⟨0, f.size⟩) := by
      intro s hs i _ hi
      rw [eq_of_mem_replicate hs, zero_add] at hi
      exact hi.trans_le hlimit
    refine ⟨⟨h.header, fun _ => hclones⟩, fun haccepted => ?_⟩
    unfold protocolSpans
    split
    · next hd =>
      rw [inBounds_append, validationSpans_inBounds _ hlimit, inBounds_ite]
      refine ⟨fun hsummed => ⟨h.segment haccepted hd hsummed, h.tcpDump haccepted hd hsummed⟩, ?_⟩
      intro hvalidated
      exact segmentSpans_inBounds seq hlimit hvalidated.1
    · next hd =>
      rw [validationSpans_inBounds _ hlimit]
      intro hsummed
      exact ⟨(udp_summed_le hsummed).trans hlimit, h.udpDump haccepted hd hsummed⟩
    · exact inBounds_nil limit

/-- Whichever limit counts, the received bytes or more of the buffer: parsing
stays below it exactly if the lengths do. -/
theorem readsInside_iff (f : Frame) (rawSockets : ℕ) (interface : Option Interface)
    (seq limit : ℕ) (hlimit : f.size ≤ limit) :
    ReadsInside f rawSockets interface seq limit ↔ LengthsFit f rawSockets interface limit := by
  by_cases hclonable : HeaderAccepted f → Clonable f rawSockets
  · rw [← receiveSpans_inBounds seq hlimit hclonable]
    have hrun := yields_receive interface seq hclonable []
    constructor
    · rintro ⟨spans, hspans, hin⟩
      rw [hrun] at hspans
      cases hspans
      exact hin
    · intro hin
      exact ⟨_, hrun, hin⟩
  · obtain ⟨haccepted, hnot⟩ := Classical.not_imp.1 hclonable
    constructor
    · rintro ⟨spans, hspans, -⟩
      rw [receive, bind_none (ipInput_none interface haccepted hnot _)] at hspans
      cases hspans
    · intro h
      exact absurd h.clones hclonable

lemma bareDatagram_ethernet : l3Offset ≤ 34 := by decide

lemma bareDatagram_fits : 34 ≤ packetSize := by decide

def bareDatagram : Frame where
  memory i := ([0, 0, 0, 0, 0, 0, 0, 0, 0, 0, 0, 0, 8, 0,
    0x45, 0, 0, 0x14, 0, 0, 0, 0, 0x40, 1, 0x66, 0xe7, 10, 0, 0, 2, 10, 0, 0, 1]
      : List Byte).getD i 0
  size := 34
  ethernet := bareDatagram_ethernet
  fits := bareDatagram_fits

theorem bareDatagram_readsInside :
    ReadsInside bareDatagram 0 (some ⟨0x0a000001, 0xffffff00⟩) 0 bareDatagram.size := by
  refine (readsInside_iff bareDatagram 0 _ 0 bareDatagram.size le_rfl).2 ⟨?_, ?_, ?_, ?_, ?_⟩
  · intro _
    decide +kernel
  · exact fun _ => .inl rfl
  all_goals
    intro _ h
    cases h

/-- The TCP header claims fifteen words, so an IP length of 1574 passes. -/
def overlongSegment : Frame where
  memory i := ([0, 0, 0, 0, 0, 0, 0, 0, 0, 0, 0, 0, 8, 0,
    0x45, 0, 6, 0x26, 0, 0, 0, 0, 0x40, 6, 0x60, 0xd0, 10, 0, 0, 2, 10, 0, 0, 1,
    0, 0, 0, 0, 0, 0, 0, 0, 0, 0, 0, 0, 0xf0] : List Byte).getD i 0
  size := packetSize
  ethernet := by decide
  fits := le_rfl

/-- The checksum of the segment runs past the end of the buffer. -/
theorem overlongSegment_not_readsInside :
    ¬ ReadsInside overlongSegment 0 (some ⟨0x0a000001, 0xffffff00⟩) 0 packetSize := by
  rintro ⟨spans, hspans, hin⟩
  have hclonable : HeaderAccepted overlongSegment → Clonable overlongSegment 0 := fun _ => .inl rfl
  have hrun := yields_receive (some ⟨0x0a000001, 0xffffff00⟩) 0 hclonable []
  rw [hspans, nil_append] at hrun
  cases hrun
  have hfit := (receiveSpans_inBounds 0 overlongSegment.fits hclonable).1 hin
  have hle := hfit.segment (by decide +kernel) (by decide +kernel) (by decide +kernel)
  revert hle
  decide +kernel

end GzOS.Net
