import GzOS.CTypes
import GzOS.OnesComplement
import Mathlib.Tactic

/-!
# Receiving an IPv4 frame

A frame lies in a receive buffer of fixed capacity; the memory behind the received
bytes holds whatever was there. The target is big-endian, so `ntohs` and `ntohl` change
nothing. The functions record every span of bytes they read; a failed assertion is
`none`.
-/
namespace GzOS.Net
open OnesComplement

abbrev Memory := ℕ → Byte

/-- `pcnet_drv::PacketSize`, the capacity of a receive buffer. -/
def packetSize : ℕ := 1548

/-- `sizeof(ethernet_t)`: where the IP header starts. -/
def l3Offset : ℕ := 14

/-- `iphdr->data`: the end of the IP header without options. -/
def l4Offset : ℕ := 34

def sizeofIphdr : ℕ := 20
def sizeofTcp : ℕ := 20
def sizeofUdp : ℕ := 8

/-- Offsets count from the start of the buffer. -/
structure Frame where
  memory : Memory
  size : ℕ
  ethernet : l3Offset ≤ size
  fits : size ≤ packetSize

def half (mem : Memory) (pos : ℕ) : ℕ := 256 * (mem pos).toNat + (mem (pos + 1)).toNat
def word (mem : Memory) (pos : ℕ) : ℕ := 65536 * half mem pos + half mem (pos + 2)

lemma half_lt (mem : Memory) (pos : ℕ) : half mem pos < 65536 := by
  have h1 := (mem pos).toNat_lt
  have h2 := (mem (pos + 1)).toNat_lt
  unfold half
  omega

namespace Frame

def version (f : Frame) : ℕ := (f.memory l3Offset).toNat / 16
def ihl (f : Frame) : ℕ := (f.memory l3Offset).toNat % 16
def len (f : Frame) : ℕ := half f.memory (l3Offset + 2)
def fragOffset (f : Frame) : ℕ := half f.memory (l3Offset + 6)
def proto (f : Frame) : ℕ := (f.memory (l3Offset + 9)).toNat
def csum (f : Frame) : ℕ := half f.memory (l3Offset + 10)
def saddr (f : Frame) : ℕ := word f.memory (l3Offset + 12)
def daddr (f : Frame) : ℕ := word f.memory (l3Offset + 16)

/-- `tcp->hl`, read behind the IP header without options. -/
def hl (f : Frame) : ℕ := (f.memory (l4Offset + 12)).toNat / 16
def ackSeq (f : Frame) : ℕ := word f.memory (l4Offset + 8)
def tcpCsum (f : Frame) : ℕ := half f.memory (l4Offset + 16)

def isFin (f : Frame) : Bool := (f.memory (l4Offset + 13)).toNat % 2 == 1

def udpLength (f : Frame) : ℕ := half f.memory (l4Offset + 4)
def udpCsum (f : Frame) : ℕ := half f.memory (l4Offset + 6)

end Frame

lemma ihl_lt (f : Frame) : f.ihl < 16 := Nat.mod_lt _ (by decide)

lemma hl_lt (f : Frame) : f.hl < 16 := by
  have h := (f.memory (l4Offset + 12)).toNat_lt
  unfold Frame.hl
  omega

/-! ### Checksums -/

def sumEvery16Bits (mem : Memory) (addr : ℕ) : ℕ → ℕ
  | 0 => 0
  | 1 => 256 * (mem addr).toNat
  | count + 2 => half mem addr + sumEvery16Bits mem (addr + 2) count

def checksum (mem : Memory) (addr count startSum : ℕ) : ℕ :=
  65535 - fold 65536 2 ((startSum + sumEvery16Bits mem addr count) % 2 ^ 32)

/-- The addresses are added as 32-bit words. -/
def tcpUdpChecksum (mem : Memory) (saddr daddr proto data len : ℕ) : ℕ :=
  checksum mem data len ((saddr + daddr + proto + len) % 2 ^ 32)

/-- A checksum field that is zero while the sum is taken. -/
def zeroField (mem : Memory) (pos : ℕ) : Memory :=
  fun i => if i = pos ∨ i = pos + 1 then 0 else mem i

/-! ### Lengths, all of them 16-bit subtractions -/

def ipDataLength (f : Frame) : ℕ := (f.len + 65536 - 4 * f.ihl) % 65536
def tcpDataLength (f : Frame) : ℕ := (ipDataLength f + 65536 - 4 * f.hl) % 65536
def udpDataLength (f : Frame) : ℕ := (f.udpLength + 65536 - sizeofUdp) % 65536

def ipChecksum (f : Frame) : ℕ :=
  checksum (zeroField f.memory (l3Offset + 10)) l3Offset (4 * f.ihl) 0

def tcpChecksum (f : Frame) : ℕ :=
  tcpUdpChecksum (zeroField f.memory (l4Offset + 16)) f.saddr f.daddr 6 l4Offset (ipDataLength f)

def udpChecksum (f : Frame) : ℕ :=
  tcpUdpChecksum (zeroField f.memory (l4Offset + 6)) f.saddr f.daddr 17 l4Offset f.udpLength

/-! ### Reading functions -/

structure Span where
  start : ℕ
  length : ℕ
  deriving DecidableEq, Repr

abbrev Parser := StateT (List Span) Option

def read (start length : ℕ) : Parser Unit := fun spans => some ((), spans ++ [⟨start, length⟩])

/-- Against the capacity of a buffer. -/
def assertInRange (capacity pos : ℕ) : Parser Unit :=
  fun spans => if pos < capacity then some ((), spans) else none

def nbufSizeFrom (f : Frame) (pos : ℕ) : Parser ℕ := do
  assertInRange packetSize pos
  return (f.size + 2 ^ 32 - pos) % 2 ^ 32

def moreFragments (f : Frame) : ℕ := (f.fragOffset >>> 5) &&& 1

def ipIsValid (f : Frame) : Parser Bool := do
  if f.ihl < 5 then return false
  if moreFragments f ≠ 0 then return false
  read l3Offset (4 * f.ihl)
  return f.csum == ipChecksum f

/-- The first half of `ip_input`: the checks on the header. -/
def ipAccepts (f : Frame) : Parser Bool := do
  if (← nbufSizeFrom f l3Offset) < sizeofIphdr then return false
  read l3Offset sizeofIphdr
  if f.version ≠ 4 then return false
  ipIsValid f

structure Interface where
  address : ℕ
  netmask : ℕ
  deriving DecidableEq, Repr

def isIpOnSameNetwork (ip₁ ip₂ mask : ℕ) : Bool := ip₁ &&& mask == ip₂ &&& mask

inductive Protocol
  | icmp
  | tcp
  | udp
  deriving DecidableEq, Repr

def protocolOf (proto : ℕ) : Option Protocol :=
  if proto = 1 then some .icmp
  else if proto = 6 then some .tcp
  else if proto = 17 then some .udp
  else none

/-- `interface` is what `interface_get` returns. -/
def ipDispatch (f : Frame) : Option Interface → Option Protocol
  | none => none
  | some interface =>
    if isIpOnSameNetwork f.saddr interface.address interface.netmask then protocolOf f.proto
    else none

/-- The clone is as large as the frame, and the three header offsets are asserted to lie in
it. -/
def nbufClone (f : Frame) : Parser Unit := do
  read 0 f.size
  assertInRange f.size 0
  assertInRange f.size l3Offset
  assertInRange f.size l4Offset

def cloneForSockets (f : Frame) : ℕ → Parser Unit
  | 0 => pure ()
  | sockets + 1 => do
    nbufClone f
    cloneForSockets f sockets

/-- The protocol that the packet is handed to, if it is not dropped. -/
def ipInput (f : Frame) (rawSockets : ℕ) (interface : Option Interface) :
    Parser (Option Protocol) := do
  if (← ipAccepts f) = false then return none
  assertInRange packetSize l4Offset
  cloneForSockets f rawSockets
  return ipDispatch f interface

/-- The size of the fixed header, the length of the data, the number of bytes summed, and
the checksums. -/
structure Validation where
  fixed : ℕ
  dataLength : ℕ
  summedLength : ℕ
  found : ℕ
  expected : ℕ

/-- Both validations; after a mismatch the datagram is dumped. -/
def validatePacket (f : Frame) (v : Validation) : Parser Bool := do
  if (← nbufSizeFrom f l4Offset) < v.fixed then return false
  read l4Offset v.fixed
  if (← nbufSizeFrom f (l4Offset + v.fixed)) < v.dataLength then return false
  read l4Offset v.summedLength
  if v.found ≠ v.expected then
    read l3Offset f.len
    return false
  return true

def tcpValidation (f : Frame) : Validation :=
  ⟨sizeofTcp, tcpDataLength f, ipDataLength f, f.tcpCsum, tcpChecksum f⟩

def udpValidation (f : Frame) : Validation :=
  ⟨sizeofUdp, udpDataLength f, f.udpLength, f.udpCsum, udpChecksum f⟩

def tcpValidatePacket (f : Frame) : Parser Bool := validatePacket f (tcpValidation f)
def udpValidatePacket (f : Frame) : Parser Bool := validatePacket f (udpValidation f)

/-- What it reads in a session whose next number is `seq`. -/
def handleIncomingSegment (f : Frame) (seq : ℕ) : Parser Unit := do
  read l4Offset sizeofTcp
  if f.ackSeq ≠ seq then return ()
  if f.isFin then return ()
  if tcpDataLength f = 0 then return ()
  read (l4Offset + sizeofTcp) (tcpDataLength f)

/-- From `ip_input` to an established session. -/
def receive (f : Frame) (rawSockets : ℕ) (interface : Option Interface) (seq : ℕ) :
    Parser Unit := do
  match ← ipInput f rawSockets interface with
  | some .tcp =>
    if ← tcpValidatePacket f then handleIncomingSegment f seq
  | some .udp =>
    let _ ← udpValidatePacket f
  | _ => return ()

/-! ### What the reading functions return and read -/

/-- No assertion fails, `a` is returned and exactly `spans` are read. -/
def Yields {α : Type} (p : Parser α) (a : α) (spans : List Span) : Prop :=
  ∀ before, p before = some (a, before ++ spans)

section Rules
variable {α β : Type} {p : Parser α} {k : α → Parser β} {a : α} {b : β}
  {spans spans1 spans2 : List Span}

lemma yields_pure (a : α) : Yields (pure a) a [] := by
  intro before
  rw [List.append_nil]
  rfl

lemma Yields.bind_run (h : Yields p a spans) (before : List Span) :
    (p >>= k) before = k a (before ++ spans) := by
  show (p before).bind _ = _
  rw [h before]
  rfl

lemma Yields.bind (h1 : Yields p a spans1) (h2 : Yields (k a) b spans2) :
    Yields (p >>= k) b (spans1 ++ spans2) := by
  intro before
  rw [h1.bind_run before, ← List.append_assoc]
  exact h2 (before ++ spans1)

lemma bind_none {before : List Span} (h : p before = none) : (p >>= k) before = none := by
  show (p before).bind _ = none
  rw [h]
  rfl

lemma yields_read (start length : ℕ) : Yields (read start length) () [⟨start, length⟩] :=
  fun _ => rfl

lemma yields_assertInRange {capacity pos : ℕ} (h : pos < capacity) :
    Yields (assertInRange capacity pos) () [] := by
  intro before
  rw [assertInRange, if_pos h, List.append_nil]

lemma yields_nbufSizeFrom (f : Frame) (pos : ℕ) (hpos : pos < packetSize)
    (hsize : pos ≤ f.size) : Yields (nbufSizeFrom f pos) (f.size - pos) [] := by
  have hfits := f.fits
  unfold packetSize at hfits
  have hval : (f.size + 2 ^ 32 - pos) % 2 ^ 32 = f.size - pos := by omega
  rw [← hval]
  exact (yields_assertInRange hpos).bind (yields_pure _)

end Rules

/-- The header is complete, of version 4, long enough, and bit 5 of the flags is clear: it
is summed. -/
def HeaderSummed (f : Frame) : Prop :=
  l3Offset + sizeofIphdr ≤ f.size ∧ f.version = 4 ∧ 5 ≤ f.ihl ∧ moreFragments f = 0

instance (f : Frame) : Decidable (HeaderSummed f) := inferInstanceAs (Decidable (_ ∧ _ ∧ _ ∧ _))

/-- The header passes all checks of `ip_input` on it. -/
def HeaderAccepted (f : Frame) : Prop := HeaderSummed f ∧ f.csum = ipChecksum f

instance (f : Frame) : Decidable (HeaderAccepted f) := inferInstanceAs (Decidable (_ ∧ _))

def headerSpans (f : Frame) : List Span :=
  if l3Offset + sizeofIphdr ≤ f.size then
    [⟨l3Offset, sizeofIphdr⟩] ++ if HeaderSummed f then [⟨l3Offset, 4 * f.ihl⟩] else []
  else []

variable {f : Frame}

lemma yields_ipIsValid (hsize : l3Offset + sizeofIphdr ≤ f.size) (hversion : f.version = 4) :
    Yields (ipIsValid f) (decide (HeaderAccepted f))
      (if HeaderSummed f then [⟨l3Offset, 4 * f.ihl⟩] else []) := by
  unfold ipIsValid
  by_cases hihl : f.ihl < 5
  · have hnot : ¬ HeaderSummed f := fun h => absurd h.2.2.1 (by omega)
    rw [if_pos hihl, if_neg hnot, decide_eq_false (fun h => hnot h.1)]
    exact yields_pure false
  · by_cases hfrag : moreFragments f ≠ 0
    · have hnot : ¬ HeaderSummed f := fun h => hfrag h.2.2.2
      rw [if_neg hihl, if_pos hfrag, if_neg hnot, decide_eq_false (fun h => hnot h.1)]
      exact yields_pure false
    · have hsummed : HeaderSummed f := ⟨hsize, hversion, by omega, not_not.1 hfrag⟩
      have hvalue : (f.csum == ipChecksum f) = decide (HeaderAccepted f) := by
        simp [HeaderAccepted, hsummed, beq_eq_decide]
      rw [if_neg hihl, if_neg hfrag, if_pos hsummed, ← hvalue]
      exact (yields_read _ _).bind (yields_pure _)

lemma yields_ipAccepts (f : Frame) :
    Yields (ipAccepts f) (decide (HeaderAccepted f)) (headerSpans f) := by
  rw [← List.nil_append (headerSpans f)]
  refine (yields_nbufSizeFrom f l3Offset (by decide) f.ethernet).bind ?_
  unfold headerSpans
  by_cases hsize : l3Offset + sizeofIphdr ≤ f.size
  · have hlarge : ¬ f.size - l3Offset < sizeofIphdr := by omega
    rw [if_neg hlarge, if_pos hsize]
    refine (yields_read _ _).bind ?_
    by_cases hversion : f.version ≠ 4
    · have hnot : ¬ HeaderSummed f := fun h => hversion h.2.1
      rw [if_pos hversion, if_neg hnot, decide_eq_false (fun h => hnot h.1)]
      exact yields_pure false
    · rw [if_neg hversion]
      exact yields_ipIsValid hsize (not_not.1 hversion)
  · have hnot : ¬ HeaderSummed f := fun h => hsize h.1
    have hsmall : f.size - l3Offset < sizeofIphdr := by
      have := f.ethernet
      omega
    rw [if_pos hsmall, if_neg hsize, decide_eq_false (fun h => hnot h.1)]
    exact yields_pure false

def Clonable (f : Frame) (rawSockets : ℕ) : Prop := rawSockets = 0 ∨ l4Offset < f.size

instance (f : Frame) (rawSockets : ℕ) : Decidable (Clonable f rawSockets) :=
  inferInstanceAs (Decidable (_ ∨ _))

lemma yields_cloneForSockets (hsize : l4Offset < f.size) (sockets : ℕ) :
    Yields (cloneForSockets f sockets) () (List.replicate sockets ⟨0, f.size⟩) := by
  have hl3 : l3Offset < f.size := lt_trans (by decide) hsize
  have hclone : Yields (nbufClone f) () [⟨0, f.size⟩] :=
    (yields_read 0 f.size).bind
      ((yields_assertInRange (lt_of_le_of_lt (Nat.zero_le _) hl3)).bind
        ((yields_assertInRange hl3).bind (yields_assertInRange hsize)))
  induction sockets with
  | zero => exact yields_pure ()
  | succ sockets ih => exact hclone.bind ih

lemma yields_ipInput {rawSockets : ℕ} (interface : Option Interface)
    (hclonable : HeaderAccepted f → Clonable f rawSockets) :
    Yields (ipInput f rawSockets interface)
      (if HeaderAccepted f then ipDispatch f interface else none)
      (headerSpans f ++
        if HeaderAccepted f then List.replicate rawSockets ⟨0, f.size⟩ else []) := by
  refine (yields_ipAccepts f).bind ?_
  by_cases h : HeaderAccepted f
  · rw [if_pos h, if_pos h, decide_eq_true h]
    have hclones : Yields (cloneForSockets f rawSockets) ()
        (List.replicate rawSockets ⟨0, f.size⟩) := by
      rcases hclonable h with rfl | hsize
      · exact yields_pure ()
      · exact yields_cloneForSockets hsize rawSockets
    have hrest := hclones.bind (k := fun _ => pure (ipDispatch f interface)) (yields_pure _)
    rw [List.append_nil] at hrest
    exact (yields_assertInRange (by decide)).bind hrest
  · rw [if_neg h, if_neg h, decide_eq_false h]
    exact yields_pure none

lemma nbufClone_none (hl3 : l3Offset < f.size) (hl4 : ¬ l4Offset < f.size) (before : List Span) :
    nbufClone f before = none := by
  have hpos : 0 < f.size := lt_of_le_of_lt (Nat.zero_le _) hl3
  unfold nbufClone
  rw [(yields_read 0 f.size).bind_run, (yields_assertInRange hpos).bind_run,
    (yields_assertInRange hl3).bind_run]
  exact if_neg hl4

lemma ipInput_none {rawSockets : ℕ} (interface : Option Interface) (h : HeaderAccepted f)
    (hclonable : ¬ Clonable f rawSockets) (before : List Span) :
    ipInput f rawSockets interface before = none := by
  obtain ⟨hsockets, hsize⟩ := not_or.1 hclonable
  obtain ⟨sockets, rfl⟩ := Nat.exists_eq_succ_of_ne_zero hsockets
  have hl3 : l3Offset < f.size := lt_of_lt_of_le (by decide) h.1.1
  unfold ipInput
  rw [(yields_ipAccepts f).bind_run, decide_eq_true h, if_neg (by decide),
    (yields_assertInRange (by decide)).bind_run]
  exact bind_none (bind_none (nbufClone_none hl3 hsize _))

def Summed (f : Frame) (v : Validation) : Prop :=
  l4Offset + v.fixed ≤ f.size ∧ v.dataLength ≤ f.size - (l4Offset + v.fixed)

instance (f : Frame) (v : Validation) : Decidable (Summed f v) :=
  inferInstanceAs (Decidable (_ ∧ _))

def Validated (f : Frame) (v : Validation) : Prop := Summed f v ∧ v.found = v.expected

instance (f : Frame) (v : Validation) : Decidable (Validated f v) :=
  inferInstanceAs (Decidable (_ ∧ _))

def validationSpans (f : Frame) (v : Validation) : List Span :=
  if l4Offset + v.fixed ≤ f.size then
    [⟨l4Offset, v.fixed⟩] ++ if Summed f v then
        [⟨l4Offset, v.summedLength⟩] ++ if v.found = v.expected then [] else [⟨l3Offset, f.len⟩]
      else []
  else []

lemma yields_validatePacket {v : Validation} (hf : l4Offset ≤ f.size)
    (hfixed : l4Offset + v.fixed < packetSize) :
    Yields (validatePacket f v) (decide (Validated f v)) (validationSpans f v) := by
  rw [← List.nil_append (validationSpans f v)]
  refine (yields_nbufSizeFrom f l4Offset (by decide) hf).bind ?_
  unfold validationSpans
  by_cases hsize : l4Offset + v.fixed ≤ f.size
  · have hlarge : ¬ f.size - l4Offset < v.fixed := by omega
    rw [if_neg hlarge, if_pos hsize]
    refine (yields_read _ _).bind ?_
    rw [← List.nil_append (ite _ _ _)]
    refine (yields_nbufSizeFrom f (l4Offset + v.fixed) hfixed hsize).bind ?_
    by_cases hdata : f.size - (l4Offset + v.fixed) < v.dataLength
    · have hnot : ¬ Summed f v := fun h => absurd h.2 (by omega)
      rw [if_pos hdata, if_neg hnot, decide_eq_false (fun h => hnot h.1)]
      exact yields_pure false
    · have hsummed : Summed f v := ⟨hsize, by omega⟩
      rw [if_neg hdata, if_pos hsummed]
      refine (yields_read _ _).bind ?_
      by_cases hvalid : v.found = v.expected
      · rw [if_neg (not_not.2 hvalid), if_pos hvalid, decide_eq_true ⟨hsummed, hvalid⟩]
        exact yields_pure true
      · rw [if_pos hvalid, if_neg hvalid, decide_eq_false (fun h => hvalid h.2)]
        exact (yields_read _ _).bind (yields_pure false)
  · have hsmall : f.size - l4Offset < v.fixed := by omega
    rw [if_pos hsmall, if_neg hsize, decide_eq_false (fun h => hsize h.1.1)]
    exact yields_pure false

def DataTaken (f : Frame) (seq : ℕ) : Prop := f.ackSeq = seq ∧ f.isFin = false ∧ tcpDataLength f ≠ 0

instance (f : Frame) (seq : ℕ) : Decidable (DataTaken f seq) :=
  inferInstanceAs (Decidable (_ ∧ _ ∧ _))

def segmentSpans (f : Frame) (seq : ℕ) : List Span :=
  [⟨l4Offset, sizeofTcp⟩] ++
    if DataTaken f seq then [⟨l4Offset + sizeofTcp, tcpDataLength f⟩] else []

lemma yields_handleIncomingSegment (f : Frame) (seq : ℕ) :
    Yields (handleIncomingSegment f seq) () (segmentSpans f seq) := by
  refine (yields_read _ _).bind ?_
  by_cases hseq : f.ackSeq ≠ seq
  · rw [if_pos hseq, if_neg (fun h : DataTaken f seq => hseq h.1)]
    exact yields_pure ()
  rw [if_neg hseq]
  by_cases hfin : f.isFin
  · rw [if_pos hfin, if_neg (fun h : DataTaken f seq => absurd hfin (by simp [h.2.1]))]
    exact yields_pure ()
  · rw [if_neg hfin]
    by_cases hdata : tcpDataLength f = 0
    · rw [if_pos hdata, if_neg (fun h : DataTaken f seq => h.2.2 hdata)]
      exact yields_pure ()
    · have htaken : DataTaken f seq :=
        ⟨not_not.1 hseq, Bool.not_eq_true _ ▸ hfin, hdata⟩
      rw [if_neg hdata, if_pos htaken]
      exact yields_read _ _

end GzOS.Net
