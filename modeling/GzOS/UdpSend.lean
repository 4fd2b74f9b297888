import GzOS.IpInput

/-!
# Sending a UDP datagram

The size of the payload is a `size_t`. On its way down it is narrowed to 16 bits and the sizes
of the headers are added in 16 bits, and the buffer is allocated for the result; the copy of
the payload takes the size as it was.
-/
namespace GzOS.UdpSend
open Net (Span sizeofIphdr sizeofUdp)

structure IpHeader where
  version : ℕ
  ihl : ℕ
  len : UInt16
  id : UInt16
  ttl : UInt8
  proto : UInt8
  saddr : UInt32
  daddr : UInt32

structure UdpHeader where
  sport : UInt16
  dport : UInt16
  length : UInt16
  csum : UInt16

structure Packet where
  capacity : ℕ
  size : ℕ
  ip : IpHeader
  udp : UdpHeader

/-- The address of a route's interface, whether there is memory for a size, the next
identifier, and whether `ip_output` returns 0. -/
structure Network where
  route : UInt32 → Option UInt32
  memory : ℕ → Bool
  nextId : UInt16
  output : Bool

structure SocketAddress where
  address : UInt32
  port : UInt16

def sizeofEthernet : ℕ := 14

def nbufAlloc (net : Network) (size : ℕ) : Option ℕ :=
  if 0 < size ∧ net.memory size then some size else none

def ethernetAllocNbuf (net : Network) (size : ℕ) : Option ℕ := nbufAlloc net (sizeofEthernet + size)

def ipAllocNbuf (net : Network) (dst : UInt32) (ttl proto : UInt8) (size : UInt16) :
    Option Packet :=
  (net.route dst).bind fun saddr =>
    (ethernetAllocNbuf net (sizeofIphdr + size.toNat)).map fun capacity =>
      { capacity := capacity
        size := capacity
        ip := ⟨4, 5, UInt16.ofNat (sizeofIphdr + size.toNat), net.nextId, ttl, proto, saddr, dst⟩
        udp := ⟨0, 0, 0, 0⟩ }

def udpAllocNbuf (net : Network) (destinationIp : UInt32) (destinationPort size : UInt16) :
    Option Packet :=
  let udpSize := UInt16.ofNat (sizeofUdp + size.toNat)
  (ipAllocNbuf net destinationIp 64 17 udpSize).map fun packet =>
    { packet with udp := ⟨0, destinationPort, udpSize, 0⟩ }

/-- The result, and the packet with the bytes of its buffer, if it came to that. -/
structure Outcome where
  result : ℤ
  written : Option (Packet × Span)

/-- `bind` is the port that a descriptor without one gets. -/
def sendto (net : Network) (sourcePort : UInt16) (bind : Option UInt16) (size : UInt32)
    (address : SocketAddress) : Outcome :=
  if address.address = 0 ∨ address.port = 0 then ⟨-1, none⟩
  else
    match udpAllocNbuf net address.address address.port size.toUInt16 with
    | none => ⟨-1, none⟩
    | some packet =>
      match if sourcePort = 0 then bind else some sourcePort with
      | none => ⟨-1, none⟩
      | some port =>
        let data := sizeofEthernet + sizeofIphdr + sizeofUdp
        let packet := { packet with udp := { packet.udp with sport := port } }
        ⟨if net.output then size.toBitVec.toInt else -1, some (packet, ⟨data, size.toNat⟩)⟩

/-- All bytes are copied into the packet, and both length fields say so. -/
structure Exact (size : ℕ) (packet : Packet) (copied : Span) : Prop where
  all : copied.length = size
  inside : copied.start + copied.length ≤ packet.capacity
  udpLength : packet.udp.length.toNat = size + 8
  ipLength : packet.ip.len.toNat = size + 28
  covers : sizeofEthernet + sizeofIphdr + sizeofUdp + size ≤ packet.size

section Alloc

variable {net : Network} {address : SocketAddress} {size : UInt32}

end Alloc

end GzOS.UdpSend
