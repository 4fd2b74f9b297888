import GzOS.AcceptQueue
import GzOS.IpInput

/-!
# Network buffers on the receive path

Buffers are numbered in the order of their allocation. A buffer that was given away
sits in a bounded queue, or with a resolution that waits for its timer, or was freed.
`grants` has one answer for each call of `nbuf_alloc`.

Handling a frame stops the kernel, which is `none`, when a clone that was not allocated
is used and when an assertion on a clone fails.
-/
namespace GzOS.Net
open Tcp.Input (BasicQueue)

structure UdpSession where
  port : ℕ
  rxQueue : BasicQueue ℕ

/-- In a buffer of its own, with the buffer of the `ArpResolveContext` and the packet. -/
structure ArpContext where
  buffer : ℕ
  callbackContext : ℕ
  packet : ℕ
  deriving DecidableEq, Repr

/-- `hasDevice`: the device of the interface is registered. -/
structure Route where
  destAddr : ℕ
  netmask : ℕ
  hasDevice : Bool
  deriving DecidableEq, Repr

structure World where
  mac : List Byte
  interface : Option Interface
  routes : List Route
  arpCache : List ℕ
  txQueue : BasicQueue ℕ
  inSegments : BasicQueue ℕ
  udpSessions : List UdpSession
  rawSockets : List (BasicQueue ℕ)
  pending : List ArpContext
  freed : List ℕ
  next : ℕ
  grants : List Bool

namespace World

def nbufAlloc (w : World) : Option ℕ × World :=
  match w.grants with
  | [] => (none, w)
  | true :: grants => (some w.next, { w with next := w.next + 1, grants := grants })
  | false :: grants => (none, { w with grants := grants })

def nbufFree (w : World) (b : ℕ) : World := { w with freed := b :: w.freed }

def ethernetSendPacket (w : World) (b : ℕ) : World :=
  match w.txQueue.push b with
  | (txQueue, none) => { w with txQueue := txQueue }
  | (_, some b) => w.nbufFree b

def ipRouteLookup (w : World) (ip : ℕ) : Option Route :=
  w.routes.find? fun route => isIpOnSameNetwork route.destAddr ip route.netmask

/-- `arp_set_entry`, as far as the presence of entries goes. -/
def arpSetEntry (w : World) (ip : ℕ) : World :=
  if ip ∈ w.arpCache then w else { w with arpCache := ip :: w.arpCache }

/-- `arp_send_request`; the flag tells whether it returns 0. -/
def arpSendRequest (w : World) (ip : ℕ) : Bool × World :=
  match w.ipRouteLookup ip with
  | none => (false, w)
  | some route =>
    if route.hasDevice = false then (false, w)
    else match w.nbufAlloc with
      | (none, w) => (false, w)
      | (some b, w) => (true, w.ethernetSendPacket b)

def arpResolveCb (w : World) (ip context packet : ℕ) : World :=
  if ip ∈ w.arpCache then (w.ethernetSendPacket packet).nbufFree context
  else (w.nbufFree packet).nbufFree context

/-- `arp_resolve` with the callback `arp_resolve_cb`. -/
def arpResolve (w : World) (ip context packet : ℕ) : Bool × World :=
  if ip ∈ w.arpCache then (true, w.arpResolveCb ip context packet)
  else match w.nbufAlloc with
    | (none, w) => (false, w)
    | (some b, w) =>
      match w.arpSendRequest ip with
      | (false, w) => (false, w.nbufFree b)
      | (true, w) => (true, { w with pending := w.pending ++ [⟨b, context, packet⟩] })

def ipOutput (w : World) (ip packet : ℕ) : World :=
  match w.nbufAlloc with
  | (none, w) => w.nbufFree packet
  | (some context, w) =>
    match w.arpResolve ip context packet with
    | (true, w) => w
    | (false, w) => (w.nbufFree packet).nbufFree context

/-- `icmp_reject`, with `ip_alloc_nbuf`. -/
def icmpReject (w : World) (ip : ℕ) : World :=
  match w.ipRouteLookup ip with
  | none => w
  | some _ =>
    match w.nbufAlloc with
    | (none, w) => w
    | (some output, w) => w.ipOutput ip output

/-- `icmp_input`: an echo request is turned into its reply. -/
def icmpInput (w : World) (f : Frame) (b : ℕ) : World :=
  if f.size - l4Offset < 4 then w.nbufFree b
  else if f.memory l4Offset = 8 then w.ipOutput f.saddr b
  else w.nbufFree b

def tcpInput (w : World) (f : Frame) (b : ℕ) : Option World := do
  let (valid, _) ← tcpValidatePacket f []
  if valid = false then return w.nbufFree b
  match w.inSegments.push b with
  | (inSegments, none) => return { w with inSegments := inSegments }
  | (_, some b) => return w.nbufFree b

def getUdpDescriptorByPort (w : World) (port : ℕ) : Option UdpSession :=
  w.udpSessions.find? fun session => session.port == port

/-- Nobody looks at the result of the push. -/
def pushToPort (port b : ℕ) : List UdpSession → List UdpSession
  | [] => []
  | session :: rest =>
    if session.port == port then
      { session with rxQueue := (session.rxQueue.push b).1 } :: rest
    else session :: pushToPort port b rest

def udpPort (f : Frame) : ℕ := half f.memory (l4Offset + 2)

def udpInput (w : World) (f : Frame) (b : ℕ) : Option World := do
  let (valid, _) ← udpValidatePacket f []
  if valid = false then return w.nbufFree b
  match w.getUdpDescriptorByPort (udpPort f) with
  | none => return (w.icmpReject f.saddr).nbufFree b
  | some _ => return { w with udpSessions := pushToPort (udpPort f) b w.udpSessions }

/-- One clone for each raw socket; the results are not looked at. -/
def pushClones (f : Frame) : List (BasicQueue ℕ) → World → Option (List (BasicQueue ℕ) × World)
  | [], w => some ([], w)
  | socket :: rest, w => do
    match w.nbufAlloc with
    | (none, _) => none
    | (some clone, w) =>
      if l4Offset < f.size then
        let (sockets, w) ← pushClones f rest w
        return ((socket.push clone).1 :: sockets, w)
      else none

def ipInput (w : World) (f : Frame) (b : ℕ) : Option World := do
  let (accepted, _) ← ipAccepts f []
  if accepted = false then return w.nbufFree b
  let (sockets, w) ← pushClones f w.rawSockets (w.arpSetEntry f.saddr)
  let w := { w with rawSockets := sockets }
  match ipDispatch f w.interface with
  | none => return w.nbufFree b
  | some .icmp => return w.icmpInput f b
  | some .tcp => w.tcpInput f b
  | some .udp => w.udpInput f b

/-! ### ARP -/

def sizeofArp : ℕ := 28

def arpOperation (f : Frame) : ℕ := half f.memory (l3Offset + 6)
def arpSenderIp (f : Frame) : ℕ := word f.memory (l3Offset + 14)
def arpTargetIp (f : Frame) : ℕ := word f.memory (l3Offset + 24)

def arpIsValid (f : Frame) : Bool :=
  half f.memory l3Offset == 1 && half f.memory (l3Offset + 2) == 0x0800 &&
    f.memory (l3Offset + 4) == 6 && f.memory (l3Offset + 5) == 4 &&
    (arpOperation f == 1 || arpOperation f == 2)

/-- The flag tells the caller to free the request. -/
def arpHandleRequest (w : World) (f : Frame) : Bool × World :=
  if arpTargetIp f ∈ w.arpCache then
    match w.nbufAlloc with
    | (none, w) => (true, w)
    | (some reply, w) => (false, w.ethernetSendPacket reply)
  else (true, w)

def arpHandleResponse (w : World) (f : Frame) : Bool × World :=
  (true, w.arpSetEntry (arpSenderIp f))

def arpHandler (w : World) (f : Frame) (b : ℕ) : World :=
  if f.size - l3Offset < sizeofArp then w.nbufFree b
  else if arpIsValid f = false then w.nbufFree b
  else
    match if arpOperation f = 1 then w.arpHandleRequest f else w.arpHandleResponse f with
    | (true, w) => w.nbufFree b
    | (false, w) => w

/-! ### The receive thread -/

def etherType (f : Frame) : ℕ := half f.memory 12

def addressed (w : World) (f : Frame) : Bool :=
  !((f.memory 0).toNat % 2 == 0 && (List.range 6).map f.memory != w.mac)

def ethernetRx (w : World) (f : Frame) (b : ℕ) : Option World :=
  if etherType f = 0x0806 then
    if w.addressed f then some (w.arpHandler f b) else some (w.nbufFree b)
  else if etherType f = 0x0800 then
    if w.addressed f then w.ipInput f b else some (w.nbufFree b)
  else some (w.nbufFree b)

end World

end GzOS.Net
