import GzOS.EndOfStream

/-!
# The TCP input thread and the accept queue

A descriptor that goes out of scope closes its session, and `TcpSession::close` waits
for a change of state unless the session is closed. The session that rejects a segment
is closed, the acceptor made for a SYN is not: a SYN that finds the accept queue full
makes the input thread wait for itself.
-/
namespace GzOS.Tcp.Input
open Session

/-- `basic_queue` as the accept queue uses it, without waiting. -/
structure BasicQueue (α : Type) where
  capacity : ℕ
  data : List α
  bound : data.length ≤ capacity

namespace BasicQueue
variable {α : Type}

def full (q : BasicQueue α) : Prop := q.capacity = q.data.length

instance (q : BasicQueue α) : Decidable q.full := inferInstanceAs (Decidable (_ = _))

def empty (capacity : ℕ) : BasicQueue α := ⟨capacity, [], Nat.zero_le _⟩

/-- A value that is not taken stays with the caller. -/
def push (q : BasicQueue α) (value : α) : BasicQueue α × Option α :=
  if h : q.full then (q, some value)
  else
    ({ q with
        data := q.data ++ [value]
        bound := by
          have := q.bound
          unfold full at h
          simp only [List.length_append, List.length_singleton]
          omega },
      none)

lemma push_of_full {q : BasicQueue α} (h : q.full) (value : α) :
    q.push value = (q, some value) := by
  simp [push, h]

lemma push_of_not_full {q : BasicQueue α} (h : ¬ q.full) (value : α) :
    (q.push value).2 = none ∧ (q.push value).1.data = q.data ++ [value] := by
  simp [push, h]

end BasicQueue

structure SocketAddress where
  address : BitVec 32
  port : UInt16
  deriving DecidableEq

/-- The session of a listening socket has an accept queue of pointers to descriptors. -/
inductive Socket
  | connection (s : Session)
  | listening (acceptQueue : BasicQueue ℕ)

/-- `fd` is its address; the session is null until `connect` or `listen`. -/
structure TcpFileDescriptor where
  fd : ℕ
  localPort : UInt16
  remoteAddr : SocketAddress
  session : Option Socket

abbrev Registry := List TcpFileDescriptor

structure Packet where
  localPort : UInt16
  remoteAddr : SocketAddress
  tcp : Segment
  urg : Bool := false
  ece : Bool := false
  cwr : Bool := false
  ns : Bool := false

def Packet.isSyn (p : Packet) : Bool :=
  decide (p.tcp.flags = { syn := true }) && !p.urg && !p.ece && !p.cwr && !p.ns

/-- Whether a new session can be allocated, the address of a new descriptor, and the
outcomes of the sends. -/
structure Env where
  allocated : Bool := true
  fd : ℕ
  o₁ : Outcome := {}
  o₂ : Outcome := {}

/-- Why the input thread does not get to its next segment. -/
inductive Stop
  | waitStateChanged
  | nullSession
  deriving DecidableEq

def TcpFileDescriptor.isListening (d : TcpFileDescriptor) : Bool :=
  match d.session with
  | some (.listening _) => true
  | _ => false

def getTcpDescriptorByFourTuple (reg : Registry) (localPort : UInt16) (remote : SocketAddress) :
    Option TcpFileDescriptor :=
  match reg.find? fun d => decide (d.localPort = localPort) && decide (d.remoteAddr = remote) with
  | some d => some d
  | none => reg.find? fun d => d.isListening && decide (d.localPort = localPort)

def Socket.close : Socket → Except Stop Socket
  | .connection s =>
    if s.state = .closed then .ok (.connection s.afterClose) else .error .waitStateChanged
  | .listening _ => .error .waitStateChanged

/-- Its own close, and the one of `~TcpSession`. -/
def TcpFileDescriptor.destroy (d : TcpFileDescriptor) : Except Stop Unit :=
  match d.session with
  | none => .ok ()
  | some s => do
    let s ← s.close
    let _ ← s.close
    return ()

/-- `new (std::nothrow)` may give null. -/
def createTcpRejector (env : Env) : Option Session :=
  if env.allocated then some ⟨.closed, 0, 0, [], [], []⟩ else none

def createTcpClientAcceptor (seq : Word) (env : Env) : Option Session :=
  if env.allocated then some (Session.createTcpClientAcceptor seq env.o₁) else none

/-- The constructor registers the descriptor. -/
def createListeningDescriptor (localPort : UInt16) (remote : SocketAddress) (seq : Word)
    (env : Env) : TcpFileDescriptor :=
  ⟨env.fd, localPort, remote, (createTcpClientAcceptor seq env).map .connection⟩

def Registry.update (reg : Registry) (fd : ℕ) (s : Socket) : Registry :=
  reg.map fun d => if d.fd = fd then { d with session := some s } else d

/-- The reset for other segments goes to the listening socket's peer, which it does not
have. -/
def handleListening (reg : Registry) (listener : TcpFileDescriptor) (queue : BasicQueue ℕ)
    (p : Packet) (env : Env) : Except Stop Registry :=
  if p.isSyn = false then .ok reg
  else
    let newfd := createListeningDescriptor listener.localPort p.remoteAddr p.tcp.seq env
    match queue.push newfd.fd with
    | (queue', none) => .ok (Registry.update (reg ++ [newfd]) listener.fd (.listening queue'))
    -- the descriptor goes out of scope, and leaves the registry again
    | (_, some _) => do
      newfd.destroy
      return reg

def reject (p : Packet) (env : Env) : Except Stop Unit :=
  match createTcpRejector env with
  | none => .error .nullSession
  | some s =>
    TcpFileDescriptor.destroy ⟨env.fd, p.localPort, p.remoteAddr,
      some (.connection (s.processInSegment p.tcp env.o₁ env.o₂))⟩

/-- One turn of the loop of `tcp_in_main`. -/
def tcpInMain (reg : Registry) (p : Packet) (env : Env) : Except Stop Registry :=
  match getTcpDescriptorByFourTuple reg p.localPort p.remoteAddr with
  | none => do
    reject p env
    return reg
  | some d =>
    match d.session with
    | none => .error .nullSession
    | some (.connection s) =>
      .ok (reg.update d.fd (.connection (s.processInSegment p.tcp env.o₁ env.o₂)))
    | some (.listening queue) => handleListening reg d queue p env

lemma destroy_connection (fd : ℕ) (localPort : UInt16) (remote : SocketAddress) (s : Session) :
    TcpFileDescriptor.destroy ⟨fd, localPort, remote, some (.connection s)⟩ =
      if s.state = .closed then .ok () else .error .waitStateChanged := by
  by_cases hst : s.state = .closed
  · have hst' : s.afterClose.state = .closed := hst
    simp [TcpFileDescriptor.destroy, Socket.close, hst, hst', bind, Except.bind, pure, Except.pure]
  · simp [TcpFileDescriptor.destroy, Socket.close, hst, bind, Except.bind]

lemma reject_ne_wait (p : Packet) (env : Env) : reject p env ≠ .error .waitStateChanged := by
  unfold reject createTcpRejector
  cases env.allocated with
  | true =>
    have hclosed : ((mk .closed 0 0 [] [] []).processInSegment p.tcp env.o₁ env.o₂).state =
        .closed := by
      unfold processInSegment sendRst
      split_ifs <;> rfl
    have hdestroy := destroy_connection env.fd p.localPort p.remoteAddr
      ((mk .closed 0 0 [] [] []).processInSegment p.tcp env.o₁ env.o₂)
    rw [if_pos hclosed] at hdestroy
    show TcpFileDescriptor.destroy _ ≠ _
    rw [hdestroy]
    nofun
  | false => nofun

lemma destroy_listening (localPort : UInt16) (remote : SocketAddress) (seq : Word) (env : Env) :
    (createListeningDescriptor localPort remote seq env).destroy =
      if env.allocated then .error .waitStateChanged else .ok () := by
  unfold createListeningDescriptor createTcpClientAcceptor
  cases env.allocated with
  | true =>
    have h := destroy_connection env.fd localPort remote
      (Session.createTcpClientAcceptor seq env.o₁)
    refine h.trans (if_neg ?_)
    unfold Session.createTcpClientAcceptor Session.sendSynAck Session.send
    split_ifs <;> simp
  | false => rfl

lemma handleListening_wait_iff (reg : Registry) (d : TcpFileDescriptor) (queue : BasicQueue ℕ)
    (p : Packet) (env : Env) :
    handleListening reg d queue p env = .error .waitStateChanged ↔
      p.isSyn ∧ queue.full ∧ env.allocated := by
  unfold handleListening
  cases hsyn : p.isSyn with
  | false => simp
  | true =>
    dsimp only
    rw [if_neg (by simp)]
    by_cases hfull : queue.full
    · rw [BasicQueue.push_of_full hfull]
      simp only [destroy_listening]
      cases env.allocated <;> simp [hfull, bind, Except.bind, pure, Except.pure]
    · obtain ⟨hnone, _⟩ := BasicQueue.push_of_not_full hfull
        (createListeningDescriptor d.localPort p.remoteAddr p.tcp.seq env).fd
      split
      · simp [hfull]
      · next heq =>
        rw [heq] at hnone
        cases hnone

/-- A SYN for a listening socket with a full queue, whose acceptor can be allocated. -/
def Overflows (reg : Registry) (p : Packet) (env : Env) : Prop :=
  ∃ d queue, getTcpDescriptorByFourTuple reg p.localPort p.remoteAddr = some d ∧
    d.session = some (.listening queue) ∧ p.isSyn = true ∧ queue.full ∧ env.allocated = true

/-- The input thread waits for a change of state exactly when it has to give up
the acceptor of a SYN. -/
theorem input_thread_never_waits_iff (reg : Registry) (p : Packet) (env : Env) :
    tcpInMain reg p env ≠ .error .waitStateChanged ↔ ¬ Overflows reg p env := by
  rw [not_iff_not]
  unfold tcpInMain Overflows
  cases getTcpDescriptorByFourTuple reg p.localPort p.remoteAddr with
  | none =>
    have hreject := reject_ne_wait p env
    cases hr : reject p env with
    | ok u => simp [bind, Except.bind, pure, Except.pure]
    | error e =>
      rw [hr] at hreject
      simpa [Except.bind] using hreject
  | some d =>
    cases hs : d.session with
    | none => simp [hs]
    | some socket =>
      cases socket with
      | connection s => simp [hs]
      | listening queue =>
        have hiff := handleListening_wait_iff reg d queue p env
        simpa [hs] using hiff

def server : Registry :=
  [⟨0, 80, ⟨0, 0⟩, some (.listening ⟨1, [1], le_rfl⟩)⟩,
    ⟨1, 80, ⟨1, 10000⟩, some (.connection (Session.createTcpClientAcceptor 0 {}))⟩]

def secondSyn : Packet :=
  { localPort := 80
    remoteAddr := ⟨1, 10001⟩
    tcp := { seq := 0, ackSeq := 0, flags := { syn := true }, fits := bare_fits } }

/-- A second SYN, from another port, while the first connection waits to be accepted. -/
theorem second_client_stops_input :
    tcpInMain server secondSyn { fd := 2 } = .error .waitStateChanged := by
  rfl

end GzOS.Tcp.Input
