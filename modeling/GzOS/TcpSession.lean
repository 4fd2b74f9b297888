import GzOS.CTypes
import Mathlib.Data.BitVec
import Mathlib.Tactic

/-!
# The TCP session and its states

Sequence numbers are 32-bit words. A segment that is handed to the IP layer is recorded in
`transmitted`; whether a send succeeds is chosen by the environment.

The states `CloseWait` and `FinSent` have a second stage that moves on to `LastAck` at once,
so no segment is ever handled in them. A listening socket is not part of this module.
-/
namespace GzOS.Tcp

abbrev Word := BitVec 32

structure Flags where
  fin : Bool := false
  syn : Bool := false
  rst : Bool := false
  psh : Bool := false
  ack : Bool := false
  deriving DecidableEq, Repr

/-- Numbers are in host order, `options` lie between the fixed header and the data, and
`fits` is the bound of the 16-bit IP length. -/
structure Segment where
  seq : Word
  ackSeq : Word
  flags : Flags := {}
  options : List Byte := []
  payload : List Byte := []
  fits : 40 + options.length + payload.length < 65536

lemma bare_fits : 40 + ([] : List Byte).length + ([] : List Byte).length < 65536 := by decide

/-- `sizeof(tcp_t)`: the header without options. -/
def fixedHeader : ℕ := 20

def ipDataLength (tcp : Segment) : ℕ := fixedHeader + tcp.options.length + tcp.payload.length
def tcpHeaderLength (tcp : Segment) : ℕ := fixedHeader + tcp.options.length

/-- `tcp_data_length`, a `uint16_t`. -/
def tcpDataLength (tcp : Segment) : ℕ := (ipDataLength tcp - tcpHeaderLength tcp) % 65536

/-- `data` starts after the fixed header. -/
def copyData (tcp : Segment) (size : ℕ) : List Byte := (tcp.options ++ tcp.payload).take size

/-- A segment as it is handed to `ip_output`. -/
structure Transmitted where
  seq : Word
  ackSeq : Word
  flags : Flags
  data : List Byte := []
  deriving DecidableEq, Repr

/-- Whether `ip_alloc_nbuf` and `ip_output` succeed. -/
structure Outcome where
  allocated : Bool := true
  output : Bool := true
  deriving DecidableEq, Repr

/-- The flag is `_waiting_for_ack`. -/
inductive TcpState
  | closed
  | synSent
  | synReceived
  | established (waitingForAck : Bool)
  | finSent
  | closeWait
  | lastAck
  deriving DecidableEq, Repr

structure Session where
  state : TcpState
  seq : Word
  receiveNextAck : Word
  inputBuffer : List Byte := []
  outputBuffer : List Byte := []
  transmitted : List Transmitted := []
  deriving DecidableEq, Repr

namespace Session

def isSeqMatch (s : Session) (tcp : Segment) : Bool := tcp.ackSeq == s.seq

/-- `tcp_alloc_nbuf` followed by `tcp_transmit`. -/
def send (s : Session) (flags : Flags) (data : List Byte) (o : Outcome) : Session :=
  if o.allocated then
    { s with
      seq := s.seq + BitVec.ofNat 32 data.length + (if flags.syn then 1 else 0)
        + (if flags.fin then 1 else 0)
      transmitted := s.transmitted ++ [⟨s.seq, s.receiveNextAck, flags, data⟩] }
  else s

def sendAck (s : Session) (o : Outcome) : Session := s.send { ack := true } [] o
def sendSyn (s : Session) (o : Outcome) : Session := s.send { syn := true } [] o
def sendSynAck (s : Session) (o : Outcome) : Session := s.send { syn := true, ack := true } [] o
def sendFin (s : Session) (o : Outcome) : Session := s.send { fin := true, ack := true } [] o

def sendAckPush (s : Session) (data : List Byte) (o : Outcome) : Session :=
  s.send { ack := true, psh := true } (data.take 1400) o

/-- The numbers are overwritten after the allocation. -/
def sendRst (s : Session) (tcp : Segment) (o : Outcome) : Session :=
  if o.allocated then
    { s with transmitted := s.transmitted ++ [⟨0, tcp.seq + 1, { ack := true, rst := true }, []⟩] }
  else s

def pushInputBytes (s : Session) (bytes : List Byte) : Session :=
  { s with
    inputBuffer := s.inputBuffer ++ bytes
    receiveNextAck := s.receiveNextAck + BitVec.ofNat 32 bytes.length }

/-- The result of `TcpStateEstablished::handle_output_trigger`. -/
structure Trigger where
  sent : Bool
  waitingForAck : Bool
  session : Session

def handleOutputTrigger (s : Session) (waitingForAck : Bool) (o : Outcome) : Trigger :=
  if waitingForAck then ⟨false, waitingForAck, s⟩
  else
    let bytes := s.outputBuffer.take 1400
    if bytes = [] then ⟨false, waitingForAck, s⟩
    else ⟨true, true, { s with outputBuffer := s.outputBuffer.drop 1400 }.sendAckPush bytes o⟩

/-- The constructor triggers the output. -/
def enterEstablished (s : Session) (o : Outcome) : Session :=
  let t := s.handleOutputTrigger false o
  { t.session with state := .established t.waitingForAck }

/-- The constructor of `CloseWait`, then its second stage. -/
def enterCloseWait (s : Session) (o : Outcome) : Session :=
  { { s with receiveNextAck := s.receiveNextAck + 1 }.sendFin o with state := .lastAck }

def enterFinSent (s : Session) (o : Outcome) : Session := { s.sendFin o with state := .lastAck }

/-- Past the first test the session no longer waits for an acknowledgment. -/
def handleEstablished (s : Session) (tcp : Segment) (o : Outcome) : Session :=
  if s.isSeqMatch tcp = false then s
  else if tcp.flags.fin then s.enterCloseWait o
  else
    let size := tcpDataLength tcp
    if size = 0 then
      let t := s.handleOutputTrigger false o
      { t.session with state := .established t.waitingForAck }
    else
      let t := (s.pushInputBytes (copyData tcp size)).handleOutputTrigger false o
      let s₁ := { t.session with state := .established t.waitingForAck }
      if t.sent then s₁ else s₁.sendAck o

/-- Only the way from `SynSent` to `Established` has two sends. -/
def processInSegment (s : Session) (tcp : Segment) (o₁ o₂ : Outcome) : Session :=
  match s.state with
  | .closed => s.sendRst tcp o₁
  | .synSent =>
    if s.isSeqMatch tcp ∧ tcp.flags.syn ∧ tcp.flags.ack ∧ ¬ tcp.flags.rst then
      ({ s with receiveNextAck := tcp.seq + 1 }.sendAck o₁).enterEstablished o₂
    else { s with state := .closed }
  | .synReceived => if s.isSeqMatch tcp ∧ tcp.flags.ack then s.enterEstablished o₁ else s
  | .established _ => s.handleEstablished tcp o₁
  | .finSent | .closeWait => s
  | .lastAck =>
    if tcp.flags.ack = false ∨ s.isSeqMatch tcp = false then s
    else { s.sendAck o₁ with state := .closed }

def pushOutputBytes (s : Session) (bytes : List Byte) (o : Outcome) : Session :=
  let s₁ := { s with outputBuffer := s.outputBuffer ++ bytes }
  match s₁.state with
  | .established waitingForAck =>
    let t := s₁.handleOutputTrigger waitingForAck o
    { t.session with state := .established t.waitingForAck }
  | _ => s₁

/-- `pop_input_bytes` that does not wait: the bytes it returns. -/
def popInputBytes (s : Session) (size : ℕ) : List Byte × Session :=
  match s.state with
  | .established _ =>
    (s.inputBuffer.take size, { s with inputBuffer := s.inputBuffer.drop size })
  | _ => ([], s)

def createTcpClient (o : Outcome) : Session :=
  { (Session.mk .closed 0 0 [] [] []).sendSyn o with state := .synSent }

def createTcpClientAcceptor (seq : Word) (o : Outcome) : Session :=
  { state := .synReceived, seq := 0, receiveNextAck := seq + 1 : Session }.sendSynAck o

end Session

lemma tcpDataLength_eq (tcp : Segment) : tcpDataLength tcp = tcp.payload.length := by
  have hfits := tcp.fits
  unfold tcpDataLength ipDataLength tcpHeaderLength
  omega

lemma copyData_eq {tcp : Segment} (h : tcp.options = []) :
    copyData tcp (tcpDataLength tcp) = tcp.payload := by
  simp [copyData, h, tcpDataLength_eq]

lemma length_copyData (tcp : Segment) :
    (copyData tcp (tcpDataLength tcp)).length = tcp.payload.length := by
  simp [copyData, tcpDataLength_eq]

/-! Sending and triggering the output leave the receiving half alone. -/

structure SameInput (s t : Session) : Prop where
  inputBuffer : t.inputBuffer = s.inputBuffer
  receiveNextAck : t.receiveNextAck = s.receiveNextAck

lemma SameInput.refl (s : Session) : SameInput s s := ⟨rfl, rfl⟩

lemma SameInput.trans {s t u : Session} (h1 : SameInput s t) (h2 : SameInput t u) :
    SameInput s u :=
  ⟨h2.inputBuffer.trans h1.inputBuffer, h2.receiveNextAck.trans h1.receiveNextAck⟩

lemma sameInput_send (s : Session) (flags : Flags) (data : List Byte) (o : Outcome) :
    SameInput s (s.send flags data o) := by
  unfold Session.send
  cases o.allocated with
  | true => exact ⟨rfl, rfl⟩
  | false => exact .refl s

lemma sameInput_trigger (s : Session) (waitingForAck : Bool) (o : Outcome) :
    SameInput s (s.handleOutputTrigger waitingForAck o).session := by
  unfold Session.handleOutputTrigger
  dsimp only
  split_ifs
  · exact .refl s
  · exact .refl s
  · have h : SameInput s { s with outputBuffer := s.outputBuffer.drop 1400 } := ⟨rfl, rfl⟩
    exact h.trans (sameInput_send _ _ _ _)

lemma handleEstablished_input (s : Session) (tcp : Segment) (o : Outcome) :
    (s.handleEstablished tcp o).inputBuffer =
      if s.isSeqMatch tcp ∧ tcp.flags.fin = false then
        s.inputBuffer ++ copyData tcp (tcpDataLength tcp) else s.inputBuffer := by
  by_cases hm : s.isSeqMatch tcp
  · cases hfin : tcp.flags.fin with
    | true =>
      simp only [Session.handleEstablished, hm, hfin]
      exact (sameInput_send { s with receiveNextAck := s.receiveNextAck + 1 } _ _ o).inputBuffer
    | false =>
      rw [if_pos ⟨hm, rfl⟩]
      simp only [Session.handleEstablished, hm, hfin, Bool.true_eq_false, Bool.false_eq_true,
        if_false]
      split_ifs with hsize hsent
      · rw [hsize]
        simpa [copyData] using (sameInput_trigger s false o).inputBuffer
      · exact (sameInput_trigger (s.pushInputBytes _) false o).inputBuffer
      · exact (sameInput_send _ _ _ o).inputBuffer.trans
          (sameInput_trigger (s.pushInputBytes _) false o).inputBuffer
  · have hm' : s.isSeqMatch tcp = false := by simpa using hm
    simp [Session.handleEstablished, hm']

lemma sameInput_enterEstablished (s : Session) (o : Outcome) :
    SameInput s (s.enterEstablished o) := by
  have h := sameInput_trigger s false o
  exact ⟨h.inputBuffer, h.receiveNextAck⟩

lemma sameInput_pushOutputBytes (s : Session) (bytes : List Byte) (o : Outcome) :
    SameInput s (s.pushOutputBytes bytes o) := by
  have h1 : SameInput s { s with outputBuffer := s.outputBuffer ++ bytes } := ⟨rfl, rfl⟩
  unfold Session.pushOutputBytes
  dsimp only
  split
  · next w _ =>
    have h2 := h1.trans (sameInput_trigger _ w o)
    exact ⟨h2.inputBuffer, h2.receiveNextAck⟩
  · exact h1

end GzOS.Tcp
