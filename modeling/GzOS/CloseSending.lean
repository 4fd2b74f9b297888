import GzOS.NumberedStream
import GzOS.OutputAccounting

/-!
# Unsent bytes at the end of a connection

A session sends its FIN without a look at the output buffer, and bytes that are left
there are never sent. In runs in which the buffer is empty whenever a FIN is sent, the
data segments before the FIN carry everything that was written.
-/
namespace GzOS.Tcp
open Session List BitVec

/-- Up to its wait, or to its end if the session is closed. -/
def Session.close (s : Session) (o : Outcome) : Session :=
  if s.state = .closed then { s with receiveNextAck := 0 } else s.enterFinSent o

/-- The end of `TcpSession::close`, after its wait. -/
def Session.afterClose (s : Session) : Session := { s with receiveNextAck := 0 }

variable {accepted : List Byte} {s s' : Session} {e : Endpoint} {t : Transmitted}

namespace Closing
open Runs NumberedStream

/-- With the bytes of its successful writes. `closing` holds while `close` waits. -/
structure Endpoint where
  session : Session
  accepted : List Byte := []
  closing : Bool := false

inductive Event
  | write (bytes : List Byte)
  | segment (tcp : Segment)
  | close
  /-- `close` goes on after `wait_state_changed`. -/
  | closeReturns

/-- Only an established session accepts it. -/
def write (e : Endpoint) (bytes : List Byte) : Endpoint :=
  match e.session.state with
  | .established _ =>
    { e with session := e.session.pushOutputBytes bytes {}, accepted := e.accepted ++ bytes }
  | _ => e

/-- All sends succeed. -/
def step (e : Endpoint) : Event → Option Endpoint
  | .write bytes => some (write e bytes)
  | .segment tcp => some { e with session := e.session.processInSegment tcp {} {} }
  | .close =>
    some { e with session := e.session.close {}, closing := decide (e.session.state ≠ .closed) }
  | .closeReturns =>
    if e.closing then some { e with session := e.session.afterClose, closing := false } else none

/-- Sessions start as clients or as acceptors of a SYN. -/
inductive Start : Session → Prop
  | client : Start (Session.createTcpClient {})
  | acceptor (seq : Word) : Start (Session.createTcpClientAcceptor seq {})

def carriesData (t : Transmitted) : Bool := decide (t.data ≠ [])
def isFin (t : Transmitted) : Bool := t.flags.fin

/-- Before a FIN come the data segments, numbered from one on, with all accepted bytes. -/
def FinComplete (accepted : List Byte) (sent : List Transmitted) : Prop :=
  ∀ before fin, before ++ [fin] <+: sent → isFin fin = true →
    Consecutive Transmitted.seq Transmitted.data 1 (before.filter carriesData) ∧
      before.flatMap Transmitted.data = accepted ∧
      fin.seq = 1 + BitVec.ofNat 32 (accepted.length + before.countP isFin)

def SendsFin (s : Session) : Event → Prop
  | .close => s.state ≠ .closed
  | .segment tcp => (∃ w, s.state = .established w) ∧ s.isSeqMatch tcp = true ∧ tcp.flags.fin = true
  | _ => False

/-- A FIN is sent only when all bytes are. -/
def Flushed (e : Endpoint) (ev : Event) : Prop :=
  SendsFin e.session ev → e.session.outputBuffer = []

/-- Accepted bytes are transmitted in order or buffered; a FIN comes after all of them. -/
structure SendLog (accepted : List Byte) (s : Session) : Prop where
  bytes : accepted = s.transmitted.flatMap Transmitted.data ++ s.outputBuffer
  numbers : Consecutive Transmitted.seq Transmitted.data 1 (s.transmitted.filter carriesData)
  seq : s.seq = 1 + BitVec.ofNat 32
    ((s.transmitted.flatMap Transmitted.data).length + s.transmitted.countP isFin)
  complete : FinComplete accepted s.transmitted

lemma flatMap_carriesData (ts : List Transmitted) :
    (ts.filter carriesData).flatMap Transmitted.data = ts.flatMap Transmitted.data := by
  induction ts with
  | nil => rfl
  | cons t ts ih =>
    by_cases ht : t.data = []
    · simp [carriesData, ht, ← ih]
    · simp [carriesData, ht, ← ih]

lemma FinComplete.concat {sent : List Transmitted} (h : FinComplete accepted sent)
    (ht : isFin t →
      Consecutive Transmitted.seq Transmitted.data 1 (sent.filter carriesData) ∧
      sent.flatMap Transmitted.data = accepted ∧
      t.seq = 1 + BitVec.ofNat 32 (accepted.length + sent.countP isFin)) :
    FinComplete accepted (sent ++ [t]) := by
  intro before fin hpre hfin
  rcases prefix_concat_iff.1 hpre with heq | hpre
  · obtain ⟨rfl, hlast⟩ := append_inj' heq rfl
    obtain rfl := singleton_inj.1 hlast
    exact ht hfin
  · exact h before fin hpre hfin

lemma finComplete_of_none {sent : List Transmitted} (h : sent.countP isFin = 0) :
    FinComplete accepted sent := by
  intro before fin hpre hfin
  have hmem : fin ∈ sent := hpre.subset (by simp)
  exact absurd hfin (countP_eq_zero.1 h fin hmem)

lemma SendLog.silent (h : SendLog accepted s) (hsent : s'.transmitted = s.transmitted ++ [t])
    (hdata : t.data = []) (hfin : isFin t = false) (hseq : s'.seq = s.seq)
    (hbuf : s'.outputBuffer = s.outputBuffer) : SendLog accepted s' := by
  refine ⟨?_, ?_, ?_, ?_⟩
  · rw [hsent, hbuf, h.bytes]
    simp [hdata]
  · rw [hsent]
    simpa [carriesData, hdata] using h.numbers
  · rw [hseq, h.seq, hsent]
    simp [hdata, hfin]
  rw [hsent]
  apply h.complete.concat
  intro hcon
  rw [hfin] at hcon
  cases hcon

lemma SendLog.congr (h : SendLog accepted s) (hsent : s'.transmitted = s.transmitted)
    (hseq : s'.seq = s.seq) (hbuf : s'.outputBuffer = s.outputBuffer) : SendLog accepted s' :=
  ⟨by rw [hsent, hbuf]; exact h.bytes, hsent ▸ h.numbers, by rw [hseq, hsent]; exact h.seq,
    hsent ▸ h.complete⟩

lemma SendLog.pushed (h : SendLog accepted s) (hfin : s.transmitted.countP isFin = 0)
    (hbuf : s.outputBuffer ≠ []) : SendLog accepted s.pushed := by
  have hdata := pushSegment_data_ne_nil hbuf
  have hnone : (s.transmitted ++ [s.pushSegment]).countP isFin = 0 := by
    simp [hfin, isFin, pushSegment]
  refine ⟨?_, ?_, ?_, finComplete_of_none hnone⟩
  · rw [h.bytes]
    simp [Session.pushed, Session.pushSegment]
  · have hone : [s.pushSegment].filter carriesData = [s.pushSegment] := by simp [carriesData, hdata]
    show Consecutive _ _ _ ((s.transmitted ++ [s.pushSegment]).filter carriesData)
    rw [filter_append, hone]
    apply h.numbers.concat
    have hseq := h.seq
    rw [hfin] at hseq
    rw [flatMap_carriesData]
    exact hseq
  · show s.seq + _ = 1 + BitVec.ofNat 32 (((s.transmitted ++ [s.pushSegment]).flatMap
      Transmitted.data).length + (s.transmitted ++ [s.pushSegment]).countP isFin)
    rw [hnone, h.seq, hfin, flatMap_append, length_append, Nat.add_zero, Nat.add_zero,
      ofNat_add, add_assoc]
    simp [pushSegment]

lemma SendLog.fin (h : SendLog accepted s) (hsent : s'.transmitted = s.transmitted ++ [t])
    (hdata : t.data = []) (hfin : isFin t) (hnum : t.seq = s.seq) (hseq : s'.seq = s.seq + 1)
    (hbuf : s.outputBuffer = []) (hbuf' : s'.outputBuffer = []) : SendLog accepted s' := by
  have hall : s.transmitted.flatMap Transmitted.data = accepted := by simp [h.bytes, hbuf]
  refine ⟨?_, ?_, ?_, ?_⟩
  · rw [hsent, hbuf', flatMap_append, hall]
    simp [hdata]
  · rw [hsent]
    simpa [carriesData, hdata] using h.numbers
  · rw [hseq, h.seq, hsent]
    simp [hdata, hfin, add_assoc, ofNat_add]
  · rw [hsent]
    exact h.complete.concat fun _ => ⟨h.numbers, hall, by rw [hnum, h.seq, hall]⟩

/-! The states of a session. -/

/-- No FIN is sent before the session ends; nothing is buffered before or after it is
established. -/
structure Staged (s : Session) : Prop where
  noFin : (s.state = .synSent ∨ s.state = .synReceived ∨ ∃ w, s.state = .established w) →
    s.transmitted.countP isFin = 0
  buffer : (∀ w, s.state ≠ .established w) → s.outputBuffer = []
  stages : s.state ≠ .finSent ∧ s.state ≠ .closeWait

def Logged (e : Endpoint) : Prop := SendLog e.accepted e.session ∧ Staged e.session

lemma ended (hst : s.state = .lastAck ∨ s.state = .closed) (hbuf : s.outputBuffer = []) :
    Staged s := by
  rcases hst with hst | hst <;>
    exact ⟨by simp [hst], fun _ => hbuf, by simp [hst]⟩

lemma log_trigger {w : Bool} (h : SendLog accepted s) (hfin : s.transmitted.countP isFin = 0) :
    SendLog accepted (s.handleOutputTrigger w {}).session ∧
      (s.handleOutputTrigger w {}).session.transmitted.countP isFin = 0 := by
  have ho : w = false → s.outputBuffer ≠ [] → (({} : Outcome)).allocated := fun _ _ => rfl
  rcases handleOutputTrigger_spec s ho with ⟨-, heq⟩ | ⟨-, hn, heq⟩
  · rw [heq]
    exact ⟨h, hfin⟩
  · rw [heq]
    refine ⟨h.pushed hfin hn, ?_⟩
    simp [pushed, hfin, isFin, pushSegment]

lemma staged_established (hfin : s.transmitted.countP isFin = 0) (w : Bool) :
    Staged { s with state := .established w } :=
  ⟨fun _ => hfin, fun h => absurd rfl (h w), by simp⟩

lemma log_sendAck (h : SendLog accepted s) :
    SendLog accepted (s.sendAck {}) ∧ (s.sendAck {}).transmitted.countP isFin =
      s.transmitted.countP isFin := by
  constructor
  · exact h.silent rfl rfl rfl (by simp [sendAck, send]) rfl
  · simp [sendAck, send, isFin]

lemma log_enterEstablished (h : SendLog e.accepted s) (hfin : s.transmitted.countP isFin = 0) :
    Logged { e with session := s.enterEstablished {} } := by
  obtain ⟨hlog, hnone⟩ := log_trigger h hfin
  exact ⟨hlog.congr rfl rfl rfl, staged_established hnone _⟩

lemma log_established {tcp : Segment} {w : Bool} (h : Logged e)
    (hst : e.session.state = .established w) (hg : Flushed e (.segment tcp)) :
    Logged { e with session := e.session.handleEstablished tcp {} } := by
  have hfin := h.2.noFin (.inr (.inr ⟨w, hst⟩))
  unfold handleEstablished
  dsimp only
  split_ifs with hm hf hsize hsent
  · exact h
  · have hbuf := hg ⟨⟨w, hst⟩, by simpa using hm, hf⟩
    refine ⟨h.1.fin rfl rfl rfl rfl ?_ hbuf hbuf, ended (.inl rfl) hbuf⟩
    simp [enterCloseWait, sendFin, send]
  · obtain ⟨hlog, hnone⟩ := log_trigger h.1 hfin
    exact ⟨hlog.congr rfl rfl rfl, staged_established hnone _⟩
  all_goals
    have hin : SendLog e.accepted (e.session.pushInputBytes (copyData tcp (tcpDataLength tcp))) :=
      h.1.congr rfl rfl rfl
    obtain ⟨hlog, hnone⟩ := log_trigger hin hfin
  · exact ⟨hlog.congr rfl rfl rfl, staged_established hnone _⟩
  generalize handleOutputTrigger _ false {} = t at hlog hnone
  have hlog1 : SendLog e.accepted { t.session with state := .established t.waitingForAck } :=
    hlog.congr rfl rfl rfl
  obtain ⟨hlog2, hsame⟩ := log_sendAck hlog1
  exact ⟨hlog2, staged_established (hsame.trans hnone) _⟩

lemma log_segment {tcp : Segment} (h : Logged e) (hg : Flushed e (.segment tcp)) :
    Logged { e with session := e.session.processInSegment tcp {} {} } := by
  unfold processInSegment
  split
  · next hst =>
    have hbuf := h.2.buffer (by simp [hst])
    exact ⟨h.1.silent rfl rfl rfl rfl rfl, ended (.inr hst) hbuf⟩
  · next hst =>
    split_ifs
    · have h1 : SendLog e.accepted { e.session with receiveNextAck := tcp.seq + 1 } :=
        h.1.congr rfl rfl rfl
      obtain ⟨hlog, hsame⟩ := log_sendAck h1
      exact log_enterEstablished hlog (hsame.trans (h.2.noFin (.inl hst)))
    · exact ⟨h.1.congr rfl rfl rfl, ended (.inr rfl) (h.2.buffer (by simp [hst]))⟩
  · next hst =>
    split_ifs
    · exact log_enterEstablished h.1 (h.2.noFin (.inr (.inl hst)))
    · exact h
  · next w hst => exact log_established h hst hg
  · exact h
  · exact h
  · next hst =>
    split_ifs
    · exact h
    · exact ⟨(log_sendAck h.1).1.congr rfl rfl rfl, ended (.inr rfl) (h.2.buffer (by simp [hst]))⟩

lemma log_write (h : Logged e) (bytes : List Byte) : Logged (write e bytes) := by
  unfold write
  split
  · next w hst =>
    have hfin := h.2.noFin (.inr (.inr ⟨w, hst⟩))
    let s1 : Session := { e.session with outputBuffer := e.session.outputBuffer ++ bytes }
    have h1 : SendLog (e.accepted ++ bytes) s1 :=
      ⟨by simp [s1, h.1.bytes], h.1.numbers, h.1.seq, finComplete_of_none hfin⟩
    obtain ⟨hlog, hnone⟩ := log_trigger h1 hfin
    have heq : e.session.pushOutputBytes bytes {} = { (s1.handleOutputTrigger w {}).session with
        state := .established (s1.handleOutputTrigger w {}).waitingForAck } := by
      simp only [pushOutputBytes, hst, s1]
    rw [heq]
    exact ⟨hlog.congr rfl rfl rfl, staged_established hnone _⟩
  · exact h

lemma log_close (h : Logged e) (hg : Flushed e .close) (closing : Bool) :
    Logged { e with session := e.session.close {}, closing } := by
  unfold close
  split_ifs with hst
  · exact ⟨h.1.congr rfl rfl rfl, ended (.inr hst) (h.2.buffer (by simp [hst]))⟩
  · have hbuf := hg hst
    refine ⟨h.1.fin rfl rfl rfl rfl ?_ hbuf hbuf, ended (.inl rfl) hbuf⟩
    simp [enterFinSent, sendFin, send]

lemma log_step {e' : Endpoint} {ev : Event} (h : Logged e) (hg : Flushed e ev)
    (hs : step e ev = some e') : Logged e' := by
  cases ev with
  | write bytes =>
    cases hs
    exact log_write h bytes
  | segment tcp =>
    cases hs
    exact log_segment h hg
  | close =>
    cases hs
    exact log_close h hg _
  | closeReturns =>
    simp only [step] at hs
    split_ifs at hs
    cases hs
    exact ⟨h.1.congr rfl rfl rfl, ⟨h.2.noFin, h.2.buffer, h.2.stages⟩⟩

lemma log_start (h : Start s) : Logged { session := s } := by
  cases h with
  | client =>
    refine ⟨⟨rfl, trivial, rfl, finComplete_of_none rfl⟩, ⟨fun _ => rfl, fun _ => rfl, ?_⟩⟩
    exact ⟨nofun, nofun⟩
  | acceptor seq =>
    refine ⟨⟨rfl, trivial, rfl, finComplete_of_none rfl⟩, ⟨fun _ => rfl, fun _ => rfl, ?_⟩⟩
    exact ⟨nofun, nofun⟩

/-- In every run of a session in which the output buffer is empty whenever a FIN
is sent, the data before a FIN is complete. -/
theorem fin_after_all_data (s : Session) (hs : Start s) (events : List Event)
    (h : Meets step Flushed { session := s } events) :
    Always step (fun e => FinComplete e.accepted e.session.transmitted) { session := s } events :=
  (always_of_meets (fun _ _ _ hi hg ht => log_step hi hg ht) (log_start hs) h).mono
    fun _ he => he.1.complete

def handshake : Event :=
  .segment { seq := 1, ackSeq := 1, flags := { ack := true }, fits := bare_fits }

theorem fin_after_all_data_one_write :
    Always step (fun e => FinComplete e.accepted e.session.transmitted)
      { session := createTcpClientAcceptor 0 {} } [handshake, .write [7], .close] := by
  apply fin_after_all_data _ (.acceptor 0)
  simp only [meets_cons]
  refine ⟨?_, fun e1 h1 => ⟨(fun h => nomatch h), fun e2 h2 => ⟨?_, fun _ _ => meets_nil _ _ _⟩⟩⟩
  · rintro ⟨⟨w, hw⟩, -⟩
    cases hw
  cases h1
  cases h2
  intro _
  decide

/-- The second byte waits for the acknowledgment of the first when the session is
closed: the FIN is sent and the byte is not. -/
theorem fin_before_data :
    ∃ e, exec step { session := createTcpClientAcceptor 0 {} }
        [handshake, .write [7], .write [8], .close] = some e ∧
      ¬ FinComplete e.accepted e.session.transmitted := by
  refine ⟨_, rfl, fun h => ?_⟩
  have hfin := h
    [⟨0, 1, { syn := true, ack := true }, []⟩, ⟨1, 1, { ack := true, psh := true }, [7]⟩]
    ⟨2, 1, { fin := true, ack := true }, []⟩ (by decide) rfl
  exact absurd hfin.2.1 (by decide)

end Closing

end GzOS.Tcp
