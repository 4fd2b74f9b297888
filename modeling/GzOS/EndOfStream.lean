import GzOS.CloseSending

/-!
# End of file on a connection

`TcpFileDescriptor::read` returns zero as soon as the session is not established, and
the peer's FIN ends that state at once, whatever is buffered or comes with it. In runs
in which no data comes with a FIN or is ignored, and a read that finds the session
ended finds the buffer empty too, the end of the file comes after all bytes.
-/
namespace GzOS.Tcp.Reading
open Runs Session

/-- Each test of the state is a step; the part with interrupts disabled is one step. -/
inductive Pc
  | idle
  /-- `read`, before `is_connected`. -/
  | entered (size : ℕ) (blocking : Bool)
  /-- `pop_input_bytes`, before the test for `Closed`. -/
  | connected (size : ℕ) (blocking : Bool)
  /-- Before the test for `Established`. -/
  | notClosed (size : ℕ) (blocking : Bool)
  /-- Before the locked part. -/
  | locking (size : ℕ) (blocking : Bool)
  /-- In `eventStream.get()`. -/
  | waiting (size : ℕ) (blocking : Bool)
  deriving DecidableEq, Repr

/-- `stream` holds what has arrived, `finArrived` whether the FIN has, `delivered` what
reads returned, and `eof` whether a read of non-zero size returned zero after the session
was established. -/
structure State where
  session : Session
  reader : Pc := .idle
  closing : Bool := false
  stream : List Byte := []
  finArrived : Bool := false
  delivered : List Byte := []
  wasEstablished : Bool := false
  eof : Bool := false

inductive Event
  | segment (tcp : Segment) (o₁ o₂ : Outcome)
  | write (bytes : List Byte) (o : Outcome)
  | close (o : Outcome)
  | closeReturns
  | read (size : ℕ) (blocking : Bool)
  /-- A waiting read may wake up at any time. -/
  | advance

def isEstablished : TcpState → Bool
  | .established _ => true
  | _ => false

def State.returnZero (s : State) (size : ℕ) : State :=
  { s with reader := .idle, eof := s.eof || (s.wasEstablished && decide (size ≠ 0)) }

def State.returnError (s : State) : State := { s with reader := .idle }

def locked (s : State) (size : ℕ) (blocking : Bool) : State :=
  if s.session.inputBuffer = [] ∧ blocking then
    if s.session.state = .closed then s.returnZero size
    else if isEstablished s.session.state = false then s.returnError
    else { s with reader := .waiting size blocking }
  else
    let bytes := s.session.inputBuffer.take size
    let s' : State :=
      { s with
        session := { s.session with inputBuffer := s.session.inputBuffer.drop size }
        delivered := s.delivered ++ bytes }
    if bytes = [] then s'.returnZero size else { s' with reader := .idle }

def advance (s : State) : Option State :=
  match s.reader with
  | .idle => none
  | .entered size blocking =>
    some (if isEstablished s.session.state then { s with reader := .connected size blocking }
      else s.returnZero size)
  | .connected size blocking =>
    some (if s.session.state = .closed then s.returnZero size
      else { s with reader := .notClosed size blocking })
  | .notClosed size blocking =>
    some (if isEstablished s.session.state then { s with reader := .locking size blocking }
      else s.returnError)
  | .locking size blocking => some (locked s size blocking)
  | .waiting size blocking => some { s with reader := .locking size blocking }

def State.setSession (s : State) (session : Session) : State :=
  { s with session, wasEstablished := s.wasEstablished || isEstablished session.state }

def step (s : State) : Event → Option State
  | .segment tcp o₁ o₂ =>
    some { s.setSession (s.session.processInSegment tcp o₁ o₂) with
      stream := s.stream ++ tcp.payload
      finArrived := s.finArrived || tcp.flags.fin }
  | .write bytes o => some (s.setSession (s.session.pushOutputBytes bytes o))
  | .close o =>
    some { s.setSession (s.session.close o) with closing := decide (s.session.state ≠ .closed) }
  | .closeReturns =>
    if s.closing then some { s.setSession s.session.afterClose with closing := false } else none
  | .read size blocking =>
    if s.reader = .idle then some { s with reader := .entered size blocking } else none
  | .advance => advance s

/-- In order and once: no data and no FIN after the FIN. -/
def PeerInOrder (s : State) : Event → Prop
  | .segment tcp _ _ => s.finArrived = true → tcp.payload = [] ∧ tcp.flags.fin = false
  | _ => True

def DataTaken (s : State) : Event → Prop
  | .segment tcp _ _ => tcp.payload ≠ [] → isEstablished s.session.state = true ∧
      s.session.isSeqMatch tcp = true ∧ tcp.flags.fin = false ∧ tcp.options = []
  | _ => True

/-- A read that finds the session no longer established finds the FIN arrived and the buffer
empty; one that does not block may find bytes. -/
def ReadsDone (s : State) : Event → Prop
  | .advance => s.wasEstablished = true → match s.reader with
    | .entered _ _ | .connected _ _ => isEstablished s.session.state = false →
        s.finArrived = true ∧ s.session.inputBuffer = []
    | .locking _ blocking => s.session.inputBuffer = [] →
        (blocking = false ∨ isEstablished s.session.state = false) → s.finArrived = true
    | _ => True
  | _ => True

def Guard (s : State) (ev : Event) : Prop := PeerInOrder s ev ∧ DataTaken s ev ∧ ReadsDone s ev

instance (s : State) (ev : Event) : Decidable (PeerInOrder s ev) := by
  cases ev <;> unfold PeerInOrder <;> infer_instance

instance (s : State) (ev : Event) : Decidable (DataTaken s ev) := by
  cases ev <;> unfold DataTaken <;> infer_instance

instance (s : State) (ev : Event) : Decidable (ReadsDone s ev) := by
  cases ev <;> unfold ReadsDone <;> try infer_instance
  cases s.reader <;> infer_instance

instance (s : State) (ev : Event) : Decidable (Guard s ev) :=
  inferInstanceAs (Decidable (_ ∧ _ ∧ _))

/-- After an end of file the reader has all bytes, and a FIN came. -/
def EofComplete (s : State) : Prop := s.eof = true → s.finArrived = true ∧ s.delivered = s.stream

def Conserved (s : State) : Prop := s.stream = s.delivered ++ s.session.inputBuffer

lemma processInSegment_input (s : Session) (tcp : Segment) (o₁ o₂ : Outcome) :
    (s.processInSegment tcp o₁ o₂).inputBuffer =
      if isEstablished s.state ∧ s.isSeqMatch tcp ∧ tcp.flags.fin = false then
        s.inputBuffer ++ copyData tcp (tcpDataLength tcp) else s.inputBuffer := by
  unfold processInSegment
  cases s.state with
  | closed =>
    unfold sendRst
    simp only [isEstablished, Bool.false_eq_true, false_and, if_false]
    split_ifs <;> rfl
  | synSent =>
    simp only [isEstablished, Bool.false_eq_true, false_and, if_false]
    split_ifs
    · exact (sameInput_enterEstablished _ o₂).inputBuffer.trans
        (sameInput_send _ _ _ o₁).inputBuffer
    · rfl
  | synReceived =>
    simp only [isEstablished, Bool.false_eq_true, false_and, if_false]
    split_ifs
    · exact (sameInput_enterEstablished s o₁).inputBuffer
    · rfl
  | established _ => simpa [isEstablished] using handleEstablished_input s tcp o₁
  | finSent => simp [isEstablished]
  | closeWait => simp [isEstablished]
  | lastAck =>
    simp only [isEstablished, Bool.false_eq_true, false_and, if_false]
    split_ifs
    · rfl
    · exact (sameInput_send s _ _ o₁).inputBuffer

variable {s : State}

lemma conserved_segment {tcp : Segment} {o₁ o₂ : Outcome} (h : Conserved s)
    (hg : DataTaken s (.segment tcp o₁ o₂)) :
    s.stream ++ tcp.payload =
      s.delivered ++ (s.session.processInSegment tcp o₁ o₂).inputBuffer := by
  rw [processInSegment_input, h]
  by_cases hp : tcp.payload = []
  · have hcopy : copyData tcp (tcpDataLength tcp) = [] := by
      rw [tcpDataLength_eq, hp]
      rfl
    simp [hp, hcopy]
  · obtain ⟨hest, hm, hfin, hopt⟩ := hg hp
    rw [if_pos ⟨hest, hm, hfin⟩, copyData_eq hopt, List.append_assoc]

structure Safe (s : State) : Prop where
  conserved : Conserved s
  eof : s.eof = true → s.finArrived = true ∧ s.session.inputBuffer = []

lemma Safe.complete (h : Safe s) : EofComplete s := by
  intro heof
  obtain ⟨hfin, hbuf⟩ := h.eof heof
  have hc := h.conserved
  rw [Conserved, hbuf, List.append_nil] at hc
  exact ⟨hfin, hc.symm⟩

lemma Safe.returnZero {size : ℕ} (h : Safe s)
    (hdone : s.wasEstablished → size ≠ 0 → s.finArrived ∧
      s.session.inputBuffer = []) : Safe (s.returnZero size) := by
  refine ⟨h.conserved, fun heof => ?_⟩
  simp only [State.returnZero, Bool.or_eq_true, Bool.and_eq_true, decide_eq_true_eq] at heof
  rcases heof with heof | ⟨hwas, hsize⟩
  · exact h.eof heof
  · exact hdone hwas hsize

lemma Safe.goto (h : Safe s) (pc : Pc) : Safe { s with reader := pc } := ⟨h.conserved, h.eof⟩

lemma safe_locked {size : ℕ} {blocking : Bool} (h : Safe s)
    (hg : s.wasEstablished → s.session.inputBuffer = [] →
      (blocking = false ∨ isEstablished s.session.state = false) → s.finArrived) :
    Safe (locked s size blocking) := by
  unfold locked
  dsimp only
  split_ifs with hempty hclosed hest hnil
  · refine h.returnZero fun hwas _ => ⟨hg hwas hempty.1 (.inr ?_), hempty.1⟩
    rw [hclosed]
    rfl
  · exact h.goto _
  · exact h.goto _
  · have hs' : Safe { s with
        session := { s.session with inputBuffer := s.session.inputBuffer.drop size }
        delivered := s.delivered ++ s.session.inputBuffer.take size } := by
      refine ⟨?_, fun heof => ⟨(h.eof heof).1, by simp [(h.eof heof).2]⟩⟩
      have hc := h.conserved
      rw [Conserved] at hc ⊢
      simp [hc]
    refine hs'.returnZero fun hwas hsize => ?_
    have hbuf : s.session.inputBuffer = [] := by
      rcases List.take_eq_nil_iff.1 hnil with hzero | hbuf
      · exact absurd hzero hsize
      · exact hbuf
    have hblock : blocking = false := by
      cases blocking with
      | false => rfl
      | true => exact absurd ⟨hbuf, rfl⟩ hempty
    exact ⟨hg hwas hbuf (.inl hblock), by simp [hbuf]⟩
  · refine ⟨?_, fun heof => ⟨(h.eof heof).1, by simp [(h.eof heof).2]⟩⟩
    have hc := h.conserved
    rw [Conserved] at hc ⊢
    simp [hc]

lemma safe_advance {s' : State} (h : Safe s) (hg : ReadsDone s .advance)
    (hs : advance s = some s') : Safe s' := by
  unfold advance at hs
  split at hs
  · cases hs
  · next size blocking hpc =>
    cases hs
    simp only [ReadsDone, hpc] at hg
    split_ifs with hest
    · exact h.goto _
    · exact h.returnZero fun hwas _ => hg hwas (by simpa using hest)
  · next size blocking hpc =>
    cases hs
    simp only [ReadsDone, hpc] at hg
    split_ifs with hclosed
    · refine h.returnZero fun hwas _ => hg hwas ?_
      rw [hclosed]
      rfl
    · exact h.goto _
  · cases hs
    split_ifs <;> exact h.goto _
  · next size blocking hpc =>
    cases hs
    simp only [ReadsDone, hpc] at hg
    exact safe_locked h hg
  · cases hs
    exact h.goto _

lemma Safe.setSession (h : Safe s) {t : Session} (ht : t.inputBuffer = s.session.inputBuffer) :
    Safe (s.setSession t) :=
  ⟨by rw [Conserved]; exact ht ▸ h.conserved, fun heof => ⟨(h.eof heof).1, ht.trans (h.eof heof).2⟩⟩

lemma close_input (s : Session) (o : Outcome) : (s.close o).inputBuffer = s.inputBuffer := by
  unfold close
  split_ifs
  · rfl
  · exact (sameInput_send s _ _ o).inputBuffer

lemma safe_step {s' : State} {ev : Event} (h : Safe s) (hg : Guard s ev)
    (hs : step s ev = some s') : Safe s' := by
  obtain ⟨hpeer, hdata, hreads⟩ := hg
  cases ev with
  | segment tcp o₁ o₂ =>
    cases hs
    refine ⟨conserved_segment h.conserved hdata, fun heof => ?_⟩
    obtain ⟨hfin, hbuf⟩ := h.eof heof
    refine ⟨by simp [hfin], ?_⟩
    have hnil := (hpeer hfin).1
    have hcons := conserved_segment h.conserved hdata
    rw [hnil, h.conserved, hbuf] at hcons
    show (s.session.processInSegment tcp o₁ o₂).inputBuffer = []
    simpa using hcons
  | write bytes o =>
    cases hs
    exact h.setSession (sameInput_pushOutputBytes s.session bytes o).inputBuffer
  | close o =>
    cases hs
    have := h.setSession (close_input s.session o)
    exact ⟨this.conserved, this.eof⟩
  | closeReturns =>
    simp only [step] at hs
    split_ifs at hs
    cases hs
    have := h.setSession rfl
    exact ⟨this.conserved, this.eof⟩
  | read size blocking =>
    simp only [step] at hs
    split_ifs at hs
    cases hs
    exact h.goto _
  | advance => exact safe_advance h hreads hs

/-- In every run in which the conditions hold, a read returns zero only after all
bytes of the peer were returned. -/
theorem eof_after_all_bytes (s : Session) (hs : Closing.Start s) (events : List Event)
    (h : Meets step Guard { session := s } events) :
    Always step EofComplete { session := s } events := by
  have hstart : Safe { session := s } := by
    refine ⟨?_, nofun⟩
    cases hs <;> rfl
  exact (always_of_meets (fun _ _ _ hi hg ht => safe_step hi hg ht) hstart h).mono
    fun _ he => he.complete

def synAck : Event :=
  .segment { seq := 0, ackSeq := 1, flags := { syn := true, ack := true }, fits := bare_fits } {} {}

def byteSegment : Event :=
  .segment
    { seq := 1, ackSeq := 1, flags := { ack := true }, payload := [7], fits := firstByte.fits }
    {} {}

def finSegment : Event :=
  .segment { seq := 2, ackSeq := 1, flags := { fin := true, ack := true }, fits := bare_fits } {} {}

def readThenFin : List Event :=
  [synAck, byteSegment, .read 1 true, .advance, .advance, .advance, .advance, finSegment,
    .read 1 true, .advance]

theorem eof_after_all_bytes_one_byte :
    Always step EofComplete { session := createTcpClient {} } readThenFin ∧
      ((exec step { session := createTcpClient {} } readThenFin).map
        fun s => (s.eof, s.delivered)) = some (true, [7]) :=
  ⟨eof_after_all_bytes _ .client readThenFin (meets_of_check (by decide +kernel)),
    by decide +kernel⟩

/-- The FIN arrives before the read: it returns zero with the byte buffered. -/
theorem eof_before_byte :
    ∃ s, exec step { session := createTcpClient {} }
        [synAck, byteSegment, finSegment, .read 1 true, .advance] = some s ∧
      s.session.inputBuffer = [7] ∧ ¬ EofComplete s := by
  refine ⟨_, rfl, rfl, fun h => ?_⟩
  exact absurd (h rfl).2 (by decide +kernel)

end GzOS.Tcp.Reading
