import GzOS.Runs
import GzOS.TcpSession

/-!
# Integrity of the received byte stream

The established handler never looks at the sequence number of a segment, so a duplicate
or a segment out of order corrupts the stream. In a run in which every segment that
passes continues the stream where it stands, the bytes read and the bytes still buffered
are a prefix of what the peer sent.
-/
namespace GzOS.Tcp
open Runs Session

/-- With all bytes that `pop_input_bytes` has returned. -/
structure Endpoint where
  session : Session
  delivered : List Byte := []

def Endpoint.received (e : Endpoint) : List Byte := e.delivered ++ e.session.inputBuffer

inductive Event
  | segment (tcp : Segment) (o₁ o₂ : Outcome)
  | read (size : ℕ)
  | write (bytes : List Byte) (o : Outcome)

def step (e : Endpoint) : Event → Option Endpoint
  | .segment tcp o₁ o₂ => some { e with session := e.session.processInSegment tcp o₁ o₂ }
  | .read size =>
    let r := e.session.popInputBytes size
    some ⟨r.2, e.delivered ++ r.1⟩
  | .write bytes o => some { e with session := e.session.pushOutputBytes bytes o }

/-- The slice of the peer's stream at `offset`. -/
structure SliceAt (stream : List Byte) (isn : Word) (tcp : Segment) (offset : ℕ) : Prop where
  seq : tcp.seq = isn + 1 + BitVec.ofNat 32 offset
  payload : tcp.payload <+: stream.drop offset

def Accepts (s : Session) (tcp : Segment) : Prop :=
  (∃ w, s.state = .established w) ∧ s.isSeqMatch tcp = true ∧ tcp.flags.fin = false ∧
    tcp.payload ≠ []

/-- Data is taken without options and from the first missing byte on. -/
def InOrder (stream : List Byte) (isn : Word) (e : Endpoint) (ev : Event) : Prop :=
  ∀ tcp o₁ o₂, ev = .segment tcp o₁ o₂ → Accepts e.session tcp →
    tcp.options = [] ∧ SliceAt stream isn tcp e.received.length

def Intact (stream : List Byte) (isn : Word) (e : Endpoint) : Prop :=
  e.received <+: stream ∧ ∀ w, e.session.state = .established w →
    e.session.receiveNextAck = isn + 1 + BitVec.ofNat 32 e.received.length

def Connected (s : Session) : Prop := s.state ≠ .synSent ∧ s.state ≠ .synReceived

variable {stream : List Byte} {isn : Word} {e : Endpoint}

lemma handleEstablished_cases (s : Session) (tcp : Segment) (o : Outcome) {w : Bool}
    (hst : s.state = .established w) :
    (SameInput s (s.handleEstablished tcp o) ∧
        ∃ w', (s.handleEstablished tcp o).state = .established w') ∨
      ((s.handleEstablished tcp o).inputBuffer = s.inputBuffer ∧
        (s.handleEstablished tcp o).state = .lastAck) ∨
      (Accepts s tcp ∧ SameInput (s.pushInputBytes (copyData tcp (tcpDataLength tcp)))
          (s.handleEstablished tcp o) ∧
        ∃ w', (s.handleEstablished tcp o).state = .established w') := by
  unfold handleEstablished
  dsimp only
  split_ifs with hm hfin hsize hsent
  · exact .inl ⟨.refl s, w, hst⟩
  · refine .inr (.inl ⟨?_, rfl⟩)
    exact (sameInput_send { s with receiveNextAck := s.receiveNextAck + 1 } _ _ o).inputBuffer
  · have h := sameInput_trigger s false o
    exact .inl ⟨⟨h.inputBuffer, h.receiveNextAck⟩, _, rfl⟩
  all_goals
    have hacc : Accepts s tcp := by
      refine ⟨⟨w, hst⟩, by simpa using hm, by simpa using hfin, fun hnil => hsize ?_⟩
      rw [tcpDataLength_eq, hnil]
      rfl
    have h := sameInput_trigger (s.pushInputBytes (copyData tcp (tcpDataLength tcp))) false o
  · exact .inr (.inr ⟨hacc, ⟨h.inputBuffer, h.receiveNextAck⟩, _, rfl⟩)
  refine .inr (.inr ⟨hacc, ?_, ?_⟩)
  · refine SameInput.trans ?_ (sameInput_send _ _ _ _)
    exact ⟨h.inputBuffer, h.receiveNextAck⟩
  · unfold sendAck send
    split_ifs <;> exact ⟨_, rfl⟩

lemma Intact.of_same {s' : Session} (h : Intact stream isn e)
    (hin : s'.inputBuffer = e.session.inputBuffer)
    (hack : ∀ w', s'.state = .established w' → s'.receiveNextAck = e.session.receiveNextAck ∧
      ∃ w, e.session.state = .established w) : Intact stream isn { e with session := s' } := by
  have hrec : Endpoint.received { e with session := s' } = e.received := by
    simp [Endpoint.received, hin]
  refine ⟨hrec ▸ h.1, fun w' hw' => ?_⟩
  obtain ⟨heq, w, hw⟩ := hack w' hw'
  rw [hrec]
  exact heq.trans (h.2 w hw)

lemma intact_established {tcp : Segment} {o : Outcome} {w : Bool} (h : Intact stream isn e)
    (hst : e.session.state = .established w)
    (hin : Accepts e.session tcp → tcp.options = [] ∧ SliceAt stream isn tcp e.received.length) :
    Intact stream isn { e with session := e.session.handleEstablished tcp o } := by
  rcases handleEstablished_cases e.session tcp o hst with ⟨hsame, _⟩ | ⟨hbuf, hlast⟩ |
    ⟨hacc, hsame, _⟩
  · exact h.of_same hsame.inputBuffer fun _ _ => ⟨hsame.receiveNextAck, w, hst⟩
  · refine h.of_same hbuf fun w' hw' => ?_
    rw [hlast] at hw'
    cases hw'
  · obtain ⟨hopt, hslice⟩ := hin hacc
    have hcopy := copyData_eq hopt
    have hrec : Endpoint.received { e with session := e.session.handleEstablished tcp o } =
        e.received ++ tcp.payload := by
      simp [Endpoint.received, hsame.inputBuffer, pushInputBytes, hcopy]
    obtain ⟨rest, hrest⟩ := h.1
    obtain ⟨tail, htail⟩ := hslice.payload
    rw [← hrest, List.drop_left] at htail
    refine ⟨hrec ▸ ⟨tail, by rw [← hrest, ← htail, List.append_assoc]⟩, fun w' _ => ?_⟩
    rw [hrec, List.length_append, BitVec.ofNat_add, ← BitVec.add_assoc, ← h.2 w hst]
    simp only [hsame.receiveNextAck, pushInputBytes, length_copyData]

/-- No data is sent, the buffers stay, and the session keeps its state or is closed. -/
structure Quiet (s t : Session) : Prop where
  sent : ∃ ts, t.transmitted = s.transmitted ++ ts ∧ ∀ u ∈ ts, u.data = []
  inputBuffer : t.inputBuffer = s.inputBuffer
  outputBuffer : t.outputBuffer = s.outputBuffer
  state : t.state = s.state ∨ t.state = .closed

lemma Quiet.refl (s : Session) : Quiet s s := ⟨⟨[], by simp, by simp⟩, rfl, rfl, .inl rfl⟩

lemma quiet_send (s : Session) (flags : Flags) (o : Outcome) : Quiet s (s.send flags [] o) := by
  unfold send
  cases o.allocated with
  | true => exact ⟨⟨_, rfl, by simp⟩, rfl, rfl, .inl rfl⟩
  | false => exact .refl s

lemma processInSegment_cases {s : Session} (h : Connected s) (tcp : Segment) (o₁ o₂ : Outcome) :
    (∃ w, s.state = .established w ∧
        s.processInSegment tcp o₁ o₂ = s.handleEstablished tcp o₁) ∨
      (∀ w, s.state ≠ .established w) ∧ Quiet s (s.processInSegment tcp o₁ o₂) := by
  unfold processInSegment
  split
  · next hst =>
    refine .inr ⟨by simp [hst], ?_⟩
    unfold sendRst
    split_ifs
    · exact ⟨⟨_, rfl, by simp⟩, rfl, rfl, .inl rfl⟩
    · exact .refl s
  · next hst => exact absurd hst h.1
  · next hst => exact absurd hst h.2
  · next w hst => exact .inl ⟨w, hst, rfl⟩
  · next hst => exact .inr ⟨by simp [hst], .refl s⟩
  · next hst => exact .inr ⟨by simp [hst], .refl s⟩
  · next hst =>
    refine .inr ⟨by simp [hst], ?_⟩
    split_ifs
    · exact .refl s
    · have hsend := quiet_send s { ack := true } o₁
      exact ⟨hsend.sent, hsend.inputBuffer, hsend.outputBuffer, .inr rfl⟩

lemma connected_processInSegment {s : Session} (h : Connected s) (tcp : Segment)
    (o₁ o₂ : Outcome) : Connected (s.processInSegment tcp o₁ o₂) := by
  rcases processInSegment_cases h tcp o₁ o₂ with ⟨w, hst, heq⟩ | ⟨-, hquiet⟩
  · rw [heq]
    rcases handleEstablished_cases s tcp o₁ hst with ⟨_, w', hw⟩ | ⟨_, hw⟩ | ⟨_, _, w', hw⟩
    all_goals simp [Connected, hw]
  · rcases hquiet.state with hst | hst
    · rwa [Connected, hst]
    · simp [Connected, hst]

lemma intact_processInSegment {tcp : Segment} {o₁ o₂ : Outcome} (h : Intact stream isn e)
    (hc : Connected e.session)
    (hin : Accepts e.session tcp → tcp.options = [] ∧ SliceAt stream isn tcp e.received.length) :
    Intact stream isn { e with session := e.session.processInSegment tcp o₁ o₂ } := by
  rcases processInSegment_cases hc tcp o₁ o₂ with ⟨w, hst, heq⟩ | ⟨hno, hquiet⟩
  · rw [heq]
    exact intact_established h hst hin
  · refine h.of_same hquiet.inputBuffer fun w hw => ?_
    rcases hquiet.state with hst | hst
    · exact absurd (hst.symm.trans hw) (hno w)
    · cases hst.symm.trans hw

lemma pushOutputBytes_state (s : Session) (bytes : List Byte) (o : Outcome) :
    (s.pushOutputBytes bytes o).state = s.state ∨
      ∃ w w', s.state = .established w ∧ (s.pushOutputBytes bytes o).state = .established w' := by
  unfold pushOutputBytes
  dsimp only
  split
  · next w hst => exact .inr ⟨w, _, hst, rfl⟩
  · exact .inl rfl

lemma intact_write (h : Intact stream isn e) (bytes : List Byte) (o : Outcome) :
    Intact stream isn { e with session := e.session.pushOutputBytes bytes o } := by
  have hsame := sameInput_pushOutputBytes e.session bytes o
  refine h.of_same hsame.inputBuffer fun w' hw' => ⟨hsame.receiveNextAck, ?_⟩
  rcases pushOutputBytes_state e.session bytes o with hs | ⟨w, _, hw, _⟩
  · exact ⟨w', hs ▸ hw'⟩
  · exact ⟨w, hw⟩

lemma intact_read (h : Intact stream isn e) (size : ℕ) :
    Intact stream isn ⟨(e.session.popInputBytes size).2,
      e.delivered ++ (e.session.popInputBytes size).1⟩ := by
  have hrec : Endpoint.received ⟨(e.session.popInputBytes size).2,
      e.delivered ++ (e.session.popInputBytes size).1⟩ = e.received := by
    unfold popInputBytes Endpoint.received
    split <;> simp
  have hkeep : (e.session.popInputBytes size).2.state = e.session.state ∧
      (e.session.popInputBytes size).2.receiveNextAck = e.session.receiveNextAck := by
    unfold popInputBytes
    split <;> exact ⟨rfl, rfl⟩
  refine ⟨hrec ▸ h.1, fun w hw => ?_⟩
  rw [hrec, hkeep.2]
  exact h.2 w (hkeep.1 ▸ hw)

lemma intact_step {e' : Endpoint} {ev : Event} (h : Intact stream isn e ∧ Connected e.session)
    (hg : InOrder stream isn e ev) (hs : step e ev = some e') :
    Intact stream isn e' ∧ Connected e'.session := by
  cases ev with
  | segment tcp o₁ o₂ =>
    cases hs
    exact ⟨intact_processInSegment h.1 h.2 (hg tcp o₁ o₂ rfl),
      connected_processInSegment h.2 tcp o₁ o₂⟩
  | read size =>
    cases hs
    refine ⟨intact_read h.1 size, ?_⟩
    unfold popInputBytes
    split <;> exact h.2
  | write bytes o =>
    cases hs
    refine ⟨intact_write h.1 bytes o, ?_⟩
    unfold Connected
    rcases pushOutputBytes_state e.session bytes o with hst | ⟨_, w', _, hst⟩
    · exact hst.symm ▸ h.2
    · simp [hst]

/-- In every run of an established session in which the accepted segments are
in order, the received bytes are a prefix of the stream. -/
theorem receive_stream_intact (stream : List Byte) (isn : Word) (e : Endpoint) (w : Bool)
    (hst : e.session.state = .established w) (he : Intact stream isn e) (events : List Event)
    (h : Meets step (InOrder stream isn) e events) :
    Always step (Intact stream isn) e events := by
  have hc : Connected e.session := by simp [Connected, hst]
  have hall := always_of_meets (I := fun u => Intact stream isn u ∧ Connected u.session)
    (fun _ _ _ hi hg hs => intact_step hi hg hs) ⟨he, hc⟩ h
  exact hall.mono fun _ hu => hu.1

def freshEndpoint : Endpoint := ⟨⟨.established false, 1, 1, [], [], []⟩, []⟩

lemma freshEndpoint_intact : Intact [7, 8] 0 freshEndpoint := ⟨List.nil_prefix, fun _ _ => rfl⟩

def firstByte : Segment := { seq := 1, ackSeq := 1, payload := [7], fits := by decide }

def secondByte : Segment := { seq := 2, ackSeq := 1, payload := [8], fits := by decide }

/-- Two segments in order and a read after each. -/
theorem receive_stream_intact_two_segments :
    Always step (Intact [7, 8] 0) freshEndpoint
      [.segment firstByte {} {}, .read 1, .segment secondByte {} {}, .read 1] := by
  refine receive_stream_intact _ _ _ false rfl freshEndpoint_intact _ ?_
  simp only [meets_cons]
  refine ⟨?_, fun e1 h1 => ⟨?_, fun e2 h2 => ⟨?_, fun e3 _ => ⟨?_, fun _ _ => meets_nil _ _ _⟩⟩⟩⟩
  · intro tcp o₁ o₂ he _
    obtain ⟨rfl, _, _⟩ := Event.segment.inj he
    exact ⟨rfl, rfl, by decide⟩
  · intro tcp o₁ o₂ he
    cases he
  · intro tcp o₁ o₂ he _
    obtain ⟨rfl, _, _⟩ := Event.segment.inj he
    cases h1
    cases h2
    exact ⟨rfl, rfl, by decide⟩
  · intro tcp o₁ o₂ he
    cases he

/-- The same segment twice: its byte is received twice. -/
theorem duplicate_corrupts_stream :
    SliceAt [7, 8] 0 firstByte 0 ∧ Intact [7, 8] 0 freshEndpoint ∧
      ∃ e, exec step freshEndpoint [.segment firstByte {} {}, .segment firstByte {} {}] = some e ∧
        ¬ Intact [7, 8] 0 e := by
  refine ⟨⟨rfl, by decide⟩, freshEndpoint_intact, _, rfl, fun h => ?_⟩
  exact absurd h.1 (by decide)

end GzOS.Tcp
