import GzOS.ReceiveStream

/-!
# No accepted byte is dropped

`handle_output_trigger` takes bytes out of the output buffer before it knows whether the
segment can be allocated; if not, they are gone. In runs in which every data segment is
handed over, the bytes accepted are those handed over followed by those still buffered. In
the strict reading the call of `ip_output` also has to succeed.
-/
namespace GzOS.Tcp
open Runs Session List

def Outcome.handedOver (strict : Bool) (o : Outcome) : Bool := o.allocated && (!strict || o.output)

def Session.pushSegment (s : Session) : Transmitted :=
  ⟨s.seq, s.receiveNextAck, { ack := true, psh := true }, s.outputBuffer.take 1400⟩

def Session.pushed (s : Session) : Session :=
  { s with
    outputBuffer := s.outputBuffer.drop 1400
    seq := s.seq + BitVec.ofNat 32 (s.outputBuffer.take 1400).length
    transmitted := s.transmitted ++ [s.pushSegment] }

variable {w strict : Bool} {o : Outcome} {s : Session} {e : Sender}

lemma handleOutputTrigger_spec (s : Session)
    (ho : w = false → s.outputBuffer ≠ [] → o.allocated) :
    ((w ∨ s.outputBuffer = []) ∧ s.handleOutputTrigger w o = ⟨false, w, s⟩) ∨
      (w = false ∧ s.outputBuffer ≠ [] ∧ s.handleOutputTrigger w o = ⟨true, true, s.pushed⟩) := by
  cases w with
  | true => exact .inl ⟨.inl rfl, rfl⟩
  | false =>
    by_cases hnil : s.outputBuffer = []
    · refine .inl ⟨.inr hnil, ?_⟩
      simp [handleOutputTrigger, hnil]
    · refine .inr ⟨rfl, hnil, ?_⟩
      have halloc := ho rfl hnil
      simp [handleOutputTrigger, hnil, sendAckPush, send, halloc,  pushed, pushSegment]

/-- With the bytes accepted, the segments handed over and those not yet acknowledged. -/
structure Sender where
  session : Session
  accepted : List Byte := []
  handed : List Transmitted := []
  outstanding : List Transmitted := []

inductive OutputEvent
  | write (bytes : List Byte) (o : Outcome)
  | segment (tcp : Segment) (o₁ o₂ : Outcome)

def newData (s s' : Session) : List Transmitted :=
  (s'.transmitted.drop s.transmitted.length).filter fun t => t.data ≠ []

def Transmitted.next (t : Transmitted) : Word := t.seq + BitVec.ofNat 32 t.data.length

def Sender.move (e : Sender) (strict : Bool) (o : Outcome) (s' : Session) : Sender :=
  let new := if o.handedOver strict then newData e.session s' else []
  { e with session := s', handed := e.handed ++ new, outstanding := e.outstanding ++ new }

def Sender.acknowledge (e : Sender) (ackSeq : Word) : Sender :=
  { e with outstanding := e.outstanding.filter fun t => t.next ≠ ackSeq }

def outputStep (strict : Bool) (e : Sender) : OutputEvent → Option Sender
  | .write bytes o =>
    some ({ e with accepted := e.accepted ++ bytes }.move strict o
      (e.session.pushOutputBytes bytes o))
  | .segment tcp o₁ o₂ =>
    some ((e.acknowledge tcp.ackSeq).move strict o₁ (e.session.processInSegment tcp o₁ o₂))

def Pops (s : Session) : OutputEvent → Prop
  | .write bytes _ => s.state = .established false ∧ s.outputBuffer ++ bytes ≠ []
  | .segment tcp _ _ => (∃ w, s.state = .established w) ∧ s.isSeqMatch tcp = true ∧
      tcp.flags.fin = false ∧ s.outputBuffer ≠ []

def OutputEvent.outcome : OutputEvent → Outcome
  | .write _ o => o
  | .segment _ o₁ _ => o₁

/-- What is popped is handed over. -/
def HandsOver (strict : Bool) (e : Sender) (ev : OutputEvent) : Prop :=
  Pops e.session ev → ev.outcome.handedOver strict = true

/-- Every accepted byte was handed over or is buffered, and a session waits only for an
acknowledgment that can come. -/
structure Kept (e : Sender) : Prop where
  bytes : e.accepted = e.handed.flatMap Transmitted.data ++ e.session.outputBuffer
  waiting : e.session.state = .established true → e.outstanding ≠ []

/-- The segment that is waited for ends at the next sequence number. -/
structure Accounted (e : Sender) : Prop where
  bytes : e.accepted = e.handed.flatMap Transmitted.data ++ e.session.outputBuffer
  waiting : e.session.state = .established true → ∃ t ∈ e.outstanding, t.next = e.session.seq
  connected : Connected e.session

variable {s' : Session} {ts : List Transmitted}

lemma newData_of_silent (h : s'.transmitted = s.transmitted ++ ts)
    (hts : ∀ t ∈ ts, t.data = []) : newData s s' = [] := by
  rw [newData, h, drop_left, filter_eq_nil_iff]
  intro t ht
  simp [hts t ht]

lemma Sender.move_silent
    (h : newData e.session s' = []) : e.move strict o s' = { e with session := s' } := by
  simp [Sender.move, h]

lemma Accounted.silent (h : Accounted e)
    (hsent : s'.transmitted = e.session.transmitted ++ ts) (hts : ∀ t ∈ ts, t.data = [])
    (hbuf : e.session.outputBuffer = s'.outputBuffer)
    (hwait : s'.state = .established true → e.session.state = .established true ∧
      s'.seq = e.session.seq) (hc : Connected s') : Accounted (e.move strict o s') := by
  rw [Sender.move_silent (newData_of_silent hsent hts)]
  refine ⟨hbuf ▸ h.bytes, fun hst => ?_, hc⟩
  obtain ⟨hw, hseq⟩ := hwait hst
  obtain ⟨t, ht, hn⟩ := h.waiting hw
  exact ⟨t, ht, hn.trans hseq.symm⟩

lemma Accounted.sent {t : Transmitted}
    {rest : List Byte} (hbytes : e.accepted = e.handed.flatMap Transmitted.data ++ (t.data ++ rest))
    (ho : o.handedOver strict) (hsent : s'.transmitted = e.session.transmitted ++ t :: ts)
    (ht : t.data ≠ []) (hts : ∀ u ∈ ts, u.data = []) (hbuf : s'.outputBuffer = rest)
    (hseq : t.next = s'.seq) (hc : Connected s') : Accounted (e.move strict o s') := by
  have hnew : newData e.session s' = [t] := by
    rw [newData, hsent, drop_left, filter_cons_of_pos (by simpa using ht), filter_eq_nil_iff.2]
    intro u hu
    simp [hts u hu]
  refine ⟨?_, fun _ => ⟨t, ?_, hseq⟩, hc⟩
  · simpa [Sender.move, ho, hnew, hbuf] using hbytes
  · simp [Sender.move, ho, hnew]

lemma allocated_of_handedOver (h : o.handedOver strict) : o.allocated := by
  rw [Outcome.handedOver, Bool.and_eq_true] at h
  exact h.1

lemma pushSegment_data_ne_nil (h : s.outputBuffer ≠ []) : s.pushSegment.data ≠ [] := by
  cases hb : s.outputBuffer with
  | nil => exact absurd hb h
  | cons b bs => simp [pushSegment, hb]

lemma accounted_trigger
    (hbytes : e.accepted = e.handed.flatMap Transmitted.data ++ e.session.outputBuffer)
    (hwait : w → ∃ t ∈ e.outstanding, t.next = e.session.seq)
    (ho : w = false → e.session.outputBuffer ≠ [] → o.handedOver strict)
    (hs' : s' = { (e.session.handleOutputTrigger w o).session with
      state := .established (e.session.handleOutputTrigger w o).waitingForAck }) :
    Accounted (e.move strict o s') := by
  rcases handleOutputTrigger_spec e.session fun hw hn => allocated_of_handedOver (ho hw hn) with
    ⟨-, heq⟩ | ⟨hw, hn, heq⟩
  · rw [heq] at hs'
    have hsame : s'.transmitted = e.session.transmitted ++ [] := by simp [hs']
    rw [Sender.move_silent (newData_of_silent hsame (by simp))]
    subst hs'
    exact ⟨hbytes, fun hst => hwait (TcpState.established.inj hst), ⟨nofun, nofun⟩⟩
  · rw [heq] at hs'
    subst hs'
    refine Accounted.sent ?_ (ho hw hn) rfl
      (pushSegment_data_ne_nil hn) (by simp) rfl rfl ⟨nofun, nofun⟩
    rw [hbytes]
    simp [pushSegment, pushed]

lemma accounted_write {bytes : List Byte}
    (h : Accounted e) (hg : HandsOver strict e (.write bytes o)) :
    Accounted ({ e with accepted := e.accepted ++ bytes }.move strict o
      (e.session.pushOutputBytes bytes o)) := by
  -- The write first extends the buffer, which keeps the account.
  let e1 : Sender :=
    { e with
      session := { e.session with outputBuffer := e.session.outputBuffer ++ bytes }
      accepted := e.accepted ++ bytes }
  have hbytes : e1.accepted = e1.handed.flatMap Transmitted.data ++ e1.session.outputBuffer := by
    simp [e1, h.bytes]
  have h1 : Accounted e1 := ⟨hbytes, h.waiting, h.connected⟩
  show Accounted (e1.move strict o (e.session.pushOutputBytes bytes o))
  by_cases hest : ∃ w, e.session.state = .established w
  · obtain ⟨w, hw⟩ := hest
    refine accounted_trigger hbytes (fun hwt => h.waiting (hwt ▸ hw)) (fun hwf hn => ?_) ?_
    · exact hg ⟨hwf ▸ hw, hn⟩
    · simp only [pushOutputBytes, hw, e1]
  · have heq : e.session.pushOutputBytes bytes o = e1.session := by
      unfold pushOutputBytes
      dsimp only
      split
      · next w hw => exact absurd ⟨w, hw⟩ hest
      · rfl
    rw [heq]
    exact h1.silent (append_nil _).symm (by simp) rfl (fun hst => ⟨hst, rfl⟩) h.connected

/-! The segments of an established session, which acknowledge the outstanding ones first. -/

section
variable {strict : Bool} {e : Sender} {tcp : Segment} {o : Outcome}

lemma accounted_closeWait (h : Accounted e) :
    Accounted ((e.acknowledge tcp.ackSeq).move strict o (e.session.enterCloseWait o)) := by
  have hquiet := quiet_send { e.session with receiveNextAck := e.session.receiveNextAck + 1 }
    { fin := true, ack := true } o
  obtain ⟨ts, hsent, hts⟩ := hquiet.sent
  have hnew : newData (e.acknowledge tcp.ackSeq).session (e.session.enterCloseWait o) = [] :=
    newData_of_silent hsent hts
  rw [Sender.move_silent hnew]
  refine ⟨?_, (fun hst => nomatch hst), ⟨nofun, nofun⟩⟩
  have hb : (e.session.enterCloseWait o).outputBuffer = e.session.outputBuffer :=
    hquiet.outputBuffer
  rw [hb]
  exact h.bytes

lemma accounted_data (h : Accounted e) (hm : e.session.isSeqMatch tcp)
    (hfin : tcp.flags.fin = false) (hsize : tcpDataLength tcp ≠ 0)
    (ho : e.session.outputBuffer ≠ [] → o.handedOver strict) :
    Accounted ((e.acknowledge tcp.ackSeq).move strict o (e.session.handleEstablished tcp o)) := by
  let s1 := e.session.pushInputBytes (copyData tcp (tcpDataLength tcp))
  let e1 : Sender := { e.acknowledge tcp.ackSeq with session := s1 }
  have ho1 : false = false → s1.outputBuffer ≠ [] → o.allocated :=
    fun _ hn => allocated_of_handedOver (ho hn)
  show Accounted (e1.move strict o (e.session.handleEstablished tcp o))
  rcases handleOutputTrigger_spec s1 ho1 with ⟨-, heq⟩ | ⟨-, hn, heq⟩
  · have hs' : e.session.handleEstablished tcp o =
        sendAck { s1 with state := .established false } o := by
      simp [handleEstablished, hm, hfin, hsize, heq, s1]
    have hquiet := quiet_send { s1 with state := .established false } { ack := true } o
    obtain ⟨ts, hsent, hts⟩ := hquiet.sent
    rw [hs', sendAck]
    have hnew : newData e1.session _ = [] := newData_of_silent hsent hts
    rw [Sender.move_silent hnew]
    have hst : (send { s1 with state := .established false } { ack := true } [] o).state =
        .established false := by
      unfold send
      split_ifs <;> rfl
    refine ⟨?_, fun hcon => absurd (hst.symm.trans hcon) (by simp), by simp [Connected, hst]⟩
    rw [hquiet.outputBuffer]
    exact h.bytes
  · refine accounted_trigger (w := false) h.bytes (by simp) (fun _ hn => ho hn) ?_
    simp [handleEstablished, hm, hfin, hsize, heq, s1, e1]

lemma Accounted.acknowledge (h : Accounted e) (hm : e.session.isSeqMatch tcp = false) :
    Accounted (e.acknowledge tcp.ackSeq) := by
  refine ⟨h.bytes, fun hst => ?_, h.connected⟩
  obtain ⟨t, ht, hnext⟩ := h.waiting hst
  have hne : tcp.ackSeq ≠ e.session.seq := by simpa [isSeqMatch] using hm
  refine ⟨t, mem_filter.2 ⟨ht, ?_⟩, hnext⟩
  rw [hnext]
  exact decide_eq_true hne.symm

lemma accounted_established (h : Accounted e)
    (ho : e.session.isSeqMatch tcp → tcp.flags.fin = false → e.session.outputBuffer ≠ [] →
      o.handedOver strict) :
    Accounted ((e.acknowledge tcp.ackSeq).move strict o (e.session.handleEstablished tcp o)) := by
  cases hm : e.session.isSeqMatch tcp with
  | true =>
    cases hfin : tcp.flags.fin with
    | true =>
      have heq : e.session.handleEstablished tcp o = e.session.enterCloseWait o := by
        simp [handleEstablished, hm, hfin]
      rw [heq]
      exact accounted_closeWait h
    | false =>
      by_cases hsize : tcpDataLength tcp = 0
      · refine accounted_trigger (w := false) h.bytes (fun hw => by cases hw)
          (fun _ hn => ho hm hfin hn) ?_
        simp [handleEstablished, hm, hfin, hsize, Sender.acknowledge]
      · exact accounted_data h hm hfin hsize (ho hm hfin)
  | false =>
    have heq : e.session.handleEstablished tcp o = e.session := by
      simp [handleEstablished, hm]
    rw [heq]
    exact (h.acknowledge hm).silent (append_nil _).symm (by simp) rfl
      (fun hst => ⟨hst, rfl⟩) h.connected

end

lemma accounted_segment {strict : Bool} {e : Sender} {tcp : Segment} {o₁ o₂ : Outcome}
    (h : Accounted e) (hg : HandsOver strict e (.segment tcp o₁ o₂)) :
    Accounted ((e.acknowledge tcp.ackSeq).move strict o₁
      (e.session.processInSegment tcp o₁ o₂)) := by
  rcases processInSegment_cases h.connected tcp o₁ o₂ with ⟨w, hw, heq⟩ | ⟨hno, hquiet⟩
  · rw [heq]
    exact accounted_established h fun hm hfin hn => hg ⟨⟨w, hw⟩, hm, hfin, hn⟩
  obtain ⟨ts, hsent, hts⟩ := hquiet.sent
  have hnew : newData (e.acknowledge tcp.ackSeq).session
      (e.session.processInSegment tcp o₁ o₂) = [] := newData_of_silent hsent hts
  rw [Sender.move_silent hnew]
  refine ⟨?_, fun hcon => ?_, connected_processInSegment h.connected tcp o₁ o₂⟩
  · rw [hquiet.outputBuffer]
    exact h.bytes
  · rcases hquiet.state with hst | hst
    · exact absurd (hst.symm.trans hcon) (hno true)
    · cases hst.symm.trans hcon

lemma accounted_step {strict : Bool} {e e' : Sender} {ev : OutputEvent} (h : Accounted e)
    (hg : HandsOver strict e ev) (hs : outputStep strict e ev = some e') : Accounted e' := by
  cases ev with
  | write bytes o =>
    cases hs
    exact accounted_write h hg
  | segment tcp o₁ o₂ =>
    cases hs
    exact accounted_segment h hg

/-- In every run of an established session in which each data segment is handed
over, no accepted byte is lost and the session never waits in vain. -/
theorem accepted_output_kept (strict : Bool) (s : Session) (hst : s.state = .established false)
    (hbuf : s.outputBuffer = []) (events : List OutputEvent)
    (h : Meets (outputStep strict) (HandsOver strict) { session := s } events) :
    Always (outputStep strict) Kept { session := s } events := by
  have hstart : Accounted { session := s } := by
    refine ⟨by simp [hbuf], fun hw => ?_, by simp [Connected, hst]⟩
    rw [hst] at hw
    cases hw
  exact (always_of_meets (fun _ _ _ hi hg hs => accounted_step hi hg hs) hstart h).mono
    fun _ h =>
    ⟨h.bytes, fun hw => ne_nil_of_mem (h.waiting hw).choose_spec.1⟩

def established : Session := ⟨.established false, 1, 1, [], [], []⟩

/-- The second write waits in the buffer for the acknowledgment of the first. -/
theorem accepted_output_kept_two_writes :
    Always (outputStep true) Kept { session := established }
      [.write [7] {}, .write [8] {},
        .segment { seq := 1, ackSeq := 2, fits := by decide } {} {}] := by
  apply accepted_output_kept true established rfl rfl
  simp only [meets_cons]
  exact ⟨fun _ => rfl, fun _ _ => ⟨fun _ => rfl, fun _ _ => ⟨fun _ => rfl, fun _ _ =>
    meets_nil _ _ _⟩⟩⟩

def failedWrite : List OutputEvent := [.write [7] { allocated := false }]

/-- The byte is neither buffered nor handed over, in either sense, and the session
waits although nothing is outstanding. -/
theorem output_dropped :
    (∃ e, exec (outputStep false) { session := established } failedWrite = some e ∧
      e.accepted = [7] ∧ e.handed = [] ∧ e.session.outputBuffer = [] ∧
      e.session.state = .established true ∧ e.outstanding = [] ∧ ¬ Kept e) ∧
    ∃ e, exec (outputStep true) { session := established } failedWrite = some e ∧ ¬ Kept e := by
  refine ⟨⟨_, rfl, rfl, rfl, rfl, rfl, rfl, fun h => ?_⟩, ⟨_, rfl, fun h => ?_⟩⟩
  · exact h.waiting rfl rfl
  · exact h.waiting rfl rfl

end GzOS.Tcp
