import GzOS.CloseSending

/-!
# One data segment at a time

The history of a session has the segments it has sent and the acknowledgment numbers it
has received, each with the next sequence number at that time. The flag
`_waiting_for_ack` is cleared by any segment with the right number. So while it is
clear, the history has such a number after every data segment.
-/
namespace GzOS.Tcp.StopAndWait
open Runs List Session
open Closing (Start)

inductive Record
  | sent (t : Transmitted)
  | received (ackSeq seq : Word)

abbrev History := List Record

def dataSent : History → List Transmitted
  | [] => []
  | .sent t :: h => if t.data = [] then dataSent h else t :: dataSent h
  | .received _ _ :: h => dataSent h

def unacknowledged : History → List Transmitted
  | [] => []
  | .sent t :: h => if t.data = [] then unacknowledged h else t :: unacknowledged h
  | .received ackSeq seq :: h => if ackSeq = seq then [] else unacknowledged h

/-- After every data segment the number `seq` was received when it was the next one. -/
def Covered (seq : Word) (h : History) : Prop :=
  ∀ later t earlier, h = later ++ .sent t :: earlier → t.data ≠ [] → .received seq seq ∈ later

/-- At most one segment of at most 1400 bytes is unacknowledged, and numbers have no gaps. -/
structure Disciplined (h : History) : Prop where
  waits : ∀ later t earlier, h = later ++ .sent t :: earlier → t.data ≠ [] → Covered t.seq earlier
  one : (unacknowledged h).length ≤ 1
  size : ∀ t ∈ dataSent h, t.data.length ≤ 1400
  contiguous : (dataSent h).IsChain fun later earlier => later.seq = earlier.next

structure Watched where
  session : Session
  history : History := []

inductive Event
  | write (bytes : List Byte)
  | segment (tcp : Segment)

def records (ts : List Transmitted) : History := (ts.map Record.sent).reverse

def Watched.move (e : Watched) (s : Session) : Watched :=
  ⟨s, records (s.transmitted.drop e.session.transmitted.length) ++ e.history⟩

/-- All sends succeed. -/
def step (e : Watched) : Event → Option Watched
  | .write bytes => some (e.move (e.session.pushOutputBytes bytes {}))
  | .segment tcp =>
    some ({ e with history := .received tcp.ackSeq e.session.seq :: e.history }.move
      (e.session.processInSegment tcp {} {}))

/-! Histories. -/

variable {h : History} {seq : Word} {t : Transmitted} {r : Record}

def Silent : Record → Prop
  | .sent t => t.data = []
  | .received _ _ => True

lemma covered_received (seq : Word) (h : History) : Covered seq (.received seq seq :: h) := by
  intro later t earlier heq ht
  rcases cons_eq_append_iff.1 heq with ⟨rfl, hcons⟩ | ⟨later, rfl, -⟩
  · cases hcons
  · exact mem_cons_self

lemma Covered.silent (hc : Covered seq h) (hr : Silent r) : Covered seq (r :: h) := by
  intro later t earlier heq ht
  rcases cons_eq_append_iff.1 heq with ⟨rfl, hcons⟩ | ⟨later, rfl, hrest⟩
  · obtain ⟨rfl, -⟩ := cons.inj hcons
    exact absurd hr ht
  · exact mem_cons_of_mem _ (hc later t earlier hrest ht)

lemma dataSent_silent (hr : Silent r) : dataSent (r :: h) = dataSent h := by
  cases r with
  | sent t => exact if_pos hr
  | received ackSeq seq => rfl

lemma covered_of_dataSent (hnone : dataSent h = []) (seq : Word) : Covered seq h := by
  induction h with
  | nil => simp [Covered]
  | cons r h ih =>
    cases r with
    | sent t =>
      by_cases ht : t.data = []
      · have hr : Silent (.sent t) := ht
        exact (ih (by rwa [dataSent_silent hr] at hnone)).silent hr
      · rw [dataSent, if_neg ht] at hnone
        cases hnone
    | received ackSeq seq => exact (ih hnone).silent trivial

lemma Covered.tail (hc : Covered seq (r :: h)) (hr : r ≠ .received seq seq) : Covered seq h := by
  intro later t earlier heq ht
  have hin := hc (r :: later) t earlier (by rw [heq]; rfl) ht
  exact (mem_cons.1 hin).resolve_left hr.symm

lemma Covered.unacknowledged (hc : Covered seq h) : unacknowledged h = [] := by
  induction h with
  | nil => rfl
  | cons r h ih =>
    cases r with
    | sent t =>
      rw [StopAndWait.unacknowledged]
      split_ifs with ht
      · exact ih (hc.tail nofun)
      · exact absurd (hc [] t h rfl ht) not_mem_nil
    | received ackSeq number =>
      rw [StopAndWait.unacknowledged]
      split_ifs with heq
      · rfl
      · refine ih (hc.tail fun hr => heq ?_)
        cases hr
        rfl

lemma Disciplined.nil : Disciplined [] :=
  ⟨fun later t earlier heq => by simp at heq, by simp [StopAndWait.unacknowledged], by
    simp [dataSent], by simp [dataSent]⟩

lemma Disciplined.silent (hd : Disciplined h) (hr : Silent r) : Disciplined (r :: h) := by
  refine ⟨?_, ?_, ?_, ?_⟩
  · intro later t earlier heq ht
    rcases cons_eq_append_iff.1 heq with ⟨rfl, hcons⟩ | ⟨later, rfl, hrest⟩
    · obtain ⟨rfl, -⟩ := cons.inj hcons
      exact absurd hr ht
    · exact hd.waits later t earlier hrest ht
  · cases r with
    | sent t =>
      have ht : t.data = [] := hr
      rw [StopAndWait.unacknowledged, if_pos ht]
      exact hd.one
    | received ackSeq seq =>
      rw [StopAndWait.unacknowledged]
      split_ifs
      · exact Nat.zero_le 1
      · exact hd.one
  · rw [dataSent_silent hr]
    exact hd.size
  · rw [dataSent_silent hr]
    exact hd.contiguous

lemma Disciplined.sent (hd : Disciplined h) (ht : t.data ≠ []) (hsize : t.data.length ≤ 1400)
    (hc : Covered t.seq h) (hnext : ∀ u ∈ (dataSent h).head?, u.next = t.seq) :
    Disciplined (.sent t :: h) := by
  refine ⟨?_, ?_, ?_, ?_⟩
  · intro later u earlier heq hu
    rcases cons_eq_append_iff.1 heq with ⟨rfl, hcons⟩ | ⟨later, rfl, hrest⟩
    · obtain ⟨hrecord, rfl⟩ := cons.inj hcons
      cases hrecord
      exact hc
    · exact hd.waits later u earlier hrest hu
  · rw [StopAndWait.unacknowledged, if_neg ht, hc.unacknowledged]
    exact le_rfl
  · rw [dataSent, if_neg ht]
    exact forall_mem_cons.2 ⟨hsize, hd.size⟩
  · rw [dataSent, if_neg ht, isChain_cons]
    exact ⟨fun u hu => (hnext u hu).symm, hd.contiguous⟩

/-! Sessions. -/

variable {s s' : Session}

structure Held (s : Session) (h : History) : Prop where
  disciplined : Disciplined h
  before : s.state = .synSent ∨ s.state = .synReceived → dataSent h = []
  clear : s.state = .established false → Covered s.seq h
  last : ∀ w, s.state = .established w → ∀ t ∈ (dataSent h).head?, t.next = s.seq

def Reaches (s : Session) (h : History) (s' : Session) : Prop :=
  ∃ ts, s'.transmitted = s.transmitted ++ ts ∧ Held s' (records ts ++ h)

lemma Reaches.move {e : Watched} (hr : Reaches e.session e.history s') :
    Held (e.move s').session (e.move s').history := by
  obtain ⟨ts, hsent, hheld⟩ := hr
  have hnew : s'.transmitted.drop e.session.transmitted.length = ts := by
    rw [hsent, drop_left]
  simpa [Watched.move, hnew] using hheld

lemma Held.reaches (hh : Held s' h) (hsent : s'.transmitted = s.transmitted) :
    Reaches s h s' := ⟨[], by rw [hsent, append_nil], hh⟩

lemma Reaches.trans {s1 s2 : Session} {ts : List Transmitted}
    (hsent : s1.transmitted = s.transmitted ++ ts) (hr : Reaches s1 (records ts ++ h) s2) :
    Reaches s h s2 := by
  obtain ⟨us, hus, hheld⟩ := hr
  refine ⟨ts ++ us, by rw [hus, hsent, append_assoc], ?_⟩
  simpa [records] using hheld

lemma Disciplined.held (hd : Disciplined h) (hstate : s.state = .lastAck ∨ s.state = .closed) :
    Held s h := by
  refine ⟨hd, fun hs => ?_, fun hs => ?_, fun w hs => ?_⟩ <;>
    rcases hstate with hstate | hstate <;> simp [hstate] at hs

lemma reaches_trigger {w : Bool} (hd : Disciplined h) (hc : w = false → Covered s.seq h)
    (hlast : ∀ t ∈ (dataSent h).head?, t.next = s.seq) :
    Reaches s h { (s.handleOutputTrigger w {}).session with
      state := .established (s.handleOutputTrigger w {}).waitingForAck } := by
  rcases handleOutputTrigger_spec s (o := {}) (fun _ _ => rfl) with
    ⟨-, heq⟩ | ⟨hw, hn, heq⟩
  · rw [heq]
    refine ⟨[], (append_nil _).symm, hd, ?_, ?_, ?_⟩
    · simp
    · intro hstate
      exact hc (TcpState.established.inj hstate)
    · exact fun _ _ => hlast
  · rw [heq]
    have hdata := pushSegment_data_ne_nil hn
    have hsize : s.pushSegment.data.length ≤ 1400 := length_take_le _ _
    refine ⟨[s.pushSegment], rfl, ?_⟩
    exact {
      disciplined := hd.sent hdata hsize (hc hw) hlast
      before := by simp
      clear := by simp
      last := by
        intro w' _ t ht
        have hhead : dataSent (.sent s.pushSegment :: h) = s.pushSegment :: dataSent h :=
          if_neg hdata
        change t ∈ (dataSent (.sent s.pushSegment :: h)).head? at ht
        rw [hhead] at ht
        obtain rfl := Option.mem_some.1 ht
        rfl }

lemma reaches_sendAck (hh : Held s h) : Reaches s h (s.sendAck {}) := by
  have hseq : (s.sendAck {}).seq = s.seq := by simp [sendAck, send]
  have hr : Silent (.sent ⟨s.seq, s.receiveNextAck, { ack := true }, []⟩) := rfl
  refine ⟨[⟨s.seq, s.receiveNextAck, { ack := true }, []⟩], rfl, ?_⟩
  exact {
    disciplined := hh.disciplined.silent hr
    before := fun hs => (dataSent_silent hr).trans (hh.before hs)
    clear := fun hs => by
      rw [hseq]
      exact (hh.clear hs).silent hr
    last := fun w hs t ht => by
      rw [hseq]
      refine hh.last w hs t ?_
      exact ht }

lemma Held.received (hh : Held s h) (ackSeq : Word) : Held s (.received ackSeq s.seq :: h) where
  disciplined := hh.disciplined.silent trivial
  before := hh.before
  clear := fun hs => (hh.clear hs).silent trivial
  last := hh.last

lemma reaches_established {w : Bool} (hh : Held s h) (hstate : s.state = .established w)
    (tcp : Segment) :
    Reaches s (.received tcp.ackSeq s.seq :: h) (s.handleEstablished tcp {}) := by
  have hd : Disciplined (.received tcp.ackSeq s.seq :: h) := hh.disciplined.silent trivial
  have hlast := hh.last w hstate
  unfold handleEstablished
  dsimp only
  split_ifs with hmatch hfin hsize hsent
  · exact (hh.received tcp.ackSeq).reaches rfl
  · have hr : Silent (.sent ⟨s.seq, s.receiveNextAck + 1, { fin := true, ack := true }, []⟩) := rfl
    exact ⟨[_], rfl, (hd.silent hr).held (.inl rfl)⟩
  all_goals
    have hcovered : Covered s.seq (.received tcp.ackSeq s.seq :: h) := by
      have heq : tcp.ackSeq = s.seq := by simpa [isSeqMatch] using hmatch
      rw [heq]
      exact covered_received s.seq h
  · exact reaches_trigger hd (fun _ => hcovered) hlast
  · obtain ⟨ts, hts, hheld⟩ := reaches_trigger
      (s := s.pushInputBytes (copyData tcp (tcpDataLength tcp))) hd (fun _ => hcovered) hlast
    exact ⟨ts, hts, hheld⟩
  · obtain ⟨ts, hts, hheld⟩ := reaches_trigger
      (s := s.pushInputBytes (copyData tcp (tcpDataLength tcp))) hd (fun _ => hcovered) hlast
    exact Reaches.trans hts (reaches_sendAck hheld)

lemma reaches_enterEstablished (hd : Disciplined h) (hnone : dataSent h = []) :
    Reaches s h (s.enterEstablished {}) :=
  reaches_trigger hd (fun _ => covered_of_dataSent hnone s.seq) (by simp [hnone])

lemma reaches_segment (hh : Held s h) (tcp : Segment) :
    Reaches s (.received tcp.ackSeq s.seq :: h) (s.processInSegment tcp {} {}) := by
  have hd : Disciplined (.received tcp.ackSeq s.seq :: h) := hh.disciplined.silent trivial
  unfold processInSegment
  split
  · next hstate =>
    have hr : Silent (.sent ⟨0, tcp.seq + 1, { ack := true, rst := true }, []⟩) := rfl
    exact ⟨[_], rfl, (hd.silent hr).held (.inr hstate)⟩
  · next hstate =>
    split_ifs
    · have hr : Silent (.sent ⟨s.seq, tcp.seq + 1, { ack := true }, []⟩) := rfl
      have hsent : ({ s with receiveNextAck := tcp.seq + 1 }.sendAck {}).transmitted =
          s.transmitted ++ [⟨s.seq, tcp.seq + 1, { ack := true }, []⟩] := rfl
      refine Reaches.trans hsent (reaches_enterEstablished (hd.silent hr) ?_)
      exact (dataSent_silent hr).trans (hh.before (.inl hstate))
    · exact (hd.held (.inr rfl)).reaches rfl
  · next hstate =>
    split_ifs
    · exact reaches_enterEstablished hd (hh.before (.inr hstate))
    · exact (hh.received tcp.ackSeq).reaches rfl
  · next w hstate => exact reaches_established hh hstate tcp
  · exact (hh.received tcp.ackSeq).reaches rfl
  · exact (hh.received tcp.ackSeq).reaches rfl
  · next hstate =>
    split_ifs
    · exact (hh.received tcp.ackSeq).reaches rfl
    · have hr : Silent (.sent ⟨s.seq, s.receiveNextAck, { ack := true }, []⟩) := rfl
      exact ⟨[_], rfl, (hd.silent hr).held (.inr rfl)⟩

lemma reaches_write (hh : Held s h) (bytes : List Byte) :
    Reaches s h (s.pushOutputBytes bytes {}) := by
  unfold pushOutputBytes
  dsimp only
  split
  · next w hstate =>
    obtain ⟨ts, hts, hheld⟩ := reaches_trigger
      (s := { s with outputBuffer := s.outputBuffer ++ bytes }) hh.disciplined
      (fun hw => hh.clear (hw ▸ hstate)) (hh.last w hstate)
    exact ⟨ts, hts, hheld⟩
  · exact Held.reaches ⟨hh.disciplined, hh.before, hh.clear, hh.last⟩ rfl

lemma held_step {e e' : Watched} {ev : Event} (hh : Held e.session e.history)
    (hs : step e ev = some e') : Held e'.session e'.history := by
  cases ev with
  | write bytes =>
    cases hs
    exact (reaches_write hh bytes).move
  | segment tcp =>
    cases hs
    exact Reaches.move
      (reaches_segment hh tcp)

lemma held_start (h : Start s) : Held s [] := by
  cases h with
  | client => exact ⟨Disciplined.nil, fun _ => rfl, nofun, nofun⟩
  | acceptor seq => exact ⟨Disciplined.nil, fun _ => rfl, nofun, nofun⟩

/-- In every run of a session, from its creation through its handshake on. -/
theorem stop_and_wait (s : Session) (h : Start s) (events : List Event) :
    Always step (fun e => Disciplined e.history) { session := s } events :=
  (always_of_step (I := fun e => Held e.session e.history) (fun _ _ _ hh hs => held_step hh hs)
    (held_start h) events).mono fun _ hh => hh.disciplined

def twoWrites : List Event :=
  [.segment { seq := 1, ackSeq := 1, flags := { ack := true }, fits := bare_fits },
    .write [7], .write [8],
    .segment { seq := 1, ackSeq := 2, flags := { ack := true }, fits := bare_fits }]

/-- The second byte is sent after the first is acknowledged. -/
theorem stop_and_wait_two_writes :
    Always step (fun e => Disciplined e.history)
      { session := createTcpClientAcceptor 0 {} } twoWrites ∧
    (exec step { session := createTcpClientAcceptor 0 {} } twoWrites).map
      (fun e => (dataSent e.history).map Transmitted.data) = some [[8], [7]] :=
  ⟨stop_and_wait _ (.acceptor 0) twoWrites, by decide⟩

end GzOS.Tcp.StopAndWait
