import GzOS.NumberedStream
import GzOS.Runs
import GzOS.TcpSession

/-!
# The order of the sent byte stream under preemption

`handle_output_trigger` pops bytes, allocates a segment, which takes the next sequence
number, and transmits it, in steps of its own. The application thread and the input thread
both run it, and nothing keeps one from taking its number between the pop and the allocation
of the other. In runs without that the transmitted segments carry the written bytes in
order.
-/
namespace GzOS.Tcp.Preempted
open Runs NumberedStream List

inductive Thread
  | application
  | input
  deriving DecidableEq, Repr

inductive Pc
  | idle
  /-- The acknowledgment matches; the flag is not yet cleared. -/
  | matched
  | testing
  | popping
  /-- Bytes are popped; the flag is not yet set. -/
  | marking
  | allocating
  | sending
  deriving DecidableEq, Repr

/-- Between its pop and its transmission: the buffer and, once allocated, the segment. -/
structure Local where
  thread : Thread
  bytes : List Byte
  nbuf : Option Transmitted := none
  deriving DecidableEq, Repr

/-- The locals are in the order of the pops; `written` holds all bytes written. -/
structure State where
  session : Session
  waitingForAck : Bool := false
  pc : Thread → Pc := fun _ => .idle
  locals : List Local := []
  written : List Byte := []

inductive Label
  /-- The application calls `push_output_bytes`. -/
  | write (bytes : List Byte)
  /-- The input thread takes up a segment. -/
  | receive (tcp : Segment)
  | step (t : Thread)

def State.goto (s : State) (t : Thread) (pc : Pc) : State :=
  { s with pc := Function.update s.pc t pc }

def findLocal (t : Thread) : List Local → Option (List Local × Local × List Local)
  | [] => none
  | e :: rest =>
    if e.thread = t then some ([], e, rest)
    else (findLocal t rest).map fun r => (e :: r.1, r.2.1, r.2.2)

def popOutputBytes (s : State) (t : Thread) : State :=
  let bytes := s.session.outputBuffer.take 1400
  if bytes = [] then s.goto t .idle
  else
    { s.goto t .marking with
      session := { s.session with outputBuffer := s.session.outputBuffer.drop 1400 }
      locals := s.locals ++ [{ thread := t, bytes }] }

/-- The segment takes the next sequence number. -/
def tcpAllocNbuf (s : State) (t : Thread) : Option State :=
  match findLocal t s.locals with
  | some (before, ⟨_, bytes, none⟩, after) =>
    let data := bytes.take 1400
    let nbuf : Transmitted :=
      ⟨s.session.seq, s.session.receiveNextAck, { ack := true, psh := true }, data⟩
    some { s.goto t .sending with
      session := { s.session with seq := s.session.seq + BitVec.ofNat 32 data.length }
      locals := before ++ ⟨t, bytes, some nbuf⟩ :: after }
  | _ => none

def tcpTransmit (s : State) (t : Thread) : Option State :=
  match findLocal t s.locals with
  | some (before, ⟨_, _, some nbuf⟩, after) =>
    some { s.goto t .idle with
      session := { s.session with transmitted := s.session.transmitted ++ [nbuf] }
      locals := before ++ after }
  | _ => none

def advance (s : State) (t : Thread) : Option State :=
  match s.pc t with
  | .idle => none
  | .matched => some { s.goto t .testing with waitingForAck := false }
  | .testing => some (s.goto t (if s.waitingForAck then .idle else .popping))
  | .popping => some (popOutputBytes s t)
  | .marking => some { s.goto t .allocating with waitingForAck := true }
  | .allocating => tcpAllocNbuf s t
  | .sending => tcpTransmit s t

/-- An acknowledgment has no data and no FIN. -/
def step (s : State) : Label → Option State
  | .write bytes =>
    if s.pc .application = .idle then
      some { s.goto .application .testing with
        session := { s.session with outputBuffer := s.session.outputBuffer ++ bytes }
        written := s.written ++ bytes }
    else none
  | .receive tcp =>
    if s.pc .input = .idle ∧ tcp.payload = [] ∧ tcp.flags.fin = false then
      some (s.goto .input (if s.session.isSeqMatch tcp then .matched else .idle))
    else none
  | .step t => advance s t

/-- By their numbers the segments carry a prefix of what was written. -/
def InOrder (isn : Word) (s : State) : Prop :=
  Carries Transmitted.seq Transmitted.data (isn + 1) s.written s.session.transmitted

/-- A number is taken only when all bytes popped before have theirs, and a segment is
transmitted only when no earlier one is held. -/
def NoOvertaking (s : State) : Label → Prop
  | .step t => ∀ r ∈ findLocal t s.locals,
      (s.pc t = .allocating → ∀ d ∈ r.1, d.nbuf.isSome) ∧ (s.pc t = .sending → r.1 = [])
  | _ => True

instance (s : State) : ∀ a, Decidable (NoOvertaking s a)
  | .write _ => inferInstanceAs (Decidable True)
  | .receive _ => inferInstanceAs (Decidable True)
  | .step t => inferInstanceAs (Decidable (∀ r ∈ findLocal t s.locals,
      (s.pc t = .allocating → ∀ d ∈ r.1, d.nbuf.isSome) ∧ (s.pc t = .sending → r.1 = [])))

def start (isn receiveNextAck : Word) : State :=
  { session := ⟨.established false, isn + 1, receiveNextAck, [], [], []⟩ }

variable {t : Thread} {e : Local} {popped : List Local}

lemma findLocal_some {ls before after : List Local}
    (h : findLocal t ls = some (before, e, after)) : ls = before ++ e :: after := by
  induction ls generalizing before with
  | nil => cases h
  | cons d ls ih =>
    simp only [findLocal] at h
    split_ifs at h with ht
    · obtain ⟨rfl, rfl, rfl⟩ : [] = before ∧ d = e ∧ ls = after := by simpa using h
      rfl
    obtain ⟨⟨before', e', after'⟩, hr, heq⟩ := Option.map_eq_some_iff.1 h
    obtain ⟨rfl, rfl, rfl⟩ : d :: before' = before ∧ e' = e ∧ after' = after := by
      simpa using heq
    rw [ih hr]
    rfl

def allocated (ls : List Local) : List Transmitted := ls.filterMap Local.nbuf

/-- Those with a segment were popped first. -/
structure Layout (isn : Word) (s : State) (numbered popped : List Local) : Prop where
  split : s.locals = numbered ++ popped
  has : ∀ e ∈ numbered, ∃ nbuf, e.nbuf = some nbuf ∧ nbuf.data = e.bytes
  hasNot : ∀ e ∈ popped, e.nbuf = none
  size : ∀ e ∈ popped, e.bytes.length ≤ 1400
  consecutive : Consecutive Transmitted.seq Transmitted.data (isn + 1)
    (s.session.transmitted ++ allocated numbered)
  seq : s.session.seq = isn + 1 + BitVec.ofNat 32
    ((s.session.transmitted ++ allocated numbered).flatMap Transmitted.data).length
  bytes : s.written = s.session.transmitted.flatMap Transmitted.data ++
    s.locals.flatMap Local.bytes ++ s.session.outputBuffer

def Ordered (isn : Word) (s : State) : Prop := ∃ numbered popped, Layout isn s numbered popped

variable {isn : Word} {s s' : State}

lemma Ordered.inOrder (h : Ordered isn s) : InOrder isn s := by
  obtain ⟨numbered, popped, hl⟩ := h
  refine (consecutive_append.1 hl.consecutive).1.carries ?_
  rw [hl.bytes, append_assoc]
  exact prefix_append _ _

lemma Layout.congr {numbered : List Local} (h : Layout isn s numbered popped)
    (hs : s'.session = s.session) (hl : s'.locals = s.locals) (hw : s'.written = s.written) :
    Layout isn s' numbered popped :=
  ⟨hl ▸ h.split, h.has, h.hasNot, h.size, hs ▸ h.consecutive, hs ▸ h.seq,
    by rw [hs, hl, hw]; exact h.bytes⟩

lemma ordered_pop (h : Ordered isn s) (t : Thread) : Ordered isn (popOutputBytes s t) := by
  obtain ⟨numbered, popped, hl⟩ := h
  unfold popOutputBytes
  dsimp only
  split_ifs with hnil
  · exact ⟨numbered, popped, hl.congr rfl rfl rfl⟩
  refine ⟨numbered, popped ++ [⟨t, s.session.outputBuffer.take 1400, none⟩], ⟨?_, hl.has, ?_, ?_,
    hl.consecutive, hl.seq, ?_⟩⟩
  · simp [hl.split]
  · intro e he
    rcases mem_append.1 he with he | he
    · exact hl.hasNot e he
    · rw [mem_singleton.1 he]
  · intro e he
    rcases mem_append.1 he with he | he
    · exact hl.size e he
    · rw [mem_singleton.1 he]
      exact length_take_le _ _
  · simp [State.goto, hl.bytes]

lemma Layout.turn {numbered before after : List Local}
    (h : Layout isn s numbered popped) (hs : s.locals = before ++ e :: after) (he : e.nbuf = none)
    (hb : ∀ d ∈ before, d.nbuf.isSome) : before = numbered ∧ popped = e :: after := by
  have heq := hs.symm.trans h.split
  rcases append_eq_append_iff.1 heq with ⟨as, hnum, hrest⟩ | ⟨cs, hbefore, hrest⟩
  · cases as with
    | nil => exact ⟨by simpa using hnum.symm, by simpa using hrest.symm⟩
    | cons d as =>
      obtain ⟨rfl, -⟩ := cons.inj hrest
      obtain ⟨nbuf, hn, -⟩ := h.has e (by rw [hnum]; simp)
      rw [he] at hn
      cases hn
  · cases cs with
    | nil => exact ⟨by simpa using hbefore, by simpa using hrest⟩
    | cons d cs =>
      have hmem : d ∈ popped := by rw [hrest]; simp
      have hsome := hb d (by rw [hbefore]; simp)
      rw [h.hasNot d hmem] at hsome
      cases hsome

/-- Buffers are allocated in the order of the pops, so the numbers are consecutive. -/
lemma ordered_alloc (h : Ordered isn s)
    (hturn : ∀ before e after, findLocal t s.locals = some (before, e, after) →
      ∀ d ∈ before, d.nbuf.isSome) (hs : tcpAllocNbuf s t = some s') : Ordered isn s' := by
  obtain ⟨numbered, popped, hl⟩ := h
  unfold tcpAllocNbuf at hs
  split at hs
  · next before th bytes after hfind =>
    obtain ⟨rfl, hpop⟩ := hl.turn (findLocal_some hfind) rfl (hturn _ _ _ hfind)
    have hsize := hl.size ⟨th, bytes, none⟩ (by rw [hpop]; simp)
    have htake : bytes.take 1400 = bytes := take_of_length_le hsize
    rw [htake] at hs
    cases hs
    have hnums : allocated (before ++ [⟨t, bytes, some ⟨s.session.seq, s.session.receiveNextAck,
        { ack := true, psh := true }, bytes⟩⟩]) = allocated before ++ [⟨s.session.seq,
        s.session.receiveNextAck, { ack := true, psh := true }, bytes⟩] := by
      simp [allocated]
    refine ⟨before ++ [⟨t, bytes, some ⟨s.session.seq, s.session.receiveNextAck,
      { ack := true, psh := true }, bytes⟩⟩], after, ⟨by simp, ?_, ?_, ?_, ?_, ?_, ?_⟩⟩
    · intro e he
      rcases mem_append.1 he with he | he
      · exact hl.has e he
      · rw [mem_singleton.1 he]
        exact ⟨_, rfl, rfl⟩
    · intro e he
      exact hl.hasNot e (by rw [hpop]; simp [he])
    · intro e he
      exact hl.size e (by rw [hpop]; simp [he])
    · rw [hnums, ← append_assoc]
      exact hl.consecutive.concat hl.seq
    · rw [hnums, ← append_assoc, flatMap_append, length_append, BitVec.ofNat_add,
        ← BitVec.add_assoc, ← hl.seq]
      simp
    · have hb := hl.bytes
      rw [findLocal_some hfind] at hb
      simpa [State.goto] using hb
  · cases hs

lemma ordered_transmit (h : Ordered isn s)
    (hturn : ∀ before e after, findLocal t s.locals = some (before, e, after) → before = [])
    (hs : tcpTransmit s t = some s') : Ordered isn s' := by
  obtain ⟨numbered, popped, hl⟩ := h
  unfold tcpTransmit at hs
  split at hs
  · next before th bytes nbuf after hfind =>
    obtain rfl := hturn _ _ _ hfind
    have hlocals := findLocal_some hfind
    cases hs
    -- The first of the locals has a segment, so it is the first of the numbered ones.
    cases numbered with
    | nil =>
      have hmem : ⟨th, bytes, some nbuf⟩ ∈ popped := by
        rw [← nil_append popped, ← hl.split, hlocals]
        simp
      cases hl.hasNot _ hmem
    | cons d numbered =>
      obtain ⟨rfl, hafter⟩ : ⟨th, bytes, some nbuf⟩ = d ∧ after = numbered ++ popped := by
        have := hlocals.symm.trans hl.split
        simpa using this
      obtain ⟨nbuf', hn, hdata⟩ := hl.has _ mem_cons_self
      cases hn
      have hmove : s.session.transmitted ++ [nbuf] ++ allocated numbered =
          s.session.transmitted ++ allocated (⟨th, bytes, some nbuf⟩ :: numbered) := by
        simp [allocated]
      refine ⟨numbered, popped, ⟨hafter, fun e he => hl.has e (mem_cons_of_mem _ he),
        hl.hasNot, hl.size, ?_, ?_, ?_⟩⟩
      · rw [hmove]
        exact hl.consecutive
      · rw [hmove]
        exact hl.seq
      · have hb := hl.bytes
        rw [hlocals] at hb
        simpa [State.goto, hdata] using hb
  · cases hs

lemma ordered_step {a : Label} (h : Ordered isn s) (hg : NoOvertaking s a)
    (hs : step s a = some s') : Ordered isn s' := by
  have hkeep : ∀ {u : State}, u.session = s.session → u.locals = s.locals →
      u.written = s.written → Ordered isn u := by
    intro u h1 h2 h3
    obtain ⟨numbered, popped, hl⟩ := h
    exact ⟨numbered, popped, hl.congr h1 h2 h3⟩
  cases a with
  | write bytes =>
    simp only [step] at hs
    split_ifs at hs
    cases hs
    obtain ⟨numbered, popped, hl⟩ := h
    refine ⟨numbered, popped, ⟨hl.split, hl.has, hl.hasNot, hl.size, hl.consecutive, hl.seq, ?_⟩⟩
    simp [State.goto, hl.bytes]
  | receive tcp =>
    simp only [step] at hs
    split_ifs at hs
    all_goals
      cases hs
      exact hkeep rfl rfl rfl
  | step t =>
    simp only [step, advance] at hs
    split at hs
    · cases hs
    · cases hs
      exact hkeep rfl rfl rfl
    · cases hs
      exact hkeep rfl rfl rfl
    · cases hs
      exact ordered_pop h t
    · cases hs
      exact hkeep rfl rfl rfl
    · next hpc =>
      exact ordered_alloc h (fun _ _ _ hf => (hg _ hf).1 hpc) hs
    · next hpc =>
      exact ordered_transmit h (fun _ _ _ hf => (hg _ hf).2 hpc) hs

/-- In every run in which no thread overtakes the other between its pop and its
transmission, the transmitted segments carry a prefix of the written bytes. -/
theorem send_stream_in_order (isn receiveNextAck : Word) (labels : List Label)
    (h : Meets step NoOvertaking (start isn receiveNextAck) labels) :
    Always step (InOrder isn) (start isn receiveNextAck) labels :=
  (always_of_meets (fun _ _ _ hi hg hs => ordered_step hi hg hs)
    ⟨[], [], ⟨rfl, by simp, by simp, by simp, by simp [start, allocated, Consecutive],
      by simp [start, allocated], rfl⟩⟩ h).mono fun _ hs => hs.inOrder

def longWrite : List Byte := List.replicate 1400 0 ++ [1]

def acknowledgment : Segment :=
  { seq := 1, ackSeq := 1, flags := { ack := true }, fits := by decide }

/-- The second write finds the first unacknowledged; the input thread sends it when the
acknowledgment comes. -/
def twoWrites : List Label :=
  .write [7] :: replicate 5 (.step .application) ++ [.write [8], .step .application,
    .receive { acknowledgment with ackSeq := 2 }] ++ replicate 6 (.step .input)

theorem send_stream_in_order_two_writes :
    Always step (InOrder 0) (start 0 1) twoWrites ∧
      (exec step (start 0 1) twoWrites).map (·.session.transmitted.map Transmitted.data) =
        some [[7], [8]] := by
  refine ⟨send_stream_in_order _ _ _ ?_, by decide +kernel⟩
  exact meets_of_check (by decide +kernel)

/-- Both pass the test before either pops; the input thread pops the last byte and takes the
first number. -/
def overtaking : List Label :=
  [.write longWrite, .receive acknowledgment, .step .input, .step .application, .step .input,
    .step .application, .step .input, .step .input, .step .input, .step .input]

/-- The last byte is transmitted with the number of the first. -/
theorem last_byte_sent_first : ∃ s, exec step (start 0 1) overtaking = some s ∧ ¬ InOrder 0 s := by
  have hrun : (exec step (start 0 1) overtaking).map (fun s => (s.session.transmitted,
      s.written.head?)) = some ([⟨1, 1, { ack := true, psh := true }, [1]⟩], some 0) := by
    decide +kernel
  obtain ⟨s, hs, heq⟩ := Option.map_eq_some_iff.1 hrun
  obtain ⟨hsent, hhead⟩ := Prod.mk.inj heq
  refine ⟨s, hs, ?_⟩
  rintro ⟨us, hperm, -, rest, hprefix⟩
  rw [hsent, perm_singleton] at hperm
  rw [← hprefix, hperm] at hhead
  cases hhead

end GzOS.Tcp.Preempted
