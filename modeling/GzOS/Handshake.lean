import GzOS.EndOfStream

/-!
# The handshake between two hosts

The network keeps every segment ever sent and may deliver one at any time, any number of
times, or never. A segment that finds neither a descriptor nor a listening socket is
answered with a reset.

An acceptor takes any segment with the ACK flag and a matching number for the end of the
handshake. All initial sequence numbers are zero, so a reset matches, and so does a segment
of an earlier session. In runs without such deliveries an established acceptor has a client
that answered it.
-/
namespace GzOS.Tcp.Handshake
open Reading Session List

/-- The four-tuple without the two addresses, which are fixed. -/
structure Conn where
  clientPort : UInt16
  serverPort : UInt16
  deriving DecidableEq, Repr

/-- It has its four-tuple until its close is over; `closing` holds while the close waits. -/
structure Descriptor where
  conn : Conn
  session : Session
  registered : Bool := true
  closing : Bool := false
  deriving DecidableEq, Repr

/-- The acceptor whose SYN/ACK established a client, and the numbers both sides expected
then. -/
structure Answer where
  acceptor : ℕ
  clientNextAck : Word
  acceptorNextAck : Word
  deriving DecidableEq, Repr

structure Client extends Descriptor where
  answered : Option Answer := none
  deriving DecidableEq, Repr

/-- Sessions are numbered by creation. The resets are those of rejecting descriptors of
either host. -/
structure State where
  clients : List Client := []
  acceptors : List Descriptor := []
  clientResets : List (Conn × Transmitted) := []
  serverResets : List (Conn × Transmitted) := []

inductive Source
  | client (id : ℕ)
  | acceptor (id : ℕ)
  | clientReset
  | serverReset

inductive Action
  | write (bytes : List Byte) (o : Outcome)
  | close (o : Outcome)
  /-- `close` goes on after `wait_state_changed`. -/
  | closeReturns

inductive Event
  | connect (conn : Conn) (o : Outcome)
  | client (id : ℕ) (action : Action)
  /-- By its owner, or with the accept queue that rejects it or goes away. -/
  | acceptor (id : ℕ) (action : Action)
  /-- The `i`-th segment of a source arrives. -/
  | deliver (src : Source) (i : ℕ) (o₁ o₂ : Outcome)

/-- Both `TcpSequence` and the constructor of `SynReceived` start at zero. -/
def initialSeq : Word := 0

/-- A segment as it arrives. None carries more than 1400 bytes. -/
def segment (t : Transmitted) : Segment where
  seq := t.seq
  ackSeq := t.ackSeq
  flags := t.flags
  payload := t.data.take 1400
  fits := by simp only [length_nil, length_take]; omega

def State.sent (s : State) (src : Source) (i : ℕ) : Option (Conn × Transmitted) :=
  match src with
  | .client id => s.clients[id]?.bind fun c => c.session.transmitted[i]?.map (c.conn, ·)
  | .acceptor id => s.acceptors[id]?.bind fun d => d.session.transmitted[i]?.map (d.conn, ·)
  | .clientReset => s.clientResets[i]?
  | .serverReset => s.serverResets[i]?

def lookup {α : Type} (p : α → Bool) (l : List α) : Option (ℕ × α) :=
  (l.findIdx? p).bind fun k => l[k]?.map (k, ·)

def Descriptor.has (d : Descriptor) (conn : Conn) : Bool := d.registered && decide (d.conn = conn)

def State.route (s : State) (conn : Conn) : Option (ℕ × Descriptor) :=
  lookup (fun d => d.has conn) s.acceptors

/-- It answers from a closed session. -/
def reset (conn : Conn) (t : Transmitted) (o : Outcome) : List (Conn × Transmitted) :=
  ((Session.mk .closed 0 0 [] [] []).processInSegment (segment t) o {}).transmitted.map (conn, ·)

def Descriptor.act (d : Descriptor) (action : Action) : Option Descriptor :=
  if d.registered = false then none
  else
    match action with
    | .write bytes o =>
      some (if isEstablished d.session.state then
        { d with session := d.session.pushOutputBytes bytes o } else d)
    | .close o =>
      some (if d.session.state = .closed then
        { d with session := d.session.close o, registered := false }
        else { d with session := d.session.close o, closing := true })
    -- the only change of state that a waiting close can see is the one to `Closed`
    | .closeReturns =>
      if d.closing ∧ d.session.state = .closed then
        some { d with session := d.session.afterClose, registered := false, closing := false }
      else none

def Descriptor.receive (d : Descriptor) (t : Transmitted) (o₁ o₂ : Outcome) : Descriptor :=
  { d with session := d.session.processInSegment (segment t) o₁ o₂ }

/-- `sender` is the acceptor that sent the segment, if one did. -/
def Client.receive (c : Client) (sender : Option (ℕ × Descriptor)) (t : Transmitted)
    (o₁ o₂ : Outcome) : Client :=
  let d := c.toDescriptor.receive t o₁ o₂
  { d with
    answered :=
      if c.session.state = .synSent ∧ isEstablished d.session.state then
        sender.map fun a => ⟨a.1, d.session.receiveNextAck, a.2.session.receiveNextAck⟩
      else c.answered }

/-- A SYN makes an acceptor. Its resets go to no host. -/
def State.toServer (port : UInt16) (s : State) (conn : Conn) (t : Transmitted)
    (o₁ o₂ : Outcome) : State :=
  match s.route conn with
  | some (k, d) => { s with acceptors := s.acceptors.set k (d.receive t o₁ o₂) }
  | none =>
    if conn.serverPort = port then
      if t.flags = { syn := true } then
        { s with acceptors := s.acceptors ++
            [{ conn, session := Session.createTcpClientAcceptor t.seq o₁ }] }
      else s
    else { s with serverResets := s.serverResets ++ reset conn t o₁ }

def State.toClient (s : State) (sender : Option (ℕ × Descriptor)) (conn : Conn)
    (t : Transmitted) (o₁ o₂ : Outcome) : State :=
  match lookup (fun c => c.has conn) s.clients with
  | some (k, c) => { s with clients := s.clients.set k (c.receive sender t o₁ o₂) }
  | none => { s with clientResets := s.clientResets ++ reset conn t o₁ }

/-- With the port that `bind` or `allocatePort` chose. -/
def State.connect (s : State) (conn : Conn) (o : Outcome) : Option State :=
  if conn.serverPort = 0 ∨ conn.clientPort = 0 ∨
      s.clients.any (fun c => c.registered && decide (c.conn.clientPort = conn.clientPort))
    then none
  else some { s with clients := s.clients ++ [{ conn, session := Session.createTcpClient o }] }

def State.deliver (port : UInt16) (s : State) (src : Source) (m : Conn × Transmitted)
    (o₁ o₂ : Outcome) : State :=
  match src with
  | .client _ | .clientReset => s.toServer port m.1 m.2 o₁ o₂
  | .acceptor id => s.toClient (s.acceptors[id]?.map (id, ·)) m.1 m.2 o₁ o₂
  | .serverReset => s.toClient none m.1 m.2 o₁ o₂

def step (port : UInt16) (s : State) : Event → Option State
  | .connect conn o => s.connect conn o
  | .client id action => s.clients[id]?.bind fun c =>
      (c.act action).map fun d =>
        { s with clients := s.clients.set id { c with toDescriptor := d } }
  | .acceptor id action => s.acceptors[id]?.bind fun d =>
      (d.act action).map fun d' => { s with acceptors := s.acceptors.set id d' }
  | .deliver src i o₁ o₂ => (s.sent src i).map fun m => s.deliver port src m o₁ o₂

/-- The client answered with this number, and both sides expected the number after the
other's first. -/
def Client.Agrees (c : Client) (conn : Conn) (k : ℕ) : Prop :=
  c.conn = conn ∧ c.answered = some ⟨k, initialSeq + 1, initialSeq + 1⟩

/-- An established acceptor has a client that answered it. -/
def Agreement (s : State) : Prop :=
  ∀ k d, s.acceptors[k]? = some d → isEstablished d.session.state = true →
    ∃ c ∈ s.clients, c.Agrees d.conn k

def Source.toServer : Source → Bool
  | .client _ | .clientReset => true
  | _ => false

def State.answer (s : State) : Source → Option Answer
  | .client id => s.clients[id]?.bind Client.answered
  | _ => none

/-- It is no reset, and its sender has not answered another acceptor. -/
def AckGenuine (s : State) : Event → Prop
  | .deliver src i _ _ => src.toServer = true → ∀ m ∈ s.sent src i, ∀ a ∈ s.route m.1,
      a.2.session.state = .synReceived → a.2.session.isSeqMatch (segment m.2) = true →
        m.2.flags.ack = true →
        m.2.flags.rst = false ∧ ∀ r ∈ s.answer src, r.acceptor = a.1
  | _ => True

def SynAckSent (s : State) : Event → Prop
  | .deliver src i o₁ _ => src.toServer = true → ∀ m ∈ s.sent src i, s.route m.1 = none →
      m.2.flags = { syn := true } → o₁.allocated = true
  | _ => True

def Guard (s : State) (ev : Event) : Prop := AckGenuine s ev ∧ SynAckSent s ev

instance (s : State) (ev : Event) : Decidable (AckGenuine s ev) := by
  cases ev <;> unfold AckGenuine <;> infer_instance

instance (s : State) (ev : Event) : Decidable (SynAckSent s ev) := by
  cases ev <;> unfold SynAckSent <;> infer_instance

instance (s : State) (ev : Event) : Decidable (Guard s ev) := inferInstanceAs (Decidable (_ ∧ _))

/-! What a session adds to its segments. -/

def Emits (P : Transmitted → Prop) (s t : Session) : Prop :=
  ∃ l, t.transmitted = s.transmitted ++ l ∧ ∀ x ∈ l, P x

variable {P : Transmitted → Prop}

lemma Emits.refl (s : Session) : Emits P s s := ⟨[], by simp, nofun⟩

variable {s t : Session}

lemma Emits.trans {u : Session} (h1 : Emits P s t) (h2 : Emits P t u) : Emits P s u := by
  obtain ⟨l1, ht, hl1⟩ := h1
  obtain ⟨l2, hu, hl2⟩ := h2
  refine ⟨l1 ++ l2, by rw [hu, ht, append_assoc], fun x hx => ?_⟩
  rcases mem_append.1 hx with hx | hx
  · exact hl1 x hx
  · exact hl2 x hx

lemma Emits.mono {Q : Transmitted → Prop} (h : Emits P s t) (hPQ : ∀ x, P x → Q x) :
    Emits Q s t := by
  obtain ⟨l, ht, hl⟩ := h
  exact ⟨l, ht, fun x hx => hPQ x (hl x hx)⟩

lemma Emits.forall (h : Emits P s t) (hs : ∀ x ∈ s.transmitted, P x) :
    ∀ x ∈ t.transmitted, P x := by
  obtain ⟨l, ht, hl⟩ := h
  intro x hx
  rw [ht] at hx
  rcases mem_append.1 hx with hx | hx
  · exact hs x hx
  · exact hl x hx

lemma emits_send {flags : Flags} {data : List Byte} {o : Outcome}
    (h : P ⟨s.seq, s.receiveNextAck, flags, data⟩) : Emits P s (s.send flags data o) := by
  unfold send
  cases o.allocated with
  | true => exact ⟨_, rfl, fun x hx => by rwa [mem_singleton.1 hx]⟩
  | false => exact .refl s

lemma emits_sendRst {tcp : Segment} {o : Outcome}
    (h : P ⟨0, tcp.seq + 1, { ack := true, rst := true }, []⟩) : Emits P s (s.sendRst tcp o) := by
  unfold sendRst
  split_ifs
  · exact ⟨_, rfl, fun x hx => by rwa [mem_singleton.1 hx]⟩
  · exact .refl s

def SynAtZero (t : Transmitted) : Prop := t.flags.syn = true → t.seq = 0

lemma emits_trigger (s : Session) (w : Bool) (o : Outcome) :
    Emits SynAtZero s (s.handleOutputTrigger w o).session := by
  unfold handleOutputTrigger
  dsimp only
  split_ifs
  · exact .refl s
  · exact .refl s
  · exact emits_send nofun

lemma emits_enterEstablished (s : Session) (o : Outcome) :
    Emits SynAtZero s (s.enterEstablished o) := emits_trigger s false o

lemma emits_handleEstablished (s : Session) (tcp : Segment) (o : Outcome) :
    Emits SynAtZero s (s.handleEstablished tcp o) := by
  unfold handleEstablished
  dsimp only
  split_ifs
  · exact .refl s
  · exact emits_send nofun
  · exact emits_trigger s false o
  · exact emits_trigger (s.pushInputBytes _) false o
  · have h := emits_trigger (s.pushInputBytes (copyData tcp (tcpDataLength tcp))) false o
    exact Emits.trans (t := { (handleOutputTrigger _ false o).session with state := _ }) h
      (emits_send nofun)

lemma emits_processInSegment (s : Session) (tcp : Segment) (o₁ o₂ : Outcome) :
    Emits SynAtZero s (s.processInSegment tcp o₁ o₂) := by
  unfold processInSegment
  split
  · exact emits_sendRst nofun
  · split_ifs
    · have h : Emits SynAtZero s ({ s with receiveNextAck := tcp.seq + 1 }.sendAck o₁) :=
        emits_send nofun
      exact h.trans (emits_enterEstablished _ o₂)
    · exact .refl s
  · split_ifs
    · exact emits_enterEstablished s o₁
    · exact .refl s
  · exact emits_handleEstablished s tcp o₁
  · exact .refl s
  · exact .refl s
  · split_ifs
    · exact .refl s
    · exact emits_send nofun

lemma emits_pushOutputBytes (s : Session) (bytes : List Byte) (o : Outcome) :
    Emits SynAtZero s (s.pushOutputBytes bytes o) := by
  unfold pushOutputBytes
  dsimp only
  split
  · exact emits_trigger { s with outputBuffer := s.outputBuffer ++ bytes } _ o
  · exact .refl s

lemma emits_close (s : Session) (o : Outcome) : Emits SynAtZero s (s.close o) := by
  unfold close
  split_ifs
  · exact .refl s
  · exact emits_send nofun

/-! How a segment moves a session through the handshake. -/

lemma synSent_spec (hst : s.state = .synSent) (tcp : Segment) (o₁ o₂ : Outcome) :
    (tcp.flags.syn ∧ isEstablished (s.processInSegment tcp o₁ o₂).state ∧
        (s.processInSegment tcp o₁ o₂).receiveNextAck = tcp.seq + 1) ∨
      s.processInSegment tcp o₁ o₂ = { s with state := .closed } := by
  by_cases h : s.isSeqMatch tcp = true ∧ tcp.flags.syn = true ∧ tcp.flags.ack = true ∧
      ¬ tcp.flags.rst = true
  · left
    have heq : s.processInSegment tcp o₁ o₂ =
        ({ s with receiveNextAck := tcp.seq + 1 }.sendAck o₁).enterEstablished o₂ := by
      simp [processInSegment, hst, h.1, h.2.1, h.2.2.1, h.2.2.2]
    have hin :=
      (sameInput_send { s with receiveNextAck := tcp.seq + 1 } { ack := true } [] o₁).trans
      (sameInput_enterEstablished _ o₂)
    rw [heq]
    exact ⟨h.2.1, rfl, hin.receiveNextAck⟩
  · right
    simp only [processInSegment, hst]
    rw [if_neg h]

lemma synReceived_spec (hst : s.state = .synReceived) (tcp : Segment) (o₁ o₂ : Outcome) :
    (s.isSeqMatch tcp ∧ tcp.flags.ack ∧
        isEstablished (s.processInSegment tcp o₁ o₂).state) ∨
      s.processInSegment tcp o₁ o₂ = s := by
  by_cases h : s.isSeqMatch tcp = true ∧ tcp.flags.ack
  · left
    have heq : s.processInSegment tcp o₁ o₂ = s.enterEstablished o₁ := by
      simp [processInSegment, hst, h.1, h.2]
    rw [heq]
    exact ⟨h.1, h.2, rfl⟩
  · right
    simp only [processInSegment, hst]
    rw [if_neg h]

lemma isEstablished_iff {st : TcpState} : isEstablished st ↔ ∃ w, st = .established w := by
  cases st <;> simp [isEstablished]

lemma connected_of_established (h : isEstablished s.state) : Connected s := by
  obtain ⟨w, hw⟩ := isEstablished_iff.1 h
  simp [Connected, hw]

lemma established_of_connected (hc : Connected s) (tcp : Segment) (o₁ o₂ : Outcome)
    (h : isEstablished (s.processInSegment tcp o₁ o₂).state) :
    isEstablished s.state := by
  rcases processInSegment_cases hc tcp o₁ o₂ with ⟨w, hst, -⟩ | ⟨-, hquiet⟩
  · exact isEstablished_iff.2 ⟨w, hst⟩
  · rcases hquiet.state with hst | hst
    · exact hst ▸ h
    · rw [hst] at h
      cases h

/-! A client that has answered no SYN/ACK acknowledges nothing but number zero. -/

def AckZero (t : Transmitted) : Prop :=
  t.flags.ack = true → t.flags.rst = false → t.ackSeq = 0

structure Unanswered (s : Session) : Prop where
  next : s.receiveNextAck = 0
  established : isEstablished s.state = false
  accepting : s.state ≠ .synReceived
  sent : ∀ t ∈ s.transmitted, AckZero t

lemma Unanswered.move (h : Unanswered s) (hnext : t.receiveNextAck = 0)
    (hst : t.state = .closed ∨ t.state = .lastAck ∨ t.state = s.state) (he : Emits AckZero s t) :
    Unanswered t where
  next := hnext
  established := by
    rcases hst with hst | hst | hst
    · simp [hst, isEstablished]
    · simp [hst, isEstablished]
    · rw [hst, h.established]
  accepting := by
    rcases hst with hst | hst | hst
    · simp [hst]
    · simp [hst]
    · rw [hst]
      exact h.accepting
  sent := he.forall h.sent

lemma Unanswered.sendAck (h : Unanswered s) (flags : Flags) (o : Outcome) :
    Emits AckZero s (s.send flags [] o) := emits_send fun _ _ => h.next

lemma Unanswered.close (h : Unanswered s) (o : Outcome) : Unanswered (s.close o) := by
  unfold Session.close
  split_ifs with hst
  · exact h.move rfl (.inr (.inr rfl)) (.refl s)
  · exact h.move ((sameInput_send s _ _ o).receiveNextAck.trans h.next) (.inr (.inl rfl))
      (h.sendAck { fin := true, ack := true } o)

lemma Unanswered.segment (h : Unanswered s) (tcp : Segment) (o₁ o₂ : Outcome) :
    (s.state = .synSent ∧ tcp.flags.syn ∧
        isEstablished (s.processInSegment tcp o₁ o₂).state ∧
        (s.processInSegment tcp o₁ o₂).receiveNextAck = tcp.seq + 1) ∨
      Unanswered (s.processInSegment tcp o₁ o₂) := by
  by_cases hst : s.state = .synSent
  · rcases synSent_spec hst tcp o₁ o₂ with hgood | heq
    · exact .inl ⟨hst, hgood⟩
    · rw [heq]
      exact .inr (h.move h.next (.inl rfl) (.refl s))
  · right
    unfold processInSegment
    split
    · refine h.move ?_ (.inr (.inr ?_)) (emits_sendRst nofun)
      · unfold sendRst
        split_ifs <;> exact h.next
      · unfold sendRst
        split_ifs <;> rfl
    · next hs => exact absurd hs hst
    · next hs => exact absurd hs h.accepting
    · next w hs =>
      have hn := h.established
      rw [hs] at hn
      cases hn
    · exact h
    · exact h
    · split_ifs
      · exact h
      · exact h.move ((sameInput_send s _ _ o₁).receiveNextAck.trans h.next) (.inl rfl)
          (h.sendAck { ack := true } o₁)

/-! What a process does with a descriptor. -/

structure ActSpec (d d' : Descriptor) : Prop where
  conn : d'.conn = d.conn
  emits : Emits SynAtZero d.session d'.session
  established : isEstablished d'.session.state = true → isEstablished d.session.state = true
  accepting : d'.session.state = .synReceived → d'.session = d.session
  connecting : d'.session.state = .synSent → d.session.state = .synSent
  connected : Connected d.session → Connected d'.session
  unanswered : Unanswered d.session → Unanswered d'.session

/-- One lemma for all actions: each invariant needs only these facts. -/
lemma act_spec {d d' : Descriptor} {action : Action} (h : d.act action = some d') :
    ActSpec d d' := by
  unfold Descriptor.act at h
  by_cases hreg : d.registered = false
  · rw [if_pos hreg] at h
    cases h
  rw [if_neg hreg] at h
  cases action with
  | write bytes o =>
    cases h
    split_ifs with hest
    · have hest' : isEstablished (d.session.pushOutputBytes bytes o).state := by
        rcases pushOutputBytes_state d.session bytes o with hs | ⟨_, w', _, hw'⟩
        · rw [hs]
          exact hest
        · exact isEstablished_iff.2 ⟨w', hw'⟩
      exact
        { conn := rfl
          emits := emits_pushOutputBytes d.session bytes o
          established := fun _ => hest
          accepting := fun hrec => absurd hrec (connected_of_established hest').2
          connecting := fun hsent => absurd hsent (connected_of_established hest').1
          connected := fun _ => connected_of_established hest'
          unanswered := fun hu => absurd hest (by simp [hu.established]) }
    · exact ⟨rfl, .refl _, id, fun _ => rfl, id, id, id⟩
  | close o =>
    cases h
    have hstate : (d.session.close o).state = .closed ∨ (d.session.close o).state = .lastAck := by
      unfold close
      split_ifs with hst
      · exact .inl hst
      · exact .inr rfl
    have hspec : ∀ r c, ActSpec d ⟨d.conn, d.session.close o, r, c⟩ := fun r c =>
      { conn := rfl
        emits := emits_close d.session o
        established := fun he => by
          rcases hstate with hs | hs <;> simp [hs, isEstablished] at he
        accepting := fun he => by
          rcases hstate with hs | hs <;> simp [hs] at he
        connecting := fun he => by
          rcases hstate with hs | hs <;> simp [hs] at he
        connected := fun _ => by
          rcases hstate with hs | hs <;> simp [Connected, hs]
        unanswered := fun hu => hu.close o }
    split_ifs
    · exact hspec _ _
    · exact hspec _ _
  | closeReturns =>
    simp only at h
    split_ifs at h with hc
    cases h
    exact
      { conn := rfl
        emits := .refl d.session
        established := id
        accepting := fun he => absurd (hc.2.symm.trans he) (by simp)
        connecting := id
        connected := id
        unanswered := fun hu => hu.move rfl (.inr (.inr rfl)) (.refl _) }

end GzOS.Tcp.Handshake
