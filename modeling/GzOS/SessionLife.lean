import GzOS.AcceptQueue
import GzOS.Handshake

/-!
# The life of a TCP session

A session opens, is established, finishes and is closed, and it never goes back.
`Established` is therefore entered at most once, nothing but acknowledgments and resets
follows a FIN, and a closed session stays closed.

`TcpSession::close` enters `FinSent` from every state but `Closed`. A session in
`LastAck` has sent its FIN already, so closing it then sends another one.
-/
namespace GzOS.Tcp.Life
open Runs Reading Input Session List
open Closing (isFin)
open Handshake (Emits emits_send emits_sendRst)

/-- With its calls of `close` that wait. In `Listening` `session.state` is not looked at.
`entered` counts the entries of `Established`. -/
structure Endpoint where
  session : Session
  listening : Bool := false
  waiting : ℕ := 0
  destroyed : Bool := false
  entered : ℕ := 0

inductive Event
  | segment (p : Packet) (o₁ o₂ : Outcome)
  | write (bytes : List Byte) (o : Outcome)
  | close (o : Outcome)
  /-- A call of `close` goes on after `wait_state_changed`. -/
  | closeReturns
  | destroy (o : Outcome)

namespace Endpoint

def isClosed (e : Endpoint) : Bool := !e.listening && decide (e.session.state = .closed)

def established (e : Endpoint) : Bool := !e.listening && isEstablished e.session.state

def fins (e : Endpoint) : ℕ := e.session.transmitted.countP isFin

/-- What a SYN creates in `Listening` is another session. -/
def processInSegment (e : Endpoint) (p : Packet) (o₁ o₂ : Outcome) : Endpoint :=
  if e.listening then
    if p.isSyn then e else { e with session := e.session.sendRst p.tcp o₁ }
  else { e with session := e.session.processInSegment p.tcp o₁ o₂ }

/-- Only an established session accepts it. -/
def write (e : Endpoint) (bytes : List Byte) (o : Outcome) : Endpoint :=
  if e.established then { e with session := e.session.pushOutputBytes bytes o } else e

/-- Up to its wait, or to its end if the session is closed. -/
def close (e : Endpoint) (o : Outcome) : Endpoint :=
  if e.isClosed then { e with session := e.session.afterClose }
  else
    { e with session := e.session.enterFinSent o, listening := false, waiting := e.waiting + 1 }

def counted (e before : Endpoint) : Endpoint :=
  { e with entered := before.entered + if !before.established && e.established then 1 else 0 }

end Endpoint

/-- The destructor calls `close`. Segments arrive until it has returned, calls of the
application end with it. -/
def act (e : Endpoint) : Event → Option Endpoint
  | .segment p o₁ o₂ =>
    if e.destroyed ∧ e.waiting = 0 then none else some (e.processInSegment p o₁ o₂)
  | .write bytes o => if e.destroyed then none else some (e.write bytes o)
  | .close o => if e.destroyed then none else some (e.close o)
  | .closeReturns =>
    if e.waiting = 0 then none
    else some { e with session := e.session.afterClose, waiting := e.waiting - 1 }
  | .destroy o => if e.destroyed then none else some { e.close o with destroyed := true }

def step (e : Endpoint) (ev : Event) : Option Endpoint := (act e ev).map (·.counted e)

/-- `createTcpClient`, `createTcpClientAcceptor`, `createTcpRejector` and
`createTcpServer`. -/
inductive Created : Endpoint → Prop
  | client (o : Outcome) : Created { session := Session.createTcpClient o }
  | acceptor (seq : Word) (o : Outcome) :
    Created { session := Session.createTcpClientAcceptor seq o }
  | rejector : Created { session := ⟨.closed, 0, 0, [], [], []⟩ }
  | server : Created { session := ⟨.closed, 0, 0, [], [], []⟩, listening := true }

/-! The stages: opening, established, finishing and closed. -/

def rank : TcpState → ℕ
  | .synSent | .synReceived => 0
  | .established _ => 1
  | .finSent | .closeWait | .lastAck => 2
  | .closed => 3

def Endpoint.rank (e : Endpoint) : ℕ := if e.listening then 0 else Life.rank e.session.state

variable {e e' : Endpoint}

lemma Endpoint.isClosed_iff : e.isClosed ↔ e.rank = 3 := by
  unfold isClosed rank
  cases e.listening <;> cases e.session.state <;> simp [Life.rank]

lemma Endpoint.established_iff : e.established ↔ e.rank = 1 := by
  unfold established rank
  cases e.listening <;> cases e.session.state <;> simp [Life.rank, isEstablished]

lemma Endpoint.rank_le (e : Endpoint) : e.rank ≤ 3 := by
  unfold rank
  cases e.listening <;> cases e.session.state <;> simp [Life.rank]

structure Plain (t : Transmitted) : Prop where
  syn : t.flags.syn = false
  fin : isFin t = false

structure Permitted (r : ℕ) (t : Transmitted) : Prop extends Plain t where
  data : t.data ≠ [] → r = 1
  rst : r = 3 → t.flags.rst = true

/-- Only `close`, where `closes` holds, lets a session that finishes finish again. -/
inductive Moves (closes : Prop) (e e' : Endpoint) : Prop
  | stays (hrank : e'.rank = e.rank) (hsent : Emits (Permitted e.rank) e.session e'.session)
  | establishes (hfrom : e.rank = 0) (hto : e'.rank = 1) (hsent : Emits Plain e.session e'.session)
  | finishes (hfrom : e.rank < 3) (hagain : e.rank = 2 → closes) (hto : e'.rank = 2)
    (hsent : ∃ s : Session, ∃ o, s.transmitted = e.session.transmitted ∧
      e'.session.transmitted = (s.sendFin o).transmitted)
  | ends (hfrom : e.rank < 3) (hto : e'.rank = 3) (hsent : Emits (Permitted 0) e.session e'.session)

lemma rank_connection (hl : e.listening = false) : e.rank = rank e.session.state := by
  simp [Endpoint.rank, hl]

lemma rank_update (hl : e.listening = false) (s : Session) :
    Endpoint.rank { e with session := s } = rank s.state :=
  rank_connection (e := { e with session := s }) hl

lemma permitted_trigger (s : Session) (w : Bool) (o : Outcome) :
    Emits (Permitted 1) s (s.handleOutputTrigger w o).session := by
  unfold handleOutputTrigger
  dsimp only
  split_ifs
  · exact .refl s
  · exact .refl s
  · exact emits_send
      ⟨⟨rfl, rfl⟩, fun _ => rfl, nofun⟩

variable {r : ℕ} {c : Prop}

lemma permitted_sendAck (hr : r < 3) (s : Session) (o : Outcome) :
    Emits (Permitted r) s (s.sendAck o) :=
  emits_send ⟨⟨rfl, rfl⟩, fun h => absurd rfl h, fun h => absurd h (Nat.ne_of_lt hr)⟩

lemma permitted_sendRst (s : Session) (tcp : Segment) (o : Outcome) :
    Emits (Permitted r) s (s.sendRst tcp o) :=
  emits_sendRst ⟨⟨rfl, rfl⟩, fun h => absurd rfl h, fun _ => rfl⟩

lemma established_moves {w : Bool} (hl : e.listening = false)
    (hst : e.session.state = .established w) (tcp : Segment) (o : Outcome) :
    Moves False e { e with session := e.session.handleEstablished tcp o } := by
  have hrank : e.rank = 1 := by rw [rank_connection hl, hst]; rfl
  unfold handleEstablished
  dsimp only
  split_ifs
  · exact .stays rfl (.refl _)
  · refine .finishes (by omega) (by omega) (rank_update hl _) ?_
    exact ⟨{ e.session with receiveNextAck := e.session.receiveNextAck + 1 }, o, rfl, rfl⟩
  · refine .stays ((rank_update hl _).trans hrank.symm) ?_
    rw [hrank]
    exact permitted_trigger e.session false o
  all_goals
    have htrigger := permitted_trigger
      (e.session.pushInputBytes (copyData tcp (tcpDataLength tcp))) false o
    obtain ⟨t, ht⟩ : ∃ t, (e.session.pushInputBytes
      (copyData tcp (tcpDataLength tcp))).handleOutputTrigger false o = t := ⟨_, rfl⟩
    rw [ht] at htrigger ⊢
  · refine .stays ((rank_update hl _).trans hrank.symm) ?_
    rw [hrank]
    exact htrigger
  · have hack := permitted_sendAck (r := 1) (by omega)
      { t.session with state := .established t.waitingForAck } o
    have hstate : Life.rank (sendAck
        { t.session with state := .established t.waitingForAck } o).state = 1 := by
      unfold sendAck send
      split_ifs <;> rfl
    refine .stays ((rank_update hl _).trans (hstate.trans hrank.symm)) ?_
    rw [hrank]
    exact Emits.trans htrigger hack

lemma segment_moves (hl : e.listening = false) (tcp : Segment) (o₁ o₂ : Outcome) :
    Moves False e { e with session := e.session.processInSegment tcp o₁ o₂ } := by
  unfold processInSegment
  split
  · next hst =>
    refine .stays ?_ (permitted_sendRst _ tcp o₁)
    rw [rank_update hl, rank_connection hl, sendRst]
    split_ifs <;> rfl
  · next hst =>
    have hrank : e.rank = 0 := by rw [rank_connection hl, hst]; rfl
    split_ifs
    · refine .establishes hrank (rank_update hl _) ?_
      have hack := permitted_sendAck (r := 1) (by omega)
        { e.session with receiveNextAck := tcp.seq + 1 } o₁
      have htrigger := permitted_trigger
        (sendAck { e.session with receiveNextAck := tcp.seq + 1 } o₁) false o₂
      exact (hack.trans htrigger).mono fun _ h => h.toPlain
    · exact .ends (by omega) (rank_update hl _) (.refl _)
  · next hst =>
    have hrank : e.rank = 0 := by rw [rank_connection hl, hst]; rfl
    split_ifs
    · refine .establishes hrank (rank_update hl _) ?_
      exact (permitted_trigger e.session false o₁).mono fun _ h => h.toPlain
    · exact .stays rfl (.refl _)
  · next w hst => exact established_moves hl hst tcp o₁
  · exact .stays rfl (.refl _)
  · exact .stays rfl (.refl _)
  · next hst =>
    have hrank : e.rank = 2 := by rw [rank_connection hl, hst]; rfl
    split_ifs
    · exact .stays rfl (.refl _)
    · exact .ends (by omega) (rank_update hl _) (permitted_sendAck (by omega) e.session o₁)

lemma processInSegment_moves (e : Endpoint) (p : Packet) (o₁ o₂ : Outcome) :
    Moves False e (e.processInSegment p o₁ o₂) := by
  unfold Endpoint.processInSegment
  split_ifs with hl
  · exact .stays rfl (.refl _)
  · exact .stays (by simp [Endpoint.rank, hl]) (permitted_sendRst _ p.tcp o₁)
  · exact segment_moves (by simpa using hl) p.tcp o₁ o₂

lemma write_moves (e : Endpoint) (bytes : List Byte) (o : Outcome) :
    Moves False e (e.write bytes o) := by
  unfold Endpoint.write
  split_ifs with h
  · have hrank := Endpoint.established_iff.1 h
    obtain ⟨hl, hest⟩ : e.listening = false ∧ isEstablished e.session.state := by
      simpa [Endpoint.established] using h
    obtain ⟨w, hst⟩ := Handshake.isEstablished_iff.1 hest
    have htrigger := permitted_trigger
      { e.session with outputBuffer := e.session.outputBuffer ++ bytes } w o
    unfold pushOutputBytes
    dsimp only
    split
    · next w' hst' =>
      obtain rfl : w = w' := TcpState.established.inj (hst.symm.trans hst')
      refine .stays ((rank_update hl _).trans hrank.symm) ?_
      rw [hrank]
      exact htrigger
    · next hne => exact absurd hst (hne w)
  · exact .stays rfl (.refl _)

lemma close_moves (e : Endpoint) (o : Outcome) : Moves True e (e.close o) := by
  unfold Endpoint.close
  split_ifs with h
  · exact .stays rfl (.refl _)
  · have hrank : e.rank ≠ 3 := fun h3 => h (Endpoint.isClosed_iff.2 h3)
    have hle := e.rank_le
    exact .finishes (by omega) (fun _ => trivial) rfl ⟨e.session, o, rfl, rfl⟩

def Event.closes : Event → Prop
  | .close _ | .destroy _ => True
  | _ => False

lemma Moves.congr {e1 e2 : Endpoint} (h : Moves c e e1) (hrank : e2.rank = e1.rank)
    (hsent : e2.session.transmitted = e1.session.transmitted) : Moves c e e2 := by
  have hemits {P : Transmitted → Prop} (he : Emits P e.session e1.session) :
      Emits P e.session e2.session := by
    unfold Emits
    rwa [hsent]
  cases h with
  | stays h1 h2 => exact .stays (hrank.trans h1) (hemits h2)
  | establishes h1 h2 h3 => exact .establishes h1 (hrank.trans h2) (hemits h3)
  | finishes h1 h2 h3 h4 => exact .finishes h1 h2 (hrank.trans h3) (by rwa [hsent])
  | ends h1 h2 h3 => exact .ends h1 (hrank.trans h2) (hemits h3)

variable {ev : Event}

lemma act_moves (h : act e ev = some e') : Moves ev.closes e e' := by
  cases ev with
  | segment p o₁ o₂ =>
    simp only [act] at h
    split_ifs at h
    cases h
    exact processInSegment_moves e p o₁ o₂
  | write bytes o =>
    simp only [act] at h
    split_ifs at h
    cases h
    exact write_moves e bytes o
  | close o =>
    simp only [act] at h
    split_ifs at h
    cases h
    exact close_moves e o
  | closeReturns =>
    simp only [act] at h
    split_ifs at h
    cases h
    exact .stays rfl (.refl _)
  | destroy o =>
    simp only [act] at h
    split_ifs at h
    cases h
    exact (close_moves e o).congr rfl rfl

lemma step_moves (h : step e ev = some e') : Moves ev.closes e e' := by
  obtain ⟨e1, hact, rfl⟩ := Option.map_eq_some_iff.1 h
  exact (act_moves hact).congr rfl rfl

/-! FINs. -/

lemma fins_of_emits {P : Transmitted → Prop} (h : Emits P e.session e'.session)
    (hP : ∀ t, P t → isFin t = false) : e'.fins = e.fins := by
  obtain ⟨l, hl, hplain⟩ := h
  have hnone : l.countP isFin = 0 := by
    rw [countP_eq_zero]
    intro t ht
    simp [hP t (hplain t ht)]
  unfold Endpoint.fins
  rw [hl, countP_append, hnone, Nat.add_zero]

lemma sendFin_fins (s : Session) (o : Outcome) : (s.sendFin o).transmitted.countP isFin =
      s.transmitted.countP isFin + if o.allocated then 1 else 0 := by
  unfold sendFin send
  split_ifs <;> simp [isFin]

lemma fins_cases (h : Moves c e e') :
    e'.fins = e.fins ∨ (e.rank < 3 ∧ (e.rank = 2 → c) ∧ e'.rank = 2 ∧ e'.fins = e.fins + 1) := by
  cases h with
  | stays _ hsent => exact .inl (fins_of_emits hsent fun _ ht => ht.fin)
  | establishes _ _ hsent => exact .inl (fins_of_emits hsent fun _ ht => ht.fin)
  | ends _ _ hsent => exact .inl (fins_of_emits hsent fun _ ht => ht.fin)
  | finishes hfrom hagain hto hsent =>
    obtain ⟨s, o, hs, hs'⟩ := hsent
    have hfins : e'.fins = e.fins + if o.allocated then 1 else 0 := by
      unfold Endpoint.fins
      rw [hs', sendFin_fins, hs]
    split_ifs at hfins
    · exact .inr ⟨hfrom, hagain, hto, hfins⟩
    · exact .inl hfins

lemma close_fins (e : Endpoint) (o : Outcome) :
    (e.close o).fins = e.fins + if e.rank < 3 ∧ o.allocated then 1 else 0 := by
  have hle := e.rank_le
  unfold Endpoint.close
  by_cases hclosed : e.isClosed
  · have hrank := Endpoint.isClosed_iff.1 hclosed
    rw [if_pos hclosed, if_neg (by omega)]
    rfl
  · have hrank : e.rank < 3 := by
      have h3 : e.rank ≠ 3 := fun h3 => hclosed (Endpoint.isClosed_iff.2 h3)
      omega
    rw [if_neg hclosed]
    simp only [hrank, true_and]
    exact sendFin_fins e.session o

/-- A session that waits for the acknowledgment of its FIN is not closed or destroyed,
unless its next FIN cannot be allocated. -/
def FinAwaited (e : Endpoint) : Event → Prop
  | .close o | .destroy o => e.rank = 2 → o.allocated = true → e.fins = 0
  | _ => True

instance (e : Endpoint) (ev : Event) : Decidable (FinAwaited e ev) := by
  cases ev <;> unfold FinAwaited <;> infer_instance

lemma finAwaited_of_not_closes (e : Endpoint) (h : ¬ ev.closes) : FinAwaited e ev := by
  cases ev with
  | close o => exact absurd trivial h
  | destroy o => exact absurd trivial h
  | segment p o₁ o₂ => trivial
  | write bytes o => trivial
  | closeReturns => trivial

lemma step_closes (hs : step e ev = some e') (hc : ev.closes) :
    ∃ o, e'.fins = (e.close o).fins ∧
      (FinAwaited e ev ↔ (e.rank = 2 → o.allocated → e.fins = 0)) := by
  obtain ⟨e1, hact, rfl⟩ := Option.map_eq_some_iff.1 hs
  cases ev with
  | close o =>
    simp only [act] at hact
    split_ifs at hact
    cases hact
    exact ⟨o, rfl, Iff.rfl⟩
  | destroy o =>
    simp only [act] at hact
    split_ifs at hact
    cases hact
    exact ⟨o, rfl, Iff.rfl⟩
  | segment p o₁ o₂ => exact hc.elim
  | write bytes o => exact hc.elim
  | closeReturns => exact hc.elim

def FinLate (e : Endpoint) : Prop := e.rank < 2 → e.fins = 0

lemma finLate_step (h : FinLate e) (hs : step e ev = some e') : FinLate e' := by
  intro hrank'
  have hmoves := step_moves hs
  have hrank : e.rank < 2 := by
    cases hmoves with
    | stays hrank _ => omega
    | establishes hfrom _ _ => omega
    | finishes _ _ hto _ => omega
    | ends _ hto _ => omega
  rcases fins_cases hmoves with hsame | ⟨_, _, hto, _⟩
  · rw [hsame, h hrank]
  · omega

lemma fins_step (h : FinLate e ∧ e.fins ≤ 1) (hs : step e ev = some e') :
    (FinAwaited e ev → FinLate e' ∧ e'.fins ≤ 1) ∧ (e'.fins ≤ 1 → FinAwaited e ev) := by
  have hlate := finLate_step h.1 hs
  by_cases hc : ev.closes
  · obtain ⟨o, hfins, hawaited⟩ := step_closes hs hc
    rw [close_fins] at hfins
    rw [hawaited]
    constructor
    · intro hg
      refine ⟨hlate, ?_⟩
      split_ifs at hfins with hsend
      · -- the FIN is the first one, in each stage
        have hfirst : e.fins = 0 := by
          by_cases hrank : e.rank < 2
          · exact h.1 hrank
          · exact hg (by omega) hsend.2
        omega
      · exact hfins.le.trans h.2
    · intro hle hrank halloc
      rw [if_pos ⟨by omega, halloc⟩] at hfins
      omega
  · refine ⟨fun _ => ⟨hlate, ?_⟩, fun _ => finAwaited_of_not_closes e hc⟩
    rcases fins_cases (step_moves hs) with hsame | ⟨hfrom, hagain, _, hmore⟩
    · exact hsame.le.trans h.2
    · have hrank : e.rank ≠ 2 := fun h2 => hc (hagain h2)
      have hfirst := h.1 (by omega)
      omega

lemma created_fins (h : Created e) : e.fins = 0 := by
  cases h with
  | client o =>
    simp only [createTcpClient, sendSyn, send]
    split_ifs <;> rfl
  | acceptor seq o =>
    simp only [Session.createTcpClientAcceptor, Session.sendSynAck, Session.send]
    split_ifs <;> rfl
  | rejector => rfl
  | server => rfl

def Unopened (e : Endpoint) : Prop := e.listening = true ∨ e.session.state = .synSent

lemma Unopened.rank (h : Unopened e) : e.rank = 0 := by
  unfold Endpoint.rank
  rcases h with hl | hst
  · rw [if_pos hl]
  · rw [hst]
    split_ifs <;> rfl

/-- A run sends at most one FIN exactly if no session that waits for the
acknowledgment of its FIN is closed again, and none while it has not left its first
state. -/
theorem fin_once_iff {e u : Endpoint} (he : Created e) (events : List Event)
    (hrun : exec step e events = some u) :
    (Always step (fun e => e.fins ≤ 1) e events ↔ Meets step FinAwaited e events) ∧
      (Always step Unopened e events → Always step (fun e => e.fins = 0) e events) := by
  have hnone := created_fins he
  constructor
  · exact always_iff_meets (I := fun e => FinLate e ∧ e.fins ≤ 1) (fun _ h => h.2)
      (fun _ _ _ h hs => fins_step h hs) ⟨fun _ => hnone, by omega⟩ hrun
  intro hun pre hpre t ht
  have hlate : FinLate t :=
    always_of_step (fun _ _ _ h hs => finLate_step h hs) (fun _ => hnone) events pre hpre t ht
  have hrank := (hun pre hpre t ht).rank
  exact hlate (by omega)

def ackOfSyn : Event :=
  .segment ⟨80, ⟨1, 1⟩, { seq := 1, ackSeq := 1, flags := { ack := true }, fits := bare_fits },
    false, false, false, false⟩ {} {}

def finOfPeer : Event :=
  .segment ⟨80, ⟨1, 1⟩,
    { seq := 1, ackSeq := 1, flags := { fin := true, ack := true }, fits := bare_fits },
    false, false, false, false⟩ {} {}

def ackOfFin : Event :=
  .segment ⟨80, ⟨1, 1⟩, { seq := 2, ackSeq := 2, flags := { ack := true }, fits := bare_fits },
    false, false, false, false⟩ {} {}

def acceptor : Endpoint := { session := Session.createTcpClientAcceptor 0 {} }

/-- The application closes after the peer's acknowledgment, and the destructor does
so again. -/
theorem fin_once_iff_acknowledged :
    Created acceptor ∧ Always step (fun e => e.fins ≤ 1) acceptor
        [ackOfSyn, finOfPeer, ackOfFin, .close {}, .destroy {}] :=
  have hmeets := meets_of_check (by decide)
  ⟨.acceptor 0 {}, (fin_once_iff (.acceptor 0 {}) _ rfl).1.2 hmeets⟩

/-- The peer's FIN is answered with a FIN, and the application's `close` sends
another. -/
theorem fin_twice :
    ∃ e, exec step acceptor [ackOfSyn, finOfPeer, .close {}] = some e ∧ e.fins = 2 :=
  ⟨_, rfl, by decide⟩

/-! The life cycle. -/

def Quiet (t : Transmitted) : Prop := t.flags.syn = false ∧ t.data = []

def QuietAfterFin (sent : List Transmitted) : Prop :=
  sent.Pairwise fun f t => isFin f = true → Quiet t

lemma QuietAfterFin.append {sent added : List Transmitted} (h : QuietAfterFin sent)
    (hplain : ∀ t ∈ added, isFin t = false)
    (hquiet : (∃ f ∈ sent, isFin f) → ∀ t ∈ added, Quiet t) :
    QuietAfterFin (sent ++ added) := by
  refine pairwise_append.2 ⟨h, ?_, fun f hf t ht hfin => hquiet ⟨f, hf, hfin⟩ t ht⟩
  rw [pairwise_iff_forall_sublist]
  intro f t hsub hfin
  rw [hplain f (hsub.subset (by simp))] at hfin
  cases hfin

lemma closed_run {events : List Event} (h : e.rank = 3) (hrun : exec step e events = some e') :
    e'.rank = 3 ∧ Emits (fun t => t.flags.rst) e.session e'.session := by
  induction events generalizing e with
  | nil =>
    cases hrun
    exact ⟨h, .refl _⟩
  | cons ev events ih =>
    obtain ⟨e1, hs, hrun⟩ := exec_cons_some.1 hrun
    cases step_moves hs with
    | stays hrank hsent =>
      obtain ⟨hend, hrest⟩ := ih (hrank.trans h) hrun
      exact ⟨hend, (hsent.mono fun _ ht => ht.rst h).trans hrest⟩
    | establishes hfrom _ _ => omega
    | finishes hfrom _ _ _ => omega
    | ends hfrom _ _ => omega

/-- Established at most once, no SYN and no data after a FIN, and only resets when closed. -/
structure LifeCycle (e : Endpoint) : Prop where
  once : e.entered ≤ 1
  quiet : e.session.transmitted.Pairwise fun f t =>
    isFin f = true → t.flags.syn = false ∧ t.data = []
  finished : (∃ f ∈ e.session.transmitted, isFin f = true) → e.established = false
  final : e.isClosed = true → ∀ later e', exec step e later = some e' →
    e'.isClosed = true ∧ Emits (fun t => t.flags.rst = true) e.session e'.session

structure Living (e : Endpoint) : Prop where
  once : e.entered ≤ 1
  opening : e.rank = 0 → e.entered = 0
  quiet : QuietAfterFin e.session.transmitted
  late : FinLate e

lemma FinLate.rank (h : FinLate e) (hf : ∃ f ∈ e.session.transmitted, isFin f) :
    2 ≤ e.rank := by
  by_contra hlt
  obtain ⟨f, hmem, hfin⟩ := hf
  have hnone := h (by omega)
  exact countP_eq_zero.1 hnone f hmem hfin

lemma Living.lifeCycle (h : Living e) : LifeCycle e where
  once := h.once
  quiet := h.quiet
  finished := by
    intro hf
    have hrank := h.late.rank hf
    rw [← Bool.not_eq_true, Endpoint.established_iff]
    omega
  final := by
    intro hclosed later e' hrun
    have hend := closed_run (Endpoint.isClosed_iff.1 hclosed) hrun
    exact ⟨Endpoint.isClosed_iff.2 hend.1, hend.2⟩

lemma QuietAfterFin.permitted (h : QuietAfterFin e.session.transmitted)
    (hsent : Emits (Permitted r) e.session e'.session)
    (hr : (∃ f ∈ e.session.transmitted, isFin f) → r ≠ 1) :
    QuietAfterFin e'.session.transmitted := by
  obtain ⟨l, hl, hp⟩ := hsent
  rw [hl]
  refine h.append (fun t ht => (hp t ht).fin) fun hf t ht => ⟨(hp t ht).syn, ?_⟩
  by_contra hdata
  exact hr hf ((hp t ht).data hdata)

lemma quiet_moves (h : Moves c e e') (hlate : FinLate e)
    (hquiet : QuietAfterFin e.session.transmitted) : QuietAfterFin e'.session.transmitted := by
  cases h with
  | stays _ hsent =>
    refine hquiet.permitted hsent fun hf => ?_
    have hrank := hlate.rank hf
    omega
  | establishes hfrom _ hsent =>
    obtain ⟨l, hl, hp⟩ := hsent
    rw [hl]
    refine hquiet.append (fun t ht => (hp t ht).fin) fun hf => ?_
    have hrank := hlate.rank hf
    omega
  | ends _ _ hsent => exact hquiet.permitted hsent fun _ => Nat.zero_ne_one
  | finishes _ _ _ hsent =>
    obtain ⟨s, o, hs, hs'⟩ := hsent
    rw [← hs] at hquiet
    rw [hs']
    unfold sendFin send
    cases o.allocated with
    | false => exact hquiet
    | true =>
      refine pairwise_append.2 ⟨hquiet, pairwise_singleton _ _, ?_⟩
      intro f _ t ht _
      rw [mem_singleton.1 ht]
      exact ⟨rfl, rfl⟩

lemma entered_step (h : Living e) (hs : step e ev = some e') :
    e'.entered ≤ 1 ∧ (e'.rank = 0 → e'.entered = 0) := by
  have hmoves := step_moves hs
  obtain ⟨e1, -, rfl⟩ := Option.map_eq_some_iff.1 hs
  have hcount : (e1.counted e).entered =
      e.entered + if !e.established && e1.established then 1 else 0 := rfl
  have hsame (hn : e1.rank ≠ 1 ∨ e.rank = 1) : (e1.counted e).entered = e.entered := by
    have hcond : (!e.established && e1.established) = false := by
      rw [← Bool.not_eq_true, Bool.and_eq_true, Bool.not_eq_true', ← Bool.not_eq_true,
        Endpoint.established_iff, Endpoint.established_iff]
      omega
    simp [hcount, hcond]
  have hrank1 : (e1.counted e).rank = e1.rank := rfl
  cases hmoves with
  | stays hrank _ =>
    have heq := hsame (by omega)
    rw [heq, hrank]
    exact ⟨h.once, h.opening⟩
  | establishes hfrom hto _ =>
    have hzero := h.opening hfrom
    refine ⟨?_, by omega⟩
    rw [hcount]
    split_ifs <;> omega
  | finishes _ _ hto _ =>
    rw [hsame (by omega)]
    exact ⟨h.once, by omega⟩
  | ends _ hto _ =>
    rw [hsame (by omega)]
    exact ⟨h.once, by omega⟩

lemma created_living (h : Created e) : Living e := by
  have hlate : FinLate e := fun _ => created_fins h
  have hnone : ∀ t ∈ e.session.transmitted, isFin t = false := by
    intro t ht
    simpa using countP_eq_zero.1 (created_fins h) t ht
  have hquiet : QuietAfterFin e.session.transmitted := by
    have hempty : QuietAfterFin [] := List.Pairwise.nil
    simpa using hempty.append hnone (by simp)
  have hentered : e.entered = 0 := by
    cases h <;> rfl
  exact ⟨by omega, fun _ => hentered, hquiet, hlate⟩

/-- In every run of a session from its creation on. -/
theorem life_cycle {e : Endpoint} (he : Created e) (events : List Event) :
    Always step LifeCycle e events := by
  refine (always_of_step ?_ (created_living he) events).mono fun _ h => h.lifeCycle
  intro e ev e' h hs
  obtain ⟨honce, hopening⟩ := entered_step h hs
  exact ⟨honce, hopening, quiet_moves (step_moves hs) h.late h.quiet, finLate_step h.late hs⟩

/-- A session that is established, finishes and is closed. -/
theorem life_cycle_acceptor :
    Created acceptor ∧
      Always step LifeCycle acceptor [ackOfSyn, .write [7] {}, finOfPeer, ackOfFin, .destroy {}] ∧
      (exec step acceptor [ackOfSyn, finOfPeer, ackOfFin, .destroy {}]).map
        (fun e => (e.entered, e.isClosed)) = some (1, true) :=
  ⟨.acceptor 0 {}, life_cycle (.acceptor 0 {}) _, by decide⟩

end GzOS.Tcp.Life
