import GzOS.Handshake

/-!
# Agreement of the two ends of a connection

An acceptor that waits expects the acknowledgment of its SYN/ACK, and a client that has
answered no SYN/ACK has only acknowledged number zero. So the segment that establishes
an acceptor was sent by a client that answered it.
-/
namespace GzOS.Tcp.Handshake
open Runs Reading Option List Session

/-! The invariant. -/

structure AcceptorOk (d : Descriptor) : Prop where
  syn : ∀ t ∈ d.session.transmitted, SynAtZero t
  accepting : d.session.state = .synReceived →
    d.session.seq = 1 ∧ d.session.receiveNextAck = initialSeq + 1
  connecting : d.session.state ≠ .synSent

structure ClientOk (acceptors : List Descriptor) (c : Client) : Prop where
  syn : ∀ t ∈ c.session.transmitted, SynAtZero t
  unanswered : c.answered = none → Unanswered c.session
  answered : ∀ r, c.answered = some r → Connected c.session ∧ r.clientNextAck = initialSeq + 1 ∧
    ∃ d, acceptors[r.acceptor]? = some d ∧ d.conn = c.conn ∧
      (d.session.state = .synReceived → r.acceptorNextAck = initialSeq + 1)

structure Inv (s : State) : Prop where
  clients : ∀ c ∈ s.clients, ClientOk s.acceptors c
  acceptors : ∀ d ∈ s.acceptors, AcceptorOk d
  agreement : Agreement s
  clientResets : ∀ m ∈ s.clientResets, m.2.flags = { ack := true, rst := true }
  serverResets : ∀ m ∈ s.serverResets, m.2.flags = { ack := true, rst := true }

def Later (as as' : List Descriptor) : Prop :=
  ∀ (k : ℕ) (d : Descriptor), as[k]? = some d → ∃ d' : Descriptor, as'[k]? = some d' ∧
    d'.conn = d.conn ∧ (d'.session.state = .synReceived → d.session.state = .synReceived)

variable {k i : ℕ} {d : Descriptor} {s : State} {m : Conn × Transmitted} {src : Source}
  {o1 o2 : Outcome}

variable {as : List Descriptor} {d' : Descriptor} {sender : Option (ℕ × Descriptor)} {s' : State}

lemma later_set (hd : as[k]? = some d) (hconn : d'.conn = d.conn)
    (hst : d'.session.state = .synReceived → d.session.state = .synReceived) :
    Later as (as.set k d') := by
  intro j e he
  by_cases hjk : k = j
  · subst hjk
    obtain rfl := some.inj (hd.symm.trans he)
    obtain ⟨hlt, _⟩ := List.getElem?_eq_some_iff.1 hd
    exact ⟨d', getElem?_set_self hlt, hconn, hst⟩
  · exact ⟨e, by rw [getElem?_set_ne hjk, he], rfl, id⟩

lemma later_append (as : List Descriptor) (d : Descriptor) : Later as (as ++ [d]) := by
  intro k e he
  obtain ⟨hlt, _⟩ := List.getElem?_eq_some_iff.1 he
  exact ⟨e, by rw [getElem?_append_left hlt, he], rfl, id⟩

variable {c : Client} {o : Outcome} {port : UInt16}

lemma ClientOk.later {as' : List Descriptor} (h : ClientOk as c) (hl : Later as as') :
    ClientOk as' c where
  syn := h.syn
  unanswered := h.unanswered
  answered := by
    intro r hr
    obtain ⟨hc, hnext, d, hd, hconn, hst⟩ := h.answered r hr
    obtain ⟨d', hd', hconn', hst'⟩ := hl _ d hd
    exact ⟨hc, hnext, d', hd', hconn'.trans hconn, fun h' => hst (hst' h')⟩

lemma Inv.setAcceptor (h : Inv s) (hd : s.acceptors[k]? = some d)
    (hconn : d'.conn = d.conn) (hok : AcceptorOk d')
    (hst : d'.session.state = .synReceived → d.session.state = .synReceived)
    (hest : isEstablished d'.session.state → isEstablished d.session.state ∨
      ∃ c ∈ s.clients, c.Agrees d.conn k) : Inv { s with acceptors := s.acceptors.set k d' } where
  clients c hc := (h.clients c hc).later (later_set hd hconn hst)
  acceptors e he := by
    rcases mem_or_eq_of_mem_set he with he | rfl
    · exact h.acceptors e he
    · exact hok
  agreement := by
    intro j e he hj
    by_cases hjk : k = j
    · subst hjk
      obtain ⟨hlt, _⟩ := List.getElem?_eq_some_iff.1 hd
      obtain rfl := some.inj ((getElem?_set_self hlt).symm.trans he)
      rw [hconn]
      rcases hest hj with hest | hagrees
      · exact h.agreement k d hd hest
      · exact hagrees
    · exact h.agreement j e (by rwa [getElem?_set_ne hjk] at he) hj
  clientResets := h.clientResets
  serverResets := h.serverResets

lemma Inv.setClient (h : Inv s) {c' : Client} (hc : s.clients[k]? = some c)
    (hconn : c'.conn = c.conn) (hok : ClientOk s.acceptors c')
    (hans : ∀ r, c.answered = some r → c'.answered = some r) :
    Inv { s with clients := s.clients.set k c' } where
  clients e he := by
    rcases mem_or_eq_of_mem_set he with he | rfl
    · exact h.clients e he
    · exact hok
  acceptors := h.acceptors
  agreement := by
    intro j d hd hest
    obtain ⟨e, he, hagrees⟩ := h.agreement j d hd hest
    obtain ⟨i, hi⟩ := mem_iff_getElem?.mp he
    obtain ⟨hlt, _⟩ := List.getElem?_eq_some_iff.1 hc
    by_cases hik : k = i
    · subst hik
      obtain rfl := some.inj (hc.symm.trans hi)
      exact ⟨c', mem_of_getElem? (getElem?_set_self hlt), hconn.trans hagrees.1,
        hans _ hagrees.2⟩
    · exact ⟨e, mem_of_getElem? (by rw [getElem?_set_ne hik, hi]), hagrees⟩
  clientResets := h.clientResets
  serverResets := h.serverResets

lemma lookup_some {α : Type} {p : α → Bool} {l : List α} {x : α} (h : lookup p l = some (k, x)) :
    l[k]? = some x ∧ p x := by
  obtain ⟨j, hj, hx⟩ := bind_eq_some_iff.1 h
  obtain ⟨y, hy, hyx⟩ := map_eq_some_iff.1 hx
  obtain ⟨rfl, rfl⟩ := Prod.mk.inj hyx
  obtain ⟨hlt, hp, _⟩ := findIdx?_eq_some_iff_getElem.1 hj
  have hget : l[j] = y := by
    rw [getElem?_eq_getElem hlt] at hy
    exact some.inj hy
  exact ⟨hy, hget ▸ hp⟩

lemma reset_flags {conn : Conn} {t : Transmitted} (h : m ∈ reset conn t o) :
    m.2.flags = { ack := true, rst := true } := by
  obtain ⟨x, hx, rfl⟩ := mem_map.1 h
  simp only [processInSegment, sendRst] at hx
  split_ifs at hx
  · simp only [nil_append, mem_singleton] at hx
    rw [hx]
  · cases hx

lemma sent_client {id : ℕ} (h : s.sent (.client id) i = some m) :
    ∃ c, s.clients[id]? = some c ∧ c.conn = m.1 ∧ m.2 ∈ c.session.transmitted := by
  obtain ⟨c, hc, hm⟩ := bind_eq_some_iff.1 h
  obtain ⟨t, ht, rfl⟩ := map_eq_some_iff.1 hm
  exact ⟨c, hc, rfl, mem_of_getElem? ht⟩

lemma agrees_of_genuine (h : Inv s) (hg : AckGenuine s (.deliver src i o1 o2))
    (hsrc : src.toServer) (hm : s.sent src i = some m) (hroute : s.route m.1 = some (k, d))
    (hst : d.session.state = .synReceived) (hmatch : d.session.isSeqMatch (segment m.2))
    (hack : m.2.flags.ack) : ∃ c ∈ s.clients, c.Agrees d.conn k := by
  obtain ⟨hrst, hanswer⟩ := hg hsrc m hm (k, d) hroute hst hmatch hack
  obtain ⟨hd, hhas⟩ := lookup_some hroute
  have hacc := (h.acceptors d (mem_of_getElem? hd)).accepting hst
  cases src with
  | client id =>
    obtain ⟨c, hc, hconn, ht⟩ := sent_client hm
    have hok := h.clients c (mem_of_getElem? hc)
    cases hr : c.answered with
    | none =>
      -- such a client acknowledges zero, the acceptor expects one
      have hzero := (hok.unanswered hr).sent m.2 ht hack hrst
      have hone : m.2.ackSeq = 1 := by
        rw [← hacc.1]
        exact beq_iff_eq.1 hmatch
      exact absurd (hzero.symm.trans hone) (by decide)
    | some r =>
      obtain ⟨_, hnext, e, he, hec, hea⟩ := hok.answered r hr
      have hrk : r.acceptor = k := hanswer r (by simp [State.answer, hc, hr])
      rw [hrk] at he
      obtain rfl := some.inj (hd.symm.trans he)
      refine ⟨c, mem_of_getElem? hc, hec.symm, ?_⟩
      rw [hr, ← hrk]
      exact congrArg₂ (fun n a => some (Answer.mk r.acceptor n a)) hnext (hea hst)
  | clientReset =>
    have hflags := h.clientResets m (mem_of_getElem? hm)
    rw [hflags] at hrst
    cases hrst
  | acceptor id => cases hsrc
  | serverReset => cases hsrc

lemma inv_receive (h : Inv s) (hg : AckGenuine s (.deliver src i o1 o2))
    (hsrc : src.toServer) (hm : s.sent src i = some m) (hroute : s.route m.1 = some (k, d)) :
    Inv { s with acceptors := s.acceptors.set k (d.receive m.2 o1 o2) } := by
  obtain ⟨hd, _⟩ := lookup_some hroute
  have hok := h.acceptors d (mem_of_getElem? hd)
  have hsyn := (emits_processInSegment d.session (segment m.2) o1 o2).forall hok.syn
  by_cases hst : d.session.state = .synReceived
  · rcases synReceived_spec hst (segment m.2) o1 o2 with ⟨hmatch, hack, hest⟩ | hsame
    · have hagrees := agrees_of_genuine h hg hsrc hm hroute hst hmatch hack
      exact h.setAcceptor hd rfl
        ⟨hsyn, fun hrec => absurd hrec (connected_of_established hest).2,
          (connected_of_established hest).1⟩ (fun _ => hst)
        fun _ => .inr hagrees
    · have hd' : d.receive m.2 o1 o2 = d := by
        rw [Descriptor.receive, hsame]
      rw [hd']
      exact h.setAcceptor hd rfl hok id Or.inl
  · have hc : Connected d.session := ⟨hok.connecting, hst⟩
    have hc' := connected_processInSegment hc (segment m.2) o1 o2
    exact h.setAcceptor hd rfl ⟨hsyn, fun hrec => absurd hrec hc'.2, hc'.1⟩
      (fun hrec => absurd hrec hc'.2)
      fun hest => .inl (established_of_connected hc _ o1 o2 hest)

lemma inv_accept (h : Inv s) {conn : Conn} {seq : Word} {o : Outcome} (ho : o.allocated)
    (hseq : seq = 0) : Inv { s with acceptors := s.acceptors ++
      [{ conn, session := createTcpClientAcceptor seq o }] } := by
  subst hseq
  have hsession : createTcpClientAcceptor 0 o =
      ⟨.synReceived, 1, 1, [], [], [⟨0, 1, { syn := true, ack := true }, []⟩]⟩ := by
    simp [createTcpClientAcceptor, sendSynAck, send, ho]
  rw [hsession]
  refine
    { clients := fun c hc => (h.clients c hc).later (later_append _ _)
      acceptors := fun d hd => ?_
      agreement := fun k d hd hest => ?_
      clientResets := h.clientResets
      serverResets := h.serverResets }
  · rcases mem_append.1 hd with hd | hd
    · exact h.acceptors d hd
    obtain rfl := mem_singleton.1 hd
    refine ⟨fun t ht => ?_, fun _ => ⟨rfl, rfl⟩, by simp⟩
    obtain rfl := mem_singleton.1 ht
    exact fun _ => rfl
  · by_cases hlt : k < s.acceptors.length
    · exact h.agreement k d (by rwa [getElem?_append_left hlt] at hd) hest
    · rw [getElem?_append_right (by omega)] at hd
      obtain rfl := mem_singleton.1 (mem_of_getElem? hd)
      cases hest

lemma inv_toServer (h : Inv s) (hg : Guard s (.deliver src i o1 o2)) (hsrc : src.toServer)
    (hm : s.sent src i = some m) : Inv (s.toServer port m.1 m.2 o1 o2) := by
  unfold State.toServer
  split
  · next k d hroute => exact inv_receive h hg.1 hsrc hm hroute
  next hroute =>
  split_ifs with hport hflags
  · have hseq : m.2.seq = 0 := by
      cases src with
      | client id =>
        obtain ⟨c, hc, _, ht⟩ := sent_client hm
        exact (h.clients c (mem_of_getElem? hc)).syn m.2 ht (by rw [hflags])
      | clientReset =>
        have hreset := h.clientResets m (mem_of_getElem? hm)
        rw [hflags] at hreset
        cases hreset
      | acceptor id => cases hsrc
      | serverReset => cases hsrc
    exact inv_accept h (hg.2 hsrc m hm hroute hflags) hseq
  · exact h
  · refine ⟨h.clients, h.acceptors, h.agreement, h.clientResets, fun x hx => ?_⟩
    rcases mem_append.1 hx with hx | hx
    · exact h.serverResets x hx
    · exact reset_flags hx

def SenderOk (s : State) (sender : Option (ℕ × Descriptor)) (m : Conn × Transmitted) : Prop :=
  m.2.flags.syn = true → ∃ k d, sender = some (k, d) ∧ s.acceptors[k]? = some d ∧ d.conn = m.1 ∧
    m.2.seq = 0

/-- A client is answered at most once, by an acceptor of its own connection. -/
lemma clientOk_receive (h : Inv s) (hs : SenderOk s sender m)
    (hok : ClientOk s.acceptors c) (hconn : c.conn = m.1) (o1 o2 : Outcome) :
    ClientOk s.acceptors (c.receive sender m.2 o1 o2) ∧
      ∀ r, c.answered = some r → (c.receive sender m.2 o1 o2).answered = some r := by
  have hsyn := (emits_processInSegment c.session (segment m.2) o1 o2).forall hok.syn
  cases hr : c.answered with
  | some r =>
    obtain ⟨hc, hrest⟩ := hok.answered r hr
    have hsame : (c.receive sender m.2 o1 o2).answered = some r := by
      rw [Client.receive, if_neg fun hx => hc.1 hx.1, hr]
    refine ⟨⟨hsyn, fun hn => absurd (hsame.symm.trans hn) nofun, fun r' hr' => ?_⟩,
      fun r' hr' => by rw [hsame, hr']⟩
    obtain rfl := some.inj (hsame.symm.trans hr')
    exact ⟨connected_processInSegment hc _ o1 o2, hrest⟩
  | none =>
    refine ⟨?_, nofun⟩
    rcases (hok.unanswered hr).segment (segment m.2) o1 o2 with ⟨hst, hflag, hest, hnext⟩ | hu
    · obtain ⟨k, d, rfl, hd, hdc, hseq⟩ := hs hflag
      have hans : (c.receive (some (k, d)) m.2 o1 o2).answered =
          some ⟨k, m.2.seq + 1, d.session.receiveNextAck⟩ := by
        rw [Client.receive, if_pos ⟨hst, hest⟩]
        exact congrArg (fun n => some (Answer.mk k n d.session.receiveNextAck)) hnext
      refine ⟨hsyn, fun hn => absurd (hans.symm.trans hn) nofun, fun r' hr' => ?_⟩
      obtain rfl := some.inj (hans.symm.trans hr')
      have hacc := (h.acceptors d (mem_of_getElem? hd)).accepting
      exact ⟨connected_of_established hest, by rw [hseq]; rfl, d, hd, hdc.trans hconn.symm,
        fun hrec => (hacc hrec).2⟩
    · have hans : (c.receive sender m.2 o1 o2).answered = none := by
        rw [Client.receive, if_neg fun hx => absurd hx.2 (by simp [Descriptor.receive,
          hu.established]), hr]
      exact ⟨hsyn, fun _ => hu, fun r' hr' => absurd (hans.symm.trans hr') nofun⟩

lemma inv_toClient (h : Inv s) (hs : SenderOk s sender m)
    (o1 o2 : Outcome) : Inv (s.toClient sender m.1 m.2 o1 o2) := by
  unfold State.toClient
  split
  · next k c hlook =>
    obtain ⟨hc, hhas⟩ := lookup_some hlook
    have hconn : c.conn = m.1 := by
      simpa using (Bool.and_eq_true_iff.1 hhas).2
    obtain ⟨hok, hans⟩ :=
      clientOk_receive h hs (h.clients c (mem_of_getElem? hc)) hconn o1 o2
    exact h.setClient hc rfl hok hans
  · refine ⟨h.clients, h.acceptors, h.agreement, fun x hx => ?_, h.serverResets⟩
    rcases mem_append.1 hx with hx | hx
    · exact h.clientResets x hx
    · exact reset_flags hx

lemma inv_deliver (h : Inv s) (hg : Guard s (.deliver src i o1 o2)) (hm : s.sent src i = some m) :
    Inv (s.deliver port src m o1 o2) := by
  cases src with
  | client id => exact inv_toServer h hg rfl hm
  | clientReset => exact inv_toServer h hg rfl hm
  | acceptor id =>
    obtain ⟨d, hd, hm⟩ := bind_eq_some_iff.1 hm
    obtain ⟨t, ht, rfl⟩ := map_eq_some_iff.1 hm
    have hok := h.acceptors d (mem_of_getElem? hd)
    exact inv_toClient h (fun hflag => ⟨id, d, by rw [hd]; rfl, hd, rfl,
      hok.syn t (mem_of_getElem? ht) hflag⟩) o1 o2
  | serverReset =>
    refine inv_toClient h (fun hflag => ?_) o1 o2
    rw [h.serverResets m (mem_of_getElem? hm)] at hflag
    cases hflag

lemma inv_connect (h : Inv s) {conn : Conn} (hs : s.connect conn o = some s') : Inv s' := by
  unfold State.connect at hs
  split_ifs at hs
  cases hs
  have hsent : ∀ t ∈ (createTcpClient o).transmitted, t.seq = 0 ∧ t.ackSeq = 0 := by
    intro t ht
    simp only [createTcpClient, sendSyn, send] at ht
    cases ho : o.allocated with
    | true =>
      rw [ho] at ht
      obtain rfl := mem_singleton.1 ht
      exact ⟨rfl, rfl⟩
    | false =>
      rw [ho] at ht
      cases ht
  have hstate : (createTcpClient o).state = .synSent := rfl
  have hnext : (createTcpClient o).receiveNextAck = 0 :=
    (sameInput_send (mk .closed 0 0 [] [] []) _ _ o).receiveNextAck
  refine ⟨fun c hc => ?_, h.acceptors, fun k d hd hest => ?_, h.clientResets, h.serverResets⟩
  · rcases mem_append.1 hc with hc | hc
    · exact h.clients c hc
    · obtain rfl := mem_singleton.1 hc
      exact ⟨fun t ht _ => (hsent t ht).1,
        fun _ => ⟨hnext, rfl, by simp [hstate], fun t ht _ _ => (hsent t ht).2⟩, by simp⟩
  · obtain ⟨c, hc, hagrees⟩ := h.agreement k d hd hest
    exact ⟨c, mem_append_left _ hc, hagrees⟩

lemma inv_step {ev : Event} (h : Inv s) (hg : Guard s ev)
    (hs : step port s ev = some s') : Inv s' := by
  cases ev with
  | connect conn o => exact inv_connect h hs
  | client id action =>
    obtain ⟨c, hc, hs⟩ := bind_eq_some_iff.1 hs
    obtain ⟨d, hd, rfl⟩ := map_eq_some_iff.1 hs
    have hok := h.clients c (mem_of_getElem? hc)
    have hact := act_spec hd
    refine h.setClient hc hact.conn ?_ fun _ hr => hr
    exact
      { syn := hact.emits.forall hok.syn
        unanswered := fun hn => hact.unanswered (hok.unanswered hn)
        answered := fun r hr => by
          obtain ⟨hcon, hnext, e, he, hconn, hst⟩ := hok.answered r hr
          exact ⟨hact.connected hcon, hnext, e, he, hconn.trans hact.conn.symm, hst⟩ }
  | acceptor id action =>
    obtain ⟨d, hd, hs⟩ := bind_eq_some_iff.1 hs
    obtain ⟨d', hd', rfl⟩ := map_eq_some_iff.1 hs
    have hok := h.acceptors d (mem_of_getElem? hd)
    have hact := act_spec hd'
    refine h.setAcceptor hd hact.conn ?_ (fun hrec => hact.accepting hrec ▸ hrec)
      fun hest => .inl (hact.established hest)
    exact
      { syn := hact.emits.forall hok.syn
        accepting := fun hrec => by
          have hsame := hact.accepting hrec
          rw [hsame] at hrec ⊢
          exact hok.accepting hrec
        connecting := fun hsent => hok.connecting (hact.connecting hsent) }
  | deliver src i o1 o2 =>
    obtain ⟨m, hm, rfl⟩ := map_eq_some_iff.1 hs
    exact inv_deliver h hg hm

lemma inv_start : Inv {} where
  clients := by simp
  acceptors := by simp
  agreement := by simp [Agreement]
  clientResets := by simp
  serverResets := by simp

/-- In every run in which handshakes are completed by genuine segments, the two
ends agree. -/
theorem handshake_agreement (port : UInt16) (events : List Event)
    (h : Meets (step port) Guard {} events) : Always (step port) Agreement {} events := by
  have hinv : Always (step port) Inv {} events :=
    always_of_meets (fun _ _ _ hi hg hs => inv_step hi hg hs) inv_start h
  exact hinv.mono fun _ hi => hi.agreement

def conn : Conn := ⟨10000, 80⟩

def threeWay : List Event :=
  [.connect conn {}, .deliver (.client 0) 0 {} {}, .deliver (.acceptor 0) 0 {} {},
    .deliver (.client 0) 1 {} {}]

theorem handshake_agreement_three_way :
    Always (step 80) Agreement {} threeWay ∧
      ((exec (step 80) {} threeWay).map fun s => s.acceptors.map fun d => d.session.state) =
        some [.established false] :=
  ⟨handshake_agreement 80 threeWay (meets_of_check (by decide +kernel)), by decide +kernel⟩

def lateSyn : List Event :=
  threeWay ++
    [.client 0 (.close {}), .deliver (.client 0) 2 {} {}, .deliver (.acceptor 0) 1 {} {},
      .client 0 .closeReturns, .deliver (.acceptor 0) 1 {} {}, .deliver .clientReset 0 {} {},
      .acceptor 0 (.close {}), .deliver (.client 0) 0 {} {}, .deliver (.acceptor 1) 0 {} {},
      .deliver .clientReset 1 {} {}]

/-- The new acceptor is established by the reset that answers its SYN/ACK; the
only client there ever was answered the first acceptor. -/
theorem established_by_reset :
    ∃ s, exec (step 80) {} lateSyn = some s ∧
      (s.clients.map fun c => (c.registered, c.answered)) = [(false, some ⟨0, 1, 1⟩)] ∧
      ¬ Agreement s := by
  refine ⟨_, rfl, by decide +kernel, fun h => ?_⟩
  obtain ⟨c, hc, hagrees⟩ := h 1 _ rfl rfl
  obtain rfl := mem_singleton.1 hc
  exact absurd hagrees.2 (by decide +kernel)

end GzOS.Tcp.Handshake
