import GzOS.NetBuffers
import Mathlib.Order.Interval.Multiset

/-!
# Who owns a network buffer

After a frame is handled every buffer should be freed or stored once. All paths keep to
that but three: `arp_handler` does not free a request that was answered, and neither
`udp_input` nor `ip_input` looks at a queue that refuses the packet or its clone.
-/
namespace GzOS.Net
open Option
open Tcp.Input (BasicQueue)

def ArpContext.buffers (c : ArpContext) : Multiset ℕ := {c.buffer, c.callbackContext, c.packet}

def queued (queues : List (BasicQueue ℕ)) : Multiset ℕ :=
  (queues.map fun q => (q.data : Multiset ℕ)).sum

variable {f : Frame} {sockets : List (BasicQueue ℕ)} {x : ℕ}

namespace World

def accounted (w : World) : Multiset ℕ :=
  (w.freed : Multiset ℕ) + w.txQueue.data + w.inSegments.data +
    queued (w.udpSessions.map UdpSession.rxQueue) + queued w.rawSockets +
    (w.pending.map ArpContext.buffers).sum

/-- The buffers `taken` are handed over, and of these and the new ones all but `held` are
accounted for. -/
structure Moves (w w' : World) (taken held : Multiset ℕ) : Prop where
  next_le : w.next ≤ w'.next
  balance : w'.accounted + held = w.accounted + taken + Multiset.Ico w.next w'.next

section Rules
variable {w w1 w2 w' : World} {taken held taken1 held1 taken2 held2 : Multiset ℕ} {b : ℕ}

lemma moves_of_eq (hnext : w'.next = w.next) (hacc : w'.accounted = w.accounted + taken) :
    Moves w w' taken 0 := by
  refine ⟨hnext.ge, ?_⟩
  rw [hnext, Multiset.Ico_self, add_zero, add_zero]
  exact hacc

lemma moves_refl (w : World) : Moves w w 0 0 := moves_of_eq rfl (add_zero _).symm

lemma Moves.trans (h1 : Moves w w1 taken1 held1) (h2 : Moves w1 w2 taken2 held2) :
    Moves w w2 (taken1 + taken2) (held1 + held2) := by
  refine ⟨h1.next_le.trans h2.next_le, ?_⟩
  rw [← Multiset.Ico_add_Ico_eq_Ico h1.next_le h2.next_le]
  calc
    w2.accounted + (held1 + held2) = (w2.accounted + held2) + held1 := by
      rw [add_comm held1, add_assoc]
    _ = (w1.accounted + held1) + taken2 + Multiset.Ico w1.next w2.next := by
      rw [h2.balance, add_right_comm, add_right_comm w1.accounted]
    _ = _ := by
      rw [h1.balance]
      simp [add_assoc, add_left_comm]

lemma Moves.chain (h1 : Moves w w1 taken1 held) (h2 : Moves w1 w2 (taken2 + held) 0) :
    Moves w w2 (taken1 + taken2) 0 := by
  obtain ⟨hle, hbalance⟩ := h1.trans h2
  refine ⟨hle, add_right_cancel (b := held) ?_⟩
  rw [add_zero] at hbalance
  rw [add_zero, hbalance]
  simp only [add_assoc, add_left_comm, add_comm]

end Rules

/-! ### Sending -/

lemma moves_nbufFree (w : World) (b : ℕ) : Moves w (w.nbufFree b) {b} 0 := by
  refine moves_of_eq rfl ?_
  have hfreed : ((b :: w.freed : List ℕ) : Multiset ℕ) = (w.freed : Multiset ℕ) + {b} := by
    rw [← Multiset.cons_coe, ← Multiset.singleton_add, add_comm]
  simp only [accounted, nbufFree, hfreed]
  simp only [add_right_comm _ ({b} : Multiset ℕ)]

variable {w w' : World} {b : ℕ} {q : BasicQueue ℕ}

lemma nbufAlloc_some (h : w.nbufAlloc = (some b, w')) :
    b = w.next ∧ ∃ grants, w.grants = true :: grants ∧
      w' = { w with next := w.next + 1, grants := grants } := by
  unfold nbufAlloc at h
  split at h
  · cases h
  · next grants hgrants =>
    cases h
    exact ⟨rfl, grants, hgrants, rfl⟩
  · cases h

lemma nbufAlloc_none (h : w.nbufAlloc = (none, w')) : w.grants.head? ≠ some true := by
  unfold nbufAlloc at h
  split at h
  · next hgrants => simp [hgrants]
  · cases h
  · next grants hgrants => simp [hgrants]

lemma moves_nbufAlloc (w : World) :
    Moves w w.nbufAlloc.2 0 (match w.nbufAlloc.1 with
      | none => 0
      | some b => {b}) := by
  unfold nbufAlloc
  split
  · exact moves_refl w
  · refine ⟨Nat.le_succ _, ?_⟩
    have hnew : Multiset.Ico w.next (w.next + 1) = {w.next} := by simp [Multiset.Ico]
    simp only [hnew, add_zero]
    rfl
  · exact moves_of_eq rfl (add_zero _).symm

lemma moves_alloc_none (h : w.nbufAlloc = (none, w')) : Moves w w' 0 0 := by
  have := moves_nbufAlloc w
  rw [h] at this
  exact this

lemma moves_alloc_some (h : w.nbufAlloc = (some b, w')) : Moves w w' 0 {b} := by
  have := moves_nbufAlloc w
  rw [h] at this
  exact this

lemma push_taken (h : ¬ q.full) (b : ℕ) :
    ∃ q', q.push b = (q', none) ∧ (q'.data : Multiset ℕ) = (q.data : Multiset ℕ) + {b} := by
  obtain ⟨hnone, hdata⟩ := BasicQueue.push_of_not_full h b
  exact ⟨(q.push b).1, Prod.ext rfl hnone, by
    rw [hdata, ← Multiset.coe_add, Multiset.coe_singleton]⟩

lemma moves_ethernetSendPacket (w : World) (b : ℕ) : Moves w (w.ethernetSendPacket b) {b} 0 := by
  unfold ethernetSendPacket
  by_cases hfull : w.txQueue.full
  · rw [BasicQueue.push_of_full hfull]
    exact moves_nbufFree w b
  obtain ⟨txQueue, hpush, hdata⟩ := push_taken hfull b
  rw [hpush]
  refine moves_of_eq rfl ?_
  simp only [accounted, hdata]
  simp only [← add_assoc, add_right_comm _ ({b} : Multiset ℕ)]

lemma moves_alloc_send {w1 : World} (h : w.nbufAlloc = (some b, w1)) :
    Moves w (w1.ethernetSendPacket b) 0 0 := by
  have hsend : Moves w1 (w1.ethernetSendPacket b) (0 + {b}) 0 := by
    simpa using moves_ethernetSendPacket w1 b
  simpa using (moves_alloc_some h).chain hsend

lemma moves_arpSendRequest (w : World) (ip : ℕ) : Moves w (w.arpSendRequest ip).2 0 0 := by
  unfold arpSendRequest
  split
  · exact moves_refl w
  split
  · exact moves_refl w
  · rcases halloc : w.nbufAlloc with ⟨_ | b, w1⟩
    · exact moves_alloc_none halloc
    · exact moves_alloc_send halloc

lemma moves_arpResolveCb (w : World) (ip context packet : ℕ) :
    Moves w (w.arpResolveCb ip context packet) ({packet} + {context}) 0 := by
  unfold arpResolveCb
  split
  · exact (moves_ethernetSendPacket w packet).trans (moves_nbufFree _ context)
  · exact (moves_nbufFree w packet).trans (moves_nbufFree _ context)

lemma moves_arpResolve (w : World) (ip context packet : ℕ) :
    Moves w (w.arpResolve ip context packet).2
      (bif (w.arpResolve ip context packet).1 then {packet} + {context} else 0) 0 := by
  unfold arpResolve
  split
  · exact moves_arpResolveCb w ip context packet
  rcases halloc : w.nbufAlloc with ⟨_ | b, w1⟩
  · exact moves_alloc_none halloc
  · have hheld : Moves w (w1.arpSendRequest ip).2 0 {b} := by
      simpa using (moves_alloc_some halloc).trans (moves_arpSendRequest w1 ip)
    dsimp only
    rcases hsent : w1.arpSendRequest ip with ⟨_ | _, w2⟩
    · rw [hsent] at hheld
      have hfree : Moves w2 (w2.nbufFree b) (0 + {b}) 0 := by simpa using moves_nbufFree w2 b
      exact hheld.chain hfree
    · rw [hsent] at hheld
      have hpending : Moves w2 { w2 with pending := w2.pending ++ [⟨b, context, packet⟩] }
          ({packet} + {context} + {b}) 0 := by
        refine moves_of_eq rfl ?_
        have hbuffers : ArpContext.buffers ⟨b, context, packet⟩ = {packet} + {context} + {b} := by
          simp only [ArpContext.buffers, Multiset.insert_eq_cons, ← Multiset.singleton_add]
          simp only [add_comm]
        simp [accounted, hbuffers, add_assoc]
      simpa using hheld.chain hpending

lemma moves_ipOutput (w : World) (ip packet : ℕ) : Moves w (w.ipOutput ip packet) {packet} 0 := by
  unfold ipOutput
  rcases halloc : w.nbufAlloc with ⟨_ | context, w1⟩
  · simpa using (moves_alloc_none halloc).trans (moves_nbufFree w1 packet)
  have hresolve := moves_arpResolve w1 ip context packet
  dsimp only
  rcases hr : w1.arpResolve ip context packet with ⟨_ | _, w2⟩
  · rw [hr] at hresolve
    have hfree := (moves_nbufFree w2 packet).trans (moves_nbufFree _ context)
    have hrest : Moves w1 ((w2.nbufFree packet).nbufFree context) ({packet} + {context}) 0 := by
      simpa using hresolve.trans hfree
    simpa using (moves_alloc_some halloc).chain hrest
  · rw [hr] at hresolve
    simpa using (moves_alloc_some halloc).chain hresolve

lemma moves_icmpReject (w : World) (ip : ℕ) : Moves w (w.icmpReject ip) 0 0 := by
  unfold icmpReject
  split
  · exact moves_refl w
  rcases halloc : w.nbufAlloc with ⟨_ | output, w1⟩
  · exact moves_alloc_none halloc
  · have houtput : Moves w1 (w1.ipOutput ip output) (0 + {output}) 0 := by
      simpa using moves_ipOutput w1 ip output
    exact (moves_alloc_some halloc).chain houtput

/-! ### The protocols -/

lemma moves_icmpInput (w : World) (f : Frame) (b : ℕ) : Moves w (w.icmpInput f b) {b} 0 := by
  unfold icmpInput
  split
  · exact moves_nbufFree w b
  · split
    · exact moves_ipOutput w f.saddr b
    · exact moves_nbufFree w b

lemma tcpInput_run (w : World) (b : ℕ) (hf : l4Offset ≤ f.size) :
    w.tcpInput f b = some (if Validated f (tcpValidation f) then match w.inSegments.push b with
      | (inSegments, none) => { w with inSegments := inSegments }
      | (_, some b) => w.nbufFree b
    else w.nbufFree b) := by
  have hfixed : l4Offset + sizeofTcp < packetSize := by decide
  have hrun : tcpValidatePacket f [] = _ := yields_validatePacket hf hfixed []
  unfold tcpInput
  rw [hrun]
  by_cases h : Validated f (tcpValidation f)
  · simp only [h]
    rcases w.inSegments.push b with ⟨q, _ | _⟩
    · rfl
    · rfl
  · simp only [h]
    rfl

lemma moves_tcpInput (hf : l4Offset ≤ f.size)
    (h : w.tcpInput f b = some w') : Moves w w' {b} 0 := by
  rw [tcpInput_run w b hf] at h
  cases h
  split
  · by_cases hfull : w.inSegments.full
    · rw [BasicQueue.push_of_full hfull]
      exact moves_nbufFree w b
    obtain ⟨inSegments, hpush, hdata⟩ := push_taken hfull b
    rw [hpush]
    refine moves_of_eq rfl ?_
    simp only [accounted, hdata]
    simp only [← add_assoc, add_right_comm _ ({b} : Multiset ℕ)]
  · exact moves_nbufFree w b

/-- What a push that nobody looks at loses. -/
def refusedBy (q : BasicQueue ℕ) (b : ℕ) : Multiset ℕ := if q.full then {b} else 0

lemma push_data (q : BasicQueue ℕ) (b : ℕ) :
    ((q.push b).1.data : Multiset ℕ) + refusedBy q b = (q.data : Multiset ℕ) + {b} := by
  unfold refusedBy
  by_cases hfull : q.full
  · rw [BasicQueue.push_of_full hfull, if_pos hfull]
  · obtain ⟨q', hpush, hdata⟩ := push_taken hfull b
    rw [hpush, hdata, if_neg hfull, add_zero]

lemma refusedBy_eq_zero : refusedBy q b = 0 ↔ ¬ q.full := by
  unfold refusedBy
  by_cases hfull : q.full
  · simp [hfull]
  · simp [hfull]

lemma queued_pushToPort {sessions : List UdpSession} {session : UdpSession} {port : ℕ} (b : ℕ)
    (h : sessions.find? (fun s => s.port == port) = some session) :
    queued ((pushToPort port b sessions).map UdpSession.rxQueue) + refusedBy session.rxQueue b =
      queued (sessions.map UdpSession.rxQueue) + {b} := by
  induction sessions with
  | nil => simp at h
  | cons first rest ih =>
    by_cases hport : (first.port == port)
    · rw [List.find?_cons_of_pos (by exact hport)] at h
      cases h
      have hpush := push_data session.rxQueue b
      rw [pushToPort, if_pos hport]
      simp only [queued, List.map_cons, List.sum_cons]
      rw [add_right_comm, hpush, add_right_comm]
    · rw [List.find?_cons_of_neg (by exact hport)] at h
      have hrest := ih h
      rw [pushToPort, if_neg hport]
      simp only [queued, List.map_cons, List.sum_cons] at hrest ⊢
      rw [add_assoc, hrest, add_assoc]

lemma replace_summand {a u u' r p lost new : Multiset ℕ} (h : u' + lost = u + new) :
    a + u' + r + p + lost = a + u + r + p + new := by
  calc
    a + u' + r + p + lost = a + (u' + lost) + r + p := by abel
    _ = a + (u + new) + r + p := by rw [h]
    _ = a + u + r + p + new := by abel

def udpRefused (w : World) (f : Frame) (b : ℕ) : Multiset ℕ :=
  if Validated f (udpValidation f) then
    match w.getUdpDescriptorByPort (udpPort f) with
    | none => 0
    | some session => refusedBy session.rxQueue b
  else 0

lemma moves_udpInput (hf : l4Offset ≤ f.size)
    (h : w.udpInput f b = some w') : Moves w w' {b} (w.udpRefused f b) := by
  have hfixed : l4Offset + sizeofUdp < packetSize := by decide
  have hrun : udpValidatePacket f [] = _ := yields_validatePacket hf hfixed []
  unfold udpInput at h
  rw [hrun] at h
  unfold udpRefused
  by_cases hvalid : Validated f (udpValidation f)
  · simp only [hvalid] at h
    rw [if_pos hvalid]
    cases hsession : w.getUdpDescriptorByPort (udpPort f) with
    | none =>
      rw [hsession] at h
      cases h
      simpa using (moves_icmpReject w f.saddr).trans (moves_nbufFree _ b)
    | some session =>
      rw [hsession] at h
      cases h
      refine ⟨le_rfl, ?_⟩
      have hqueued := queued_pushToPort b hsession
      rw [Multiset.Ico_self, add_zero]
      exact replace_summand hqueued
  · simp only [hvalid] at h
    rw [if_neg hvalid]
    cases h
    exact moves_nbufFree w b

/-! ### The clones for the raw sockets -/

def clonesRefused : List (BasicQueue ℕ) → ℕ → Multiset ℕ
  | [], _ => 0
  | socket :: rest, next => refusedBy socket next + clonesRefused rest (next + 1)

lemma clonesRefused_eq_zero {next : ℕ} :
    clonesRefused sockets next = 0 ↔ ∀ q ∈ sockets, ¬ q.full := by
  induction sockets generalizing next with
  | nil => simp [clonesRefused]
  | cons socket rest ih =>
    rw [clonesRefused, add_eq_zero, refusedBy_eq_zero, ih, List.forall_mem_cons]

structure Cloned (w w' : World) (sockets sockets' : List (BasicQueue ℕ)) : Prop where
  same : ∃ next grants, w' = { w with next := next, grants := grants }
  next_le : w.next ≤ w'.next
  balance : queued sockets' + clonesRefused sockets w.next =
    queued sockets + Multiset.Ico w.next w'.next

lemma pushClones_spec {sockets' : List (BasicQueue ℕ)}
    (h : pushClones f sockets w = some (sockets', w')) : Cloned w w' sockets sockets' := by
  induction sockets generalizing w sockets' with
  | nil =>
    cases h
    exact ⟨⟨_, _, rfl⟩, le_rfl, by simp [clonesRefused]⟩
  | cons socket rest ih =>
    rw [pushClones] at h
    rcases halloc : w.nbufAlloc with ⟨_ | clone, w1⟩
    · rw [halloc] at h
      cases h
    rw [halloc] at h
    dsimp only at h
    split at h
    · obtain ⟨⟨sockets2, w2⟩, hrest, hdone⟩ := bind_eq_some_iff.1 h
      cases hdone
      obtain ⟨rfl, grants1, -, rfl⟩ := nbufAlloc_some halloc
      obtain ⟨⟨next, grants, hsame⟩, hle, hbalance⟩ := ih hrest
      refine ⟨⟨next, grants, hsame⟩, (Nat.le_succ _).trans hle, ?_⟩
      have hnew : Multiset.Ico w.next (w.next + 1) = {w.next} := by simp [Multiset.Ico]
      have hpush := push_data socket w.next
      rw [clonesRefused, ← Multiset.Ico_add_Ico_eq_Ico (Nat.le_succ w.next) hle, hnew]
      simp only [queued, List.map_cons, List.sum_cons] at hbalance ⊢
      calc
        _ = (((socket.push w.next).1.data : Multiset ℕ) + refusedBy socket w.next) +
            ((sockets2.map fun q => (q.data : Multiset ℕ)).sum +
              clonesRefused rest (w.next + 1)) := by abel
        _ = _ := by
          rw [hpush, hbalance]
          abel
    · cases h

/-- Clones, and the packet if its session refuses it. -/
def ipRefused (w : World) (f : Frame) (b : ℕ) : Multiset ℕ :=
  if HeaderAccepted f then
    clonesRefused w.rawSockets w.next +
      if ipDispatch f w.interface = some .udp then w.udpRefused f b else 0
  else 0

lemma arpSetEntry_eq (w : World) (ip : ℕ) :
    ∃ cache, w.arpSetEntry ip = { w with arpCache := cache } := by
  unfold arpSetEntry
  split
  · exact ⟨w.arpCache, rfl⟩
  · exact ⟨ip :: w.arpCache, rfl⟩

lemma moves_arpSetEntry (w : World) (ip : ℕ) : Moves w (w.arpSetEntry ip) 0 0 := by
  obtain ⟨cache, hcache⟩ := arpSetEntry_eq w ip
  rw [hcache]
  exact moves_of_eq rfl (add_zero _).symm

lemma moves_clones (h : Cloned w w' w.rawSockets sockets) :
    Moves w { w' with rawSockets := sockets } 0 (clonesRefused w.rawSockets w.next) := by
  obtain ⟨⟨next, grants, rfl⟩, hle, hbalance⟩ := h
  refine ⟨hle, ?_⟩
  simp only [accounted]
  calc
    _ = (w.freed : Multiset ℕ) + w.txQueue.data + w.inSegments.data +
        queued (w.udpSessions.map UdpSession.rxQueue) +
        (queued sockets + clonesRefused w.rawSockets w.next) +
        (w.pending.map ArpContext.buffers).sum := by abel
    _ = _ := by
      rw [hbalance]
      abel

lemma moves_ipInput (h : w.ipInput f b = some w') : Moves w w' {b} (w.ipRefused f b) := by
  unfold ipInput at h
  rw [yields_ipAccepts f []] at h
  unfold ipRefused
  by_cases haccepted : HeaderAccepted f
  · have hl4 : l4Offset ≤ f.size := haccepted.1.1
    simp only [haccepted, bind_eq_bind, bind_some] at h
    rw [if_pos haccepted]
    obtain ⟨⟨sockets, w1⟩, hclones, hrest⟩ := bind_eq_some_iff.1 h
    obtain ⟨cache, hcache⟩ := arpSetEntry_eq w f.saddr
    have hhint := moves_arpSetEntry w f.saddr
    have hspec := pushClones_spec hclones
    rw [hcache] at hhint hspec
    have hcloned := hhint.trans (moves_clones hspec)
    obtain ⟨next, grants, rfl⟩ := hspec.same
    simp only [zero_add] at hcloned
    cases hd : ipDispatch f w.interface with
    | none =>
      simp only [hd] at hrest
      cases hrest
      simpa using hcloned.trans (moves_nbufFree _ b)
    | some protocol =>
      simp only [hd] at hrest
      cases protocol with
      | icmp =>
        cases hrest
        simpa using hcloned.trans (moves_icmpInput _ f b)
      | tcp => simpa using hcloned.trans (moves_tcpInput hl4 hrest)
      | udp =>
        have htotal := hcloned.trans (moves_udpInput hl4 hrest)
        exact htotal
  · simp only [haccepted] at h
    rw [if_neg haccepted]
    cases h
    exact moves_nbufFree w b

def ArpReplied (w : World) (f : Frame) : Prop :=
  sizeofArp ≤ f.size - l3Offset ∧ arpIsValid f = true ∧ arpOperation f = 1 ∧
    arpTargetIp f ∈ w.arpCache ∧ w.grants.head? = some true

instance (w : World) (f : Frame) : Decidable (w.ArpReplied f) :=
  inferInstanceAs (Decidable (_ ∧ _ ∧ _ ∧ _ ∧ _))

lemma moves_arpHandler (w : World) (f : Frame) (b : ℕ) :
    Moves w (w.arpHandler f b) {b} (if w.ArpReplied f then {b} else 0) := by
  unfold arpHandler
  by_cases hsize : f.size - l3Offset < sizeofArp
  · rw [if_pos hsize, if_neg (fun h => absurd h.1 (by omega))]
    exact moves_nbufFree w b
  rw [if_neg hsize]
  by_cases hvalid : arpIsValid f = false
  · rw [if_pos hvalid, if_neg (fun h => absurd h.2.1 (by simp [hvalid]))]
    exact moves_nbufFree w b
  · rw [if_neg hvalid]
    by_cases hrequest : arpOperation f = 1
    · rw [if_pos hrequest]
      unfold arpHandleRequest
      by_cases hcached : arpTargetIp f ∈ w.arpCache
      · rw [if_pos hcached]
        rcases halloc : w.nbufAlloc with ⟨_ | reply, w1⟩
        · rw [if_neg (fun h => nbufAlloc_none halloc h.2.2.2.2)]
          simpa using (moves_alloc_none halloc).trans (moves_nbufFree w1 b)
        · -- the reply is sent, the request is neither freed nor kept
          obtain ⟨-, grants, hgrants, -⟩ := nbufAlloc_some halloc
          have hreplied : w.ArpReplied f :=
            ⟨by omega, by simpa using hvalid, hrequest, hcached, by simp [hgrants]⟩
          obtain ⟨hle, hbalance⟩ := moves_alloc_send halloc
          rw [if_pos hreplied]
          refine ⟨hle, ?_⟩
          rw [add_zero, add_zero] at hbalance
          rw [hbalance, add_right_comm]
      · rw [if_neg hcached, if_neg (fun h => hcached h.2.2.2.1)]
        exact moves_nbufFree w b
    · have htotal := (moves_arpSetEntry w (arpSenderIp f)).trans (moves_nbufFree _ b)
      rw [if_neg hrequest, if_neg (fun h => hrequest h.2.2.1)]
      exact htotal

def rxRefused (w : World) (f : Frame) (b : ℕ) : Multiset ℕ :=
  if w.addressed f = false then 0
  else if etherType f = 0x0806 then if w.ArpReplied f then {b} else 0
  else if etherType f = 0x0800 then w.ipRefused f b
  else 0

lemma moves_ethernetRx (h : w.ethernetRx f b = some w') : Moves w w' {b} (w.rxRefused f b) := by
  have hfree := moves_nbufFree w b
  unfold ethernetRx at h
  unfold rxRefused
  cases haddressed : w.addressed f with
  | false =>
    simp only [haddressed, Bool.false_eq_true, if_false, ite_self, some.injEq] at h
    subst h
    exact hfree
  | true =>
    simp only [haddressed] at h
    by_cases harp : etherType f = 0x0806
    · rw [if_pos harp] at h ⊢
      cases h
      exact moves_arpHandler w f b
    · rw [if_neg harp] at h ⊢
      by_cases hip : etherType f = 0x0800
      · rw [if_pos hip] at h ⊢
        exact moves_ipInput h
      · rw [if_neg hip] at h ⊢
        cases h
        exact hfree

/-- No queue is full, and no ARP reply is made. -/
structure NothingRefused (w : World) (f : Frame) : Prop where
  arp : w.addressed f = true → etherType f = 0x0806 → ¬ w.ArpReplied f
  raw : w.addressed f = true → etherType f = 0x0800 → HeaderAccepted f →
    ∀ q ∈ w.rawSockets, ¬ q.full
  udp : w.addressed f = true → etherType f = 0x0800 → HeaderAccepted f →
    ipDispatch f w.interface = some .udp → Validated f (udpValidation f) →
    ∀ session, w.getUdpDescriptorByPort (udpPort f) = some session → ¬ session.rxQueue.full

lemma udpRefused_eq_zero : w.udpRefused f b = 0 ↔ (Validated f (udpValidation f) →
      ∀ session, w.getUdpDescriptorByPort (udpPort f) = some session → ¬ session.rxQueue.full) := by
  unfold udpRefused
  by_cases hvalid : Validated f (udpValidation f)
  · cases hsession : w.getUdpDescriptorByPort (udpPort f) with
    | none => simp
    | some session => simp [refusedBy_eq_zero]
  · simp [hvalid]

lemma ipRefused_eq_zero : w.ipRefused f b = 0 ↔ (HeaderAccepted f → (∀ q ∈ w.rawSockets, ¬ q.full) ∧
      (ipDispatch f w.interface = some .udp → w.udpRefused f b = 0)) := by
  unfold ipRefused
  by_cases haccepted : HeaderAccepted f
  · rw [if_pos haccepted, add_eq_zero, clonesRefused_eq_zero]
    by_cases hudp : ipDispatch f w.interface = some .udp
    · simp [haccepted]
    · simp [haccepted]
  · simp [haccepted]

lemma rxRefused_eq_zero : w.rxRefused f b = 0 ↔ w.NothingRefused f := by
  unfold rxRefused
  cases haddressed : w.addressed f with
  | false =>
    simp only [if_true, true_iff]
    exact ⟨by simp [haddressed], by simp [haddressed], by simp [haddressed]⟩
  | true =>
    rw [if_neg (by decide)]
    by_cases harp : etherType f = 0x0806
    · rw [if_pos harp]
      have hip : etherType f ≠ 0x0800 := by omega
      constructor
      · intro hzero
        refine ⟨fun _ _ hreplied => ?_, fun _ h => absurd h hip, fun _ h => absurd h hip⟩
        rw [if_pos hreplied] at hzero
        simp at hzero
      · intro h
        rw [if_neg (h.arp haddressed harp)]
    · rw [if_neg harp]
      by_cases hip : etherType f = 0x0800
      · rw [if_pos hip, ipRefused_eq_zero]
        constructor
        · intro h
          exact ⟨fun _ h' => absurd h' harp, fun _ _ haccepted => (h haccepted).1,
            fun _ _ haccepted hd => udpRefused_eq_zero.1 ((h haccepted).2 hd)⟩
        · intro h haccepted
          exact ⟨h.raw haddressed hip haccepted,
            fun hd => udpRefused_eq_zero.2 (h.udp haddressed hip haccepted hd)⟩
      · rw [if_neg hip]
        simp only [true_iff]
        exact ⟨fun _ h => absurd h harp, fun _ h => absurd h hip, fun _ h => absurd h hip⟩

lemma mem_refusedBy (h : x ∈ refusedBy q b) : x = b := by
  unfold refusedBy at h
  split at h
  · exact Multiset.mem_singleton.1 h
  · simp at h

lemma le_of_mem_clonesRefused {next : ℕ} (h : x ∈ clonesRefused sockets next) : next ≤ x := by
  induction sockets generalizing next with
  | nil => simp [clonesRefused] at h
  | cons socket rest ih =>
    rcases Multiset.mem_add.1 h with hfirst | hrest
    · exact (mem_refusedBy hfirst).ge
    · exact (Nat.le_succ next).trans (ih hrest)

lemma mem_udpRefused (h : x ∈ w.udpRefused f b) : x = b := by
  unfold udpRefused at h
  split at h
  · split at h
    · simp at h
    · exact mem_refusedBy h
  · simp at h

lemma mem_rxRefused (h : x ∈ w.rxRefused f b) : x = b ∨ w.next ≤ x := by
  unfold rxRefused ipRefused at h
  split_ifs at h
  · simp at h
  · exact .inl (Multiset.mem_singleton.1 h)
  · simp at h
  · rcases Multiset.mem_add.1 h with hclone | hudp
    · exact .inr (le_of_mem_clonesRefused hclone)
    · exact .inl (mem_udpRefused hudp)
  · rcases Multiset.mem_add.1 h with hclone | hnone
    · exact .inr (le_of_mem_clonesRefused hclone)
    · simp at hnone
  · simp at h
  · simp at h

/-- Every buffer was freed once and is stored nowhere, or is stored once and was not freed.
-/
def Settled (w w' : World) (b : ℕ) : Prop :=
  ∀ x, (x = b ∨ (w.next ≤ x ∧ x < w'.next)) → w'.accounted.count x = 1

end World

open World Multiset

/-- Once the receive thread is done with a frame, no buffer is lost and none is
freed twice exactly if none of the three places loses one. The received buffer is
live, and numbers are not used again. -/
theorem ethernetRx_settled_iff (w w' : World) (f : Frame) (b : ℕ) (hb : b < w.next)
    (hlive : b ∉ w.accounted) (hold : ∀ x ∈ w.accounted, x < w.next)
    (h : w.ethernetRx f b = some w') : Settled w w' b ↔ w.NothingRefused f := by
  obtain ⟨hle, hbalance⟩ := moves_ethernetRx h
  rw [← rxRefused_eq_zero]
  have hcount : ∀ x, (x = b ∨ (w.next ≤ x ∧ x < w'.next)) →
      w'.accounted.count x + (w.rxRefused f b).count x = 1 := by
    intro x hx
    have hx' := congrArg (count x) hbalance
    rw [count_add, count_add, count_add] at hx'
    rw [hx']
    rcases hx with rfl | ⟨hge, hlt⟩
    · have hnew : x ∉ Multiset.Ico w.next w'.next := by
        rw [mem_Ico]
        omega
      rw [count_eq_zero_of_notMem hlive, count_eq_zero_of_notMem hnew, count_singleton_self]
    · have hnot : x ∉ w.accounted := fun hmem => absurd (hold x hmem) (by omega)
      have hne : x ∉ ({b} : Multiset ℕ) := by
        rw [mem_singleton]
        omega
      rw [count_eq_zero_of_notMem hnot, count_eq_zero_of_notMem hne,
        count_eq_one_of_mem (nodup_Ico) (mem_Ico.2 ⟨hge, hlt⟩)]
  constructor
  · intro hsettled
    refine eq_zero_of_forall_notMem fun x hx => ?_
    have hmem : x ∈ w.accounted + {b} + Multiset.Ico w.next w'.next := by
      rw [← hbalance]
      exact mem_add.2 (.inr hx)
    have hone : x = b ∨ (w.next ≤ x ∧ x < w'.next) := by
      rcases mem_rxRefused hx with heq | hge
      · exact .inl heq
      refine .inr ⟨hge, ?_⟩
      rcases mem_add.1 hmem with hsum | hnew
      · rcases mem_add.1 hsum with hacc | hsingle
        · exact absurd (hold x hacc) (by omega)
        · exact absurd (mem_singleton.1 hsingle) (by omega)
      · exact (mem_Ico.1 hnew).2
    have hpos := count_pos.2 hx
    have htotal := hcount x hone
    rw [hsettled x hone] at htotal
    omega
  · intro hzero x hx
    have := hcount x hx
    rw [hzero] at this
    exact this

def arpRequest : Frame where
  memory i := ([255, 255, 255, 255, 255, 255, 2, 0, 0, 0, 0, 2, 8, 6,
    0, 1, 8, 0, 6, 4, 0, 1, 2, 0, 0, 0, 0, 2, 10, 0, 0, 2, 0, 0, 0, 0, 0, 0, 10, 0, 0, 1]
      : List Byte).getD i 0
  size := 60
  ethernet := by decide
  fits := by decide

/-- The station 10.0.0.1 with empty queues and a pool that can serve one buffer. -/
def station (arpCache : List ℕ) : World where
  mac := [2, 0, 0, 0, 0, 1]
  interface := some ⟨0x0a000001, 0xffffff00⟩
  routes := [⟨0x0a000000, 0xffffff00, true⟩]
  arpCache := arpCache
  txQueue := .empty 32
  inSegments := .empty 150
  udpSessions := []
  rawSockets := []
  pending := []
  freed := []
  next := 1
  grants := [true]

theorem unknownTarget_settled : Settled (station []) ((station []).nbufFree 0) 0 := by
  have hreplied : ¬ (station []).ArpReplied arpRequest := by decide +kernel
  have htype : etherType arpRequest ≠ 0x0800 := by decide
  exact (ethernetRx_settled_iff (station []) _ arpRequest 0 (by decide) (by decide) (by decide)
    rfl).2 ⟨fun _ _ => hreplied, fun _ h => absurd h htype, fun _ h => absurd h htype⟩

/-- The station answers the request for its own address and forgets its buffer. -/
theorem arpRequest_not_settled : ∃ w', (station [0x0a000001]).ethernetRx arpRequest 0 = some w' ∧
    ¬ Settled (station [0x0a000001]) w' 0 := by
  refine ⟨_, rfl, fun h => ?_⟩
  have hcount := h 0 (.inl rfl)
  revert hcount
  decide +kernel

end GzOS.Net
