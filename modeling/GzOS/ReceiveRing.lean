import GzOS.Runs
import Mathlib.Data.List.Rotate
import Mathlib.Tactic.IntervalCases

/-!
# The receive ring of the network card

The card fills the slots of the ring in turn, from wherever it stands; the driver scans the
ring from its first slot in every call. Network buffers are numbered as they are allocated
and stand for the frame the card puts into them.
-/
namespace GzOS.Pcnet
open Runs List Option

/-- A receive descriptor, its values in the byte order of the processor, and the network
buffer attached to it in `_rxBuffers`. -/
structure Slot where
  status : UInt16
  msgLength : UInt32
  buffer : ℕ
  deriving DecidableEq, Repr

def Slot.given (slot : Slot) : Bool := slot.status &&& 0x8000 = 0

def Slot.pktLen (slot : Slot) : UInt16 := (slot.msgLength &&& 0xfff).toUInt16 - 4

/-- `grants` has one answer of the pools for each call of `nbuf_alloc_aligned`; `card` is the
slot that the card fills next. -/
structure State where
  slots : List Slot
  card : ℕ
  grants : List Bool
  next : ℕ := 32
  received : List ℕ := []
  absorbed : List ℕ := []
  deriving DecidableEq, Repr

/-- The ring after `setupBufferRings`. -/
def boot (card : ℕ) (grants : List Bool) : State where
  slots := (range 32).map fun i => ⟨0x8000, 0, i⟩
  card := card
  grants := grants

inductive Event
  | fill (i : ℕ) (status : UInt16) (msgLength : UInt32)
  | drain

/-- The slot that is filled. -/
def Event.slot : Event → Option ℕ
  | .fill i _ _ => some i
  | .drain => none

section Driver

variable (mapped : ℕ → Bool)

/-- No error, not oversize, not too short, and its buffer has an address the kernel can map. -/
def Slot.deliverable (slot : Slot) : Bool :=
  slot.status >>> 8 = 3 ∧ ¬ (slot.pktLen > 1548 ∨ slot.pktLen < 60) ∧ mapped slot.buffer

/-- One slot of the scan, those behind it being `slots`. A buffer refused fails the assertion. -/
def drainSlot (s : State) (slot : Slot) : Option State :=
  if ¬ slot.given then some { s with slots := s.slots ++ [slot] }
  else if s.grants.head? ≠ some true then none
  else some { s with
    absorbed := s.absorbed ++ if slot.deliverable mapped then [slot.buffer] else []
    slots := s.slots ++ [⟨0x8000, slot.msgLength, s.next⟩]
    grants := s.grants.tail
    next := s.next + 1 }

def drainRxRing (s : State) : Option State := exec (drainSlot mapped) { s with slots := [] } s.slots

/-- The card fills a slot it owns and gives it back. -/
def step (s : State) : Event → Option State
  | .drain => drainRxRing mapped s
  | .fill i status msgLength => (s.slots[i]?).bind fun slot =>
    if slot.given ∨ status &&& 0x8000 ≠ 0 then none
    else some { s with
      slots := s.slots.set i ⟨status, msgLength, slot.buffer⟩
      card := (i + 1) % 32
      received := s.received ++ [slot.buffer] }

end Driver

/-- The buffers of the slots that the card has given back. -/
def filled (slots : List Slot) : List ℕ := (slots.filter Slot.given).map Slot.buffer

/-- Every buffer allocated is attached to one slot or was handed up once. -/
def Conserved (s : State) : Prop :=
  ∀ b, s.absorbed.count b + (s.slots.map Slot.buffer).count b = if b < s.next then 1 else 0

/-- The card fills consecutive slots. -/
def InTurn (s : State) (ev : Event) : Prop := ∀ i ∈ ev.slot, i = s.card

/-- The slots given back do not reach over the end of the ring. -/
def Unwrapped (s : State) (ev : Event) : Prop :=
  ev.slot = none → filled (s.slots.drop s.card) = [] ∨ filled (s.slots.take s.card) = []

/-- Every slot given back can be delivered, and the pools have a buffer for it. -/
def Clean (mapped : ℕ → Bool) (s : State) (ev : Event) : Prop :=
  ev.slot = none → (∀ slot ∈ s.slots, slot.given → slot.deliverable mapped) ∧
    (filled s.slots).length ≤ (s.grants.takeWhile id).length

variable {mapped : ℕ → Bool} {s s' : State} {slots : List Slot} {slot : Slot} {ev : Event} {i : ℕ}
  {status : UInt16} {msgLength : UInt32}

instance : Decidable (InTurn s ev) := inferInstanceAs (Decidable (∀ _ ∈ ev.slot, _))

instance : Decidable (Unwrapped s ev) := inferInstanceAs (Decidable (_ → _))

instance : Decidable (Clean mapped s ev) := inferInstanceAs (Decidable (_ → _))

/-! ## Order -/

lemma filled_append (slots slots' : List Slot) :
    filled (slots ++ slots') = filled slots ++ filled slots' := by
  simp [filled]

lemma filled_cons (slot : Slot) (slots : List Slot) :
    filled (slot :: slots) = (if slot.given then [slot.buffer] else []) ++ filled slots := by
  cases h : slot.given <;> simp [filled, h]

/-- It hands up some of the frames found, in the order of the slots, and gives all back. -/
structure Scans (s : State) (slots : List Slot) (s' : State) : Prop where
  absorbed : ∃ kept, kept.Sublist (filled slots) ∧ s'.absorbed = s.absorbed ++ kept
  slots : ∃ new, filled new = [] ∧ new.length = slots.length ∧ s'.slots = s.slots ++ new
  received : s'.received = s.received
  card : s'.card = s.card

lemma drainSlot_scans (h : drainSlot mapped s slot = some s') : Scans s [slot] s' := by
  rw [drainSlot] at h
  by_cases hgiven : slot.given
  · rw [if_neg (not_not.2 hgiven)] at h
    obtain ⟨-, h⟩ := ite_none_left_eq_some.1 h
    cases h
    refine ⟨⟨_, ?_, rfl⟩, ⟨[⟨0x8000, slot.msgLength, s.next⟩], ?_, rfl, rfl⟩, rfl, rfl⟩
    · rw [filled_cons, if_pos hgiven]
      split_ifs <;> simp
    · simp [filled, Slot.given]
  · rw [if_pos hgiven] at h
    cases h
    refine ⟨⟨[], nil_sublist _, (append_nil _).symm⟩, ⟨[slot], ?_, rfl, rfl⟩, rfl, rfl⟩
    rw [filled_cons, if_neg hgiven]
    rfl

lemma scan_scans (h : exec (drainSlot mapped) s slots = some s') :
    Scans s slots s' := by
  induction slots generalizing s with
  | nil =>
    cases h
    exact ⟨⟨[], .slnil, (append_nil _).symm⟩, ⟨[], rfl, rfl, (append_nil _).symm⟩, rfl, rfl⟩
  | cons slot slots ih =>
    obtain ⟨s1, hslot, hrest⟩ := exec_cons_some.1 h
    obtain ⟨⟨kept, hkept, habs⟩, ⟨new, hnew, hlen, hslots⟩, hreceived, hcard⟩ :=
      drainSlot_scans hslot
    obtain ⟨⟨kept', hkept', habs'⟩, ⟨new', hnew', hlen', hslots'⟩, hreceived', hcard'⟩ := ih hrest
    refine ⟨⟨kept ++ kept', filled_append [slot] slots ▸ hkept.append hkept', ?_⟩,
      ⟨new ++ new', ?_, ?_, ?_⟩, hreceived'.trans hreceived, hcard'.trans hcard⟩
    · rw [habs', habs, append_assoc]
    · rw [filled_append, hnew, hnew']
      rfl
    · rw [length_append, hlen, hlen', Nat.add_comm]
      rfl
    · rw [hslots', hslots, append_assoc]

/-- Read from the position of the card on, the ring has the frames received and not yet
scanned in their order. -/
structure Ordered (s : State) : Prop where
  length : s.slots.length = 32
  card : s.card < 32
  received : ∃ done, s.absorbed.Sublist done ∧ s.received = done ++ filled (s.slots.rotate s.card)

lemma Ordered.drain (h : Ordered s) (hwrap : Unwrapped s .drain)
    (hs : drainRxRing mapped s = some s') : Ordered s' := by
  obtain ⟨done, hdone, hreceived⟩ := h.received
  obtain ⟨⟨kept, hkept, habs⟩, ⟨new, hnew, hlen, hslots⟩, hsame, hcard⟩ := scan_scans hs
  have hring : filled (s.slots.rotate s.card) = filled s.slots := by
    conv_rhs => rw [← take_append_drop s.card s.slots, filled_append]
    rw [rotate_eq_drop_append_take (h.card.le.trans h.length.ge), filled_append]
    rcases hwrap rfl with hnil | hnil <;> simp [hnil]
  have hnone : filled (new.rotate s'.card) = [] := by
    have hperm := ((new.rotate_perm s'.card).filter Slot.given).map Slot.buffer
    exact perm_nil.1 (hnew ▸ hperm)
  rw [nil_append] at hslots
  refine ⟨by rw [hslots, hlen, h.length], hcard ▸ h.card, done ++ filled s.slots, ?_, ?_⟩
  · rw [habs]
    exact hdone.append hkept
  · rw [hsame, hreceived, hring, hslots, hnone, append_nil]

lemma fill_cases (hs : step mapped s (.fill i status msgLength) = some s') :
    ∃ xs slot ys new, s.slots = xs ++ slot :: ys ∧ xs.length = i ∧ ¬ slot.given ∧
      new.given ∧ new.buffer = slot.buffer ∧ s' = { s with
        slots := xs ++ [new] ++ ys
        card := (i + 1) % 32
        received := s.received ++ [slot.buffer] } := by
  obtain ⟨slot, hslot, hs⟩ := bind_eq_some_iff.1 hs
  obtain ⟨hfree, hs⟩ := ite_none_left_eq_some.1 hs
  obtain ⟨howned, hstatus⟩ := not_or.1 hfree
  obtain ⟨hlt, hget⟩ := List.getElem?_eq_some_iff.1 hslot
  cases hs
  refine ⟨s.slots.take i, slot, s.slots.drop (i + 1), ⟨status, msgLength, slot.buffer⟩, ?_, ?_,
    howned, decide_eq_true (not_not.1 hstatus), rfl, ?_⟩
  · simp [← hget]
  · simp [hlt.le]
  · simp [set_eq_take_append_cons_drop, hlt]

lemma Ordered.fill (h : Ordered s) (hturn : InTurn s (.fill i status msgLength))
    (hs : step mapped s (.fill i status msgLength) = some s') : Ordered s' := by
  obtain ⟨xs, slot, ys, new, hslots, hi, howned, hgiven, hbuffer, rfl⟩ := fill_cases hs
  have hlength : (xs ++ [new] ++ ys).length = 32 := by simpa [hslots] using h.length
  obtain ⟨done, hdone, hreceived⟩ := h.received
  rw [← hturn i rfl, hslots, ← hi, rotate_append_length_eq, cons_append, filled_cons,
    if_neg howned] at hreceived
  have hrotate : (xs ++ [new] ++ ys).rotate ((i + 1) % 32) = ys ++ (xs ++ [new]) := by
    have hlen : (xs ++ [new]).length = i + 1 := by simp [hi]
    rw [← hlength, rotate_mod, ← hlen, rotate_append_length_eq]
  refine ⟨hlength, Nat.mod_lt _ (by decide), done, hdone, ?_⟩
  simp only [hreceived, hrotate, filled_append, filled_cons, hgiven, hbuffer]
  simp [filled]

/-- **Frames are handed up in the order they were received** in every run in which the frames
waiting at a call of `drainRxRing` do not reach over the end of the ring. -/
theorem frames_in_order (mapped : ℕ → Bool) (card : ℕ) (grants : List Bool) (events : List Event)
    (hcard : card < 32) (hturn : Meets (step mapped) InTurn (boot card grants) events)
    (h : Meets (step mapped) Unwrapped (boot card grants) events) :
    Always (step mapped) (fun s => s.absorbed.Sublist s.received) (boot card grants) events := by
  have hboot : Ordered (boot card grants) := by
    refine ⟨rfl, hcard, [], .slnil, ?_⟩
    interval_cases card <;> rfl
  have hordered : Always (step mapped) Ordered (boot card grants) events := by
    refine always_of_meets (fun s ev s' hs hev hstep => ?_) hboot
      fun pre ev hp t ht => And.intro (hturn pre ev hp t ht) (h pre ev hp t ht)
    cases ev with
    | fill i status msgLength => exact hs.fill hev.1 hstep
    | drain => exact hs.drain hev.2 hstep
  refine hordered.mono fun s hs => ?_
  obtain ⟨done, hdone, hreceived⟩ := hs.received
  exact hreceived ▸ hdone.trans (sublist_append_left _ _)

/-- A frame without error, 64 bytes with its checksum. -/
def short (i : ℕ) : Event := .fill i 0x0300 64

/-- Two frames from the first slot on. -/
theorem frames_in_order_two :
    Always (step fun _ => true) (fun s => s.absorbed.Sublist s.received)
      (boot 0 [true, true]) [short 0, short 1, .drain] :=
  frames_in_order _ 0 _ _ (by decide) (meets_of_check (by decide +kernel))
    (meets_of_check (by decide +kernel))

/-- The second of two frames is in the first slot and is handed up before the first one. -/
theorem frames_wrapped : (exec (step fun _ => true) (boot 31 [true, true])
    [short 31, short 0, .drain]).map (fun s => (s.received, s.absorbed)) =
      some ([31, 0], [0, 31]) := by
  decide +kernel

/-! ## Conservation -/

lemma scan_conserves (hgood : ∀ slot ∈ slots, slot.given → slot.deliverable mapped)
    (hpool : (filled slots).length ≤ (s.grants.takeWhile id).length)
    (hs : Conserved { s with slots := s.slots ++ slots }) :
    ∃ s', exec (drainSlot mapped) s slots = some s' ∧ Conserved s' := by
  induction slots generalizing s with
  | nil => exact ⟨s, rfl, by simpa using hs⟩
  | cons slot slots ih =>
    rw [forall_mem_cons] at hgood
    rw [filled_cons] at hpool
    rw [exec_cons, drainSlot]
    by_cases hgiven : slot.given
    · rw [if_neg (not_not.2 hgiven)]
      rw [if_pos hgiven] at hpool
      obtain ⟨grants, hgrants⟩ : ∃ grants, s.grants = true :: grants := by
        cases hg : s.grants with
        | nil => simp [hg] at hpool
        | cons g grants => cases g <;> simp [hg] at hpool ⊢
      rw [hgrants, if_neg (by simp), if_pos (hgood.1 hgiven), bind_some]
      refine ih hgood.2 ?_ fun b => ?_
      · simpa [hgrants] using hpool
      have hold := hs b
      simp only [map_append, map_cons, map_nil, count_append, count_cons,
        count_nil, beq_iff_eq] at hold ⊢
      split_ifs at hold ⊢ <;> omega
    · rw [if_pos hgiven, bind_some]
      rw [if_neg hgiven] at hpool
      exact ih hgood.2 hpool (by simpa using hs)

/-- **No receive buffer is lost** in every run in which each call of `drainRxRing` finds only
slots it can deliver and the pools have a buffer for each; no assertion fails. -/
theorem buffers_conserved (mapped : ℕ → Bool) (card : ℕ) (grants : List Bool) (events : List Event)
    (h : Meets (step mapped) (Clean mapped) (boot card grants) events) :
    Always (step mapped) Conserved (boot card grants) events ∧
      Meets (step mapped) (fun s ev => ev = .drain → step mapped s ev ≠ none)
        (boot card grants) events := by
  have hdrain : ∀ s, Conserved s → Clean mapped s .drain →
      ∃ s', step mapped s .drain = some s' ∧ Conserved s' := fun s hs hclean =>
    scan_conserves (s := { s with slots := [] }) (hclean rfl).1 (hclean rfl).2 hs
  have hboot : Conserved (boot card grants) := by
    intro b
    have hslots : (boot card grants).slots.map Slot.buffer = range 32 := rfl
    rw [hslots, nodup_range.count]
    simp only [mem_range]
    exact Nat.zero_add _
  have halways : Always (step mapped) Conserved (boot card grants) events := by
    refine always_of_meets (fun s ev s' hs hev hstep => ?_) hboot h
    cases ev with
    | fill i status msgLength =>
      obtain ⟨xs, slot, ys, new, hslots, -, -, -, hbuffer, rfl⟩ := fill_cases hstep
      intro b
      simpa [hslots, hbuffer] using hs b
    | drain =>
      obtain ⟨s1, hrun, hcons⟩ := hdrain s hs hev
      exact some.inj (hstep ▸ hrun) ▸ hcons
  refine ⟨halways, h.mono halways fun s ev hs hev hev' => ?_⟩
  subst hev'
  obtain ⟨s1, hrun, -⟩ := hdrain s hs hev
  exact hrun ▸ some_ne_none _

theorem buffers_conserved_two :
    Always (step fun _ => true) Conserved (boot 0 [true, true]) [short 0, short 1, .drain] :=
  (buffers_conserved _ 0 _ _ (meets_of_check (by decide +kernel))).1

/-- The buffer of a frame with an error is neither handed up nor freed; an exhausted pool
fails the assertion. -/
theorem buffer_leaked :
    (exec (step fun _ => true) (boot 0 [true]) [.fill 0 0x4300 64, .drain]).map (fun s =>
      s.absorbed ++ s.slots.map Slot.buffer) = some (32 :: range' 1 31) ∧
    exec (step fun _ => true) (boot 0 []) [short 0, .drain] = none := by
  decide +kernel

end GzOS.Pcnet
