import GzOS.ArpCache
import Mathlib.Data.Multiset.Range

/-!
# What becomes of an outgoing packet

`ip_output` puts the packet into a context and hands that to a resolution. An address that
is cached is answered at once; else a timer looks again every 100 ms, ten times at most.

Buffers are numbered as they come in. The log records every free, every buffer put into the
transmit queue and every call of `arp_resolve_cb`. The cache may change at any time, also
before the lookup of the callback, which reads `seen`.
-/
namespace GzOS.Output
open Net Runs List Nat Option
open Arp (ArpCacheEntry RouteEntry Device arpGetHwaddr ipRouteLookup ethernetDeviceHwaddr)
open HashMap (HashmapMap)
open Tcp.Input (BasicQueue)

/-- `daddr` is the destination in the header. -/
structure IpPacket where
  buffer : ℕ
  daddr : UInt32
  deriving DecidableEq, Repr

structure ArpResolveContext where
  buffer : ℕ
  ipPacket : IpPacket
  deriving DecidableEq, Repr

/-- The callback in it is always `arp_resolve_cb`. -/
structure ArpResolveInternalContext where
  buffer : ℕ
  ipAddress : UInt32
  rounds : ℤ
  ctx : ArpResolveContext
  deriving DecidableEq, Repr

inductive Action
  | freed (buffer : ℕ)
  | queued (buffer : ℕ) (dst : List Byte)
  | called (context : ℕ) (result : ℤ)
  deriving DecidableEq, Repr

/-- `grants` has one answer of the pools for each call of `nbuf_alloc`. -/
structure State where
  cache : HashmapMap ArpCacheEntry
  routes : List RouteEntry
  txQueue : BasicQueue (ℕ × List Byte)
  timers : List ArpResolveInternalContext
  grants : List Bool
  next : ℕ
  log : List Action

/-- Nothing has been sent; all else is arbitrary. -/
def State.Idle (s : State) : Prop := s.timers = [] ∧ s.next = 0 ∧ s.log = []

def nbufAlloc (s : State) : Option ℕ × State :=
  match s.grants with
  | [] => (none, s)
  | true :: grants => (some s.next, { s with next := s.next + 1, grants := grants })
  | false :: grants => (none, { s with grants := grants })

def nbufFree (s : State) (b : ℕ) : State := { s with log := s.log ++ [.freed b] }

def ethernetSendPacket (s : State) (b : ℕ) (dst : List Byte) : State :=
  match s.txQueue.push (b, dst) with
  | (txQueue, none) => { s with txQueue := txQueue, log := s.log ++ [.queued b dst] }
  | (_, some _) => nbufFree s b

def broadcastMac : List Byte := replicate 6 0xff

def arpResolveCb (s : State) (ctx : ArpResolveContext) (result : ℤ)
    (seen : HashmapMap ArpCacheEntry) : State :=
  let s := { s with cache := seen, log := s.log ++ [.called ctx.buffer result] }
  let s :=
    if result = 0 then nbufFree s ctx.ipPacket.buffer
    else
      match arpGetHwaddr seen ctx.ipPacket.daddr with
      | none => nbufFree s ctx.ipPacket.buffer
      | some mac => ethernetSendPacket s ctx.ipPacket.buffer mac
  nbufFree s ctx.buffer

section Devices

variable (devices : List Device)

/-- The flag tells whether it returns 0. -/
def arpSendRequest (s : State) (ip : UInt32) : Bool × State :=
  match ipRouteLookup s.routes ip with
  | none => (false, s)
  | some route =>
    match ethernetDeviceHwaddr devices route.iface.device with
    | none => (false, s)
    | some _ =>
      match nbufAlloc s with
      | (none, s) => (false, s)
      | (some b, s) => (true, ethernetSendPacket s b broadcastMac)

def arpResolve (s : State) (ip : UInt32) (ctx : ArpResolveContext)
    (seen : HashmapMap ArpCacheEntry) : ℤ × State :=
  if (arpGetHwaddr s.cache ip).isSome then (0, arpResolveCb s ctx 1 seen)
  else
    match nbufAlloc s with
    | (none, s) => (-1, s)
    | (some b, s) =>
      match arpSendRequest devices s ip with
      | (false, s) => (-1, nbufFree s b)
      | (true, s) => (0, { s with timers := s.timers ++ [⟨b, ip, 10, ctx⟩] })

/-- `ip_output`, after the checksum. -/
def ipOutput (s : State) (packet : IpPacket) (seen : HashmapMap ArpCacheEntry) : ℤ × State :=
  match nbufAlloc s with
  | (none, s) => (-1, nbufFree s packet.buffer)
  | (some b, s) =>
    match arpResolve devices s packet.daddr ⟨b, packet⟩ seen with
    | (0, s) => (0, s)
    | (_, s) => (-1, nbufFree (nbufFree s packet.buffer) b)

def output (s : State) (daddr : UInt32) (seen : HashmapMap ArpCacheEntry) : ℤ × State :=
  ipOutput devices { s with next := s.next + 1 } ⟨s.next, daddr⟩ seen

/-- The timer is put back if the callback returns `TIMER_KEEP_GOING`. -/
def arpResolveCallback (s : State) (t : ArpResolveInternalContext)
    (seen : HashmapMap ArpCacheEntry) : State :=
  if (arpGetHwaddr s.cache t.ipAddress).isSome then
    nbufFree (arpResolveCb s t.ctx 1 seen) t.buffer
  else if 0 ≥ t.rounds - 1 then nbufFree (arpResolveCb s t.ctx 0 seen) t.buffer
  else
    let s := if (t.rounds - 1) % 2 = 0 then (arpSendRequest devices s t.ipAddress).2 else s
    { s with timers := s.timers ++ [{ t with rounds := t.rounds - 1 }] }

inductive Event
  | output (daddr : UInt32) (seen : HashmapMap ArpCacheEntry)
  | round (buffer : ℕ) (seen : HashmapMap ArpCacheEntry)
  | update (cache : HashmapMap ArpCacheEntry)
  | transmit (txQueue : BasicQueue (ℕ × List Byte))

/-- A round needs a timer with that context. Other changes of the queue are a `transmit`. -/
def step (s : State) : Event → Option State
  | .output daddr seen => some (output devices s daddr seen).2
  | .round buffer seen => (s.timers.find? fun t => t.buffer == buffer).map fun t =>
    arpResolveCallback devices { s with timers := s.timers.erase t } t seen
  | .update cache => some { s with cache := cache }
  | .transmit txQueue => some { s with txQueue := txQueue }

end Devices

def frees (log : List Action) (b : ℕ) : ℕ := log.count (.freed b)

def Action.queues (b : ℕ) : Action → Bool
  | .queued b' _ => b' == b
  | _ => false

def Action.calls (c : ℕ) : Action → Bool
  | .called c' _ => c' == c
  | _ => false

def queues (log : List Action) (b : ℕ) : ℕ := log.countP (Action.queues b)

def calls (log : List Action) (c : ℕ) : ℕ := log.countP (Action.calls c)

def Event.fires (buffer : ℕ) : Event → Bool
  | .round b _ => b == buffer
  | _ => false

/-- The number of rounds of one timer. -/
def rounds (buffer : ℕ) (events : List Event) : ℕ := events.countP (Event.fires buffer)

/-- One callback, the context freed once, the packet freed or queued once. -/
structure Settled (log : List Action) (packet context : ℕ) : Prop where
  called : calls log context = 1
  context : frees log context = 1
  packet : frees log packet + queues log packet = 1

def ToCached (devices : List Device) (packet : ℕ) (daddr : UInt32) (s : State) (ev : Event) :
    Prop :=
  ∀ s' mac, step devices s ev = some s' → .queued packet mac ∈ s'.log →
    .queued packet mac ∉ s.log → arpGetHwaddr s'.cache daddr = some mac

def AtOnce (devices : List Device) (s s₁ : State) (daddr : UInt32) : Prop :=
  (∀ mac, .queued s.next mac ∈ s₁.log → arpGetHwaddr s₁.cache daddr = some mac) ∧
    ∀ events s', exec (step devices) s₁ events = some s' → Settled s'.log s.next (s.next + 1)

/-- The timer `s.next + 2` can fire, and nothing has happened to the three buffers. -/
structure Waiting (devices : List Device) (s s' : State) : Prop where
  fires : ∀ seen, (step devices s' (.round (s.next + 2) seen)).isSome = true
  called : calls s'.log (s.next + 1) = 0
  untouched : ∀ b, s.next ≤ b → b ≤ s.next + 2 → frees s'.log b = 0 ∧ queues s'.log b = 0

/-- It waits for fewer than ten rounds, and is dealt with after at most ten. -/
def Later (devices : List Device) (s s₁ : State) (daddr : UInt32) : Prop :=
  ∀ events s', exec (step devices) s₁ events = some s' →
    Meets (step devices) (ToCached devices s.next daddr) s₁ events ∧
    rounds (s.next + 2) events ≤ 10 ∧ ((rounds (s.next + 2) events < 10 ∧ Waiting devices s s') ∨
      Settled s'.log s.next (s.next + 1) ∧ frees s'.log (s.next + 2) = 1)

/-- The packet `s.next` and every context allocated are freed once, and no timer is left. -/
structure Released (s s₁ : State) : Prop where
  timers : s₁.timers = s.timers
  packet : s.next < s₁.next
  freed : ∀ b, s.next ≤ b → b < s₁.next → frees s₁.log b = 1 ∧ queues s₁.log b = 0

def Accounted (devices : List Device) (s : State) (daddr : UInt32) (result : ℤ) (s₁ : State) :
    Prop :=
  (result = -1 ∧ Released s s₁) ∨
    result = 0 ∧ (AtOnce devices s s₁ daddr ∨ Later devices s s₁ daddr)

/-- The actions are logged, `fresh` buffers are allocated, and the timers stay. -/
structure Adds (s s' : State) (acts : List Action) (fresh : ℕ) : Prop where
  log : s'.log = s.log ++ acts
  next : s'.next = s.next + fresh
  timers : s'.timers = s.timers

def Disposed (b : ℕ) (dst : Option (List Byte)) (act : Action) : Prop :=
  act = .freed b ∨ ∃ mac, dst = some mac ∧ act = .queued b mac

variable {seen : HashmapMap ArpCacheEntry} {dst : Option (List Byte)}

section Functions

variable {devices : List Device} {s s' s₁ s2 : State} {acts acts1 acts2 : List Action}
  {fresh fresh1 fresh2 : ℕ}

lemma Adds.trans (h1 : Adds s s₁ acts1 fresh1) (h2 : Adds s₁ s2 acts2 fresh2) :
    Adds s s2 (acts1 ++ acts2) (fresh1 + fresh2) where
  log := by rw [h2.log, h1.log, append_assoc]
  next := by rw [h2.next, h1.next, add_assoc]
  timers := h2.timers.trans h1.timers

lemma adds_nbufFree (s : State) (b : ℕ) : Adds s (nbufFree s b) [.freed b] 0 := ⟨rfl, rfl, rfl⟩

lemma ethernetSendPacket_adds (s : State) (b : ℕ) (dst : List Byte) :
    ∃ act, Disposed b (some dst) act ∧ Adds s (ethernetSendPacket s b dst) [act] 0 ∧
      (ethernetSendPacket s b dst).cache = s.cache := by
  unfold ethernetSendPacket
  split
  · exact ⟨.queued b dst, .inr ⟨dst, rfl, rfl⟩, ⟨rfl, rfl, rfl⟩, rfl⟩
  · exact ⟨.freed b, .inl rfl, adds_nbufFree s b, rfl⟩

lemma nbufAlloc_adds (s : State) : (∃ s', nbufAlloc s = (none, s') ∧ Adds s s' [] 0) ∨
      ∃ s', nbufAlloc s = (some s.next, s') ∧ Adds s s' [] 1 := by
  unfold nbufAlloc
  split
  · exact .inl ⟨_, rfl, (append_nil _).symm, rfl, rfl⟩
  · exact .inr ⟨_, rfl, (append_nil _).symm, rfl, rfl⟩
  · exact .inl ⟨_, rfl, (append_nil _).symm, rfl, rfl⟩

lemma adds_refl (s : State) : Adds s s [] 0 := ⟨(append_nil _).symm, rfl, rfl⟩

lemma arpSendRequest_adds (devices : List Device) (s : State) (ip : UInt32) :
    (∃ s', arpSendRequest devices s ip = (false, s') ∧ Adds s s' [] 0) ∨
      ∃ s' act, arpSendRequest devices s ip = (true, s') ∧
        Disposed s.next (some broadcastMac) act ∧ Adds s s' [act] 1 := by
  unfold arpSendRequest
  cases ipRouteLookup s.routes ip with
  | none => exact .inl ⟨s, rfl, adds_refl s⟩
  | some route =>
    cases hmac : ethernetDeviceHwaddr devices route.iface.device with
    | none => exact .inl ⟨s, by simp only [hmac], adds_refl s⟩
    | some mac =>
      rcases nbufAlloc_adds s with ⟨s', halloc, hadds⟩ | ⟨s', halloc, hadds⟩
      · exact .inl ⟨s', by simp only [hmac, halloc], hadds⟩
      · obtain ⟨act, hact, hsend, -⟩ := ethernetSendPacket_adds s' s.next broadcastMac
        exact .inr ⟨_, act, by simp only [hmac, halloc], hact, hadds.trans hsend⟩

lemma arpResolveCb_adds (s : State) (ctx : ArpResolveContext) (result : ℤ)
    (seen : HashmapMap ArpCacheEntry) :
    ∃ act, Disposed ctx.ipPacket.buffer (arpGetHwaddr seen ctx.ipPacket.daddr) act ∧
      Adds s (arpResolveCb s ctx result seen)
        [.called ctx.buffer result, act, .freed ctx.buffer] 0 ∧
      (arpResolveCb s ctx result seen).cache = seen := by
  obtain ⟨s₁, hs1⟩ : ∃ s₁ : State,
      { s with cache := seen, log := s.log ++ [.called ctx.buffer result] } = s₁ := ⟨_, rfl⟩
  have hcalled : Adds s s₁ [.called ctx.buffer result] 0 := hs1 ▸ ⟨rfl, rfl, rfl⟩
  have hcache : s₁.cache = seen := hs1 ▸ rfl
  -- the packet is dealt with in one of three branches, two of which free it
  have hpacket : ∃ act s2, Disposed ctx.ipPacket.buffer (arpGetHwaddr seen ctx.ipPacket.daddr) act ∧
      Adds s₁ s2 [act] 0 ∧ s2.cache = s₁.cache ∧
      arpResolveCb s ctx result seen = nbufFree s2 ctx.buffer := by
    unfold arpResolveCb
    simp only [hs1]
    by_cases hresult : result = 0
    · rw [if_pos hresult]
      exact ⟨_, _, .inl rfl, adds_nbufFree s₁ _, rfl, rfl⟩
    rw [if_neg hresult]
    cases hmac : arpGetHwaddr seen ctx.ipPacket.daddr with
    | none => exact ⟨_, _, .inl rfl, adds_nbufFree s₁ _, rfl, rfl⟩
    | some mac =>
      obtain ⟨act, hact, hadds, hsame⟩ := ethernetSendPacket_adds s₁ ctx.ipPacket.buffer mac
      exact ⟨act, _, hact, hadds, hsame, rfl⟩
  obtain ⟨act, s2, hact, hadds, hsame, heq⟩ := hpacket
  rw [heq]
  exact ⟨act, hact, (hcalled.trans hadds).trans (adds_nbufFree s2 ctx.buffer), hsame.trans hcache⟩

lemma arpResolve_cases (devices : List Device) (s : State) (ip : UInt32)
    (ctx : ArpResolveContext) (seen : HashmapMap ArpCacheEntry) :
    arpResolve devices s ip ctx seen = (0, arpResolveCb s ctx 1 seen) ∨
      (∃ s' acts fresh, arpResolve devices s ip ctx seen = (-1, s') ∧ Adds s s' acts fresh ∧
        (acts = [] ∧ fresh = 0 ∨ acts = [.freed s.next] ∧ fresh = 1)) ∨
      ∃ s' act, arpResolve devices s ip ctx seen =
          (0, { s' with timers := s'.timers ++ [⟨s.next, ip, 10, ctx⟩] }) ∧
        Disposed (s.next + 1) (some broadcastMac) act ∧ Adds s s' [act] 2 := by
  unfold arpResolve
  by_cases hcached : (arpGetHwaddr s.cache ip).isSome
  · exact .inl (if_pos hcached)
  rw [if_neg hcached]
  refine .inr ?_
  rcases nbufAlloc_adds s with ⟨s₁, halloc, hadds⟩ | ⟨s₁, halloc, hadds⟩
  · exact .inl ⟨s₁, [], 0, by simp only [halloc], hadds, .inl ⟨rfl, rfl⟩⟩
  · rcases arpSendRequest_adds devices s₁ ip with ⟨s2, hsend, hadds2⟩ | ⟨s2, act, hsend, hact,
      hadds2⟩
    · refine .inl ⟨nbufFree s2 s.next, [.freed s.next], 1, by simp only [halloc, hsend], ?_,
        .inr ⟨rfl, rfl⟩⟩
      exact (hadds.trans hadds2).trans (adds_nbufFree s2 s.next)
    · rw [hadds.next] at hact
      exact .inr ⟨s2, act, by simp only [halloc, hsend], hact, hadds.trans hadds2⟩

inductive Freeing (p : ℕ) : List Action → ℕ → Prop
  | packet : Freeing p [.freed p] 1
  | context : Freeing p [.freed p, .freed (p + 1)] 2
  | resolution : Freeing p [.freed (p + 2), .freed p, .freed (p + 1)] 3

/-- A failure, an address in the cache, or a resolution that starts. -/
lemma output_cases (devices : List Device) (s : State) (daddr : UInt32)
    (seen : HashmapMap ArpCacheEntry) :
    (∃ s₁ acts fresh, output devices s daddr seen = (-1, s₁) ∧ Adds s s₁ acts fresh ∧
      Freeing s.next acts fresh) ∨ (∃ s₁ act, output devices s daddr seen = (0, s₁) ∧
      Disposed s.next (arpGetHwaddr seen daddr) act ∧
      Adds s s₁ [.called (s.next + 1) 1, act, .freed (s.next + 1)] 2 ∧ s₁.cache = seen) ∨
    ∃ s₁ act, output devices s daddr seen = (0, { s₁ with timers := s₁.timers ++
        [⟨s.next + 2, daddr, 10, ⟨s.next + 1, ⟨s.next, daddr⟩⟩⟩] }) ∧
      Disposed (s.next + 3) (some broadcastMac) act ∧ Adds s s₁ [act] 4 := by
  unfold output ipOutput
  have hpacket : Adds s { s with next := s.next + 1 } [] 1 := ⟨(append_nil _).symm, rfl, rfl⟩
  rcases nbufAlloc_adds { s with next := s.next + 1 } with ⟨s₁, halloc, hadds⟩ | ⟨s₁, halloc, hadds⟩
  · refine .inl ⟨nbufFree s₁ s.next, _, _, by simp only [halloc], ?_, .packet⟩
    exact (hpacket.trans hadds).trans (adds_nbufFree s₁ s.next)
  have hboth : Adds s s₁ [] 2 := hpacket.trans hadds
  rcases arpResolve_cases devices s₁ daddr ⟨s.next + 1, ⟨s.next, daddr⟩⟩ seen with hres |
    ⟨s2, acts, fresh, hres, hadds2, hacts⟩ | ⟨s2, act, hres, hact, hadds2⟩
  · obtain ⟨act, hact, hadds2, hcache⟩ :=
      arpResolveCb_adds s₁ ⟨s.next + 1, ⟨s.next, daddr⟩⟩ 1 seen
    refine .inr (.inl ⟨_, act, by simp only [halloc, hres], hact, ?_, hcache⟩)
    exact hboth.trans hadds2
  · have hfree :=
      ((hboth.trans hadds2).trans (adds_nbufFree s2 s.next)).trans (adds_nbufFree _ (s.next + 1))
    refine .inl ⟨_, _, _, by simp only [halloc, hres], hfree, ?_⟩
    rcases hacts with ⟨rfl, rfl⟩ | ⟨rfl, rfl⟩
    · exact .context
    · rw [hboth.next]
      exact .resolution
  · rw [hboth.next] at hres hact
    exact .inr (.inr ⟨s2, act, by simp only [halloc, hres], hact, hboth.trans hadds2⟩)

/-- A round ends the resolution, or asks once more and stays scheduled. -/
lemma round_cases {b : ℕ} (hstep : step devices s (.round b seen) = some s') :
    ∃ t ∈ s.timers, t.buffer = b ∧
      ((∃ result act, Disposed t.ctx.ipPacket.buffer (arpGetHwaddr seen t.ctx.ipPacket.daddr) act ∧
        Adds { s with timers := s.timers.erase t } s'
          [.called t.ctx.buffer result, act, .freed t.ctx.buffer, .freed t.buffer] 0 ∧
        s'.cache = seen) ∨
      1 < t.rounds ∧ ∃ s₁ acts fresh, Adds { s with timers := s.timers.erase t } s₁ acts fresh ∧
        (acts = [] ∧ fresh = 0 ∨
          ∃ act, Disposed s.next (some broadcastMac) act ∧ acts = [act] ∧ fresh = 1) ∧
        s' = { s₁ with timers := s₁.timers ++ [{ t with rounds := t.rounds - 1 }] }) := by
  obtain ⟨t, hfind, rfl⟩ := map_eq_some_iff.1 hstep
  have hbuffer : t.buffer = b := by simpa using find?_some hfind
  refine ⟨t, mem_of_find?_eq_some hfind, hbuffer, ?_⟩
  obtain ⟨s0, hs0⟩ : ∃ s0 : State, { s with timers := s.timers.erase t } = s0 := ⟨_, rfl⟩
  have hnext : s0.next = s.next := hs0 ▸ rfl
  rw [hs0]
  have hdone : ∀ result, ∃ act,
      Disposed t.ctx.ipPacket.buffer (arpGetHwaddr seen t.ctx.ipPacket.daddr) act ∧
      Adds s0 (nbufFree (arpResolveCb s0 t.ctx result seen) t.buffer)
        [.called t.ctx.buffer result, act, .freed t.ctx.buffer, .freed t.buffer] 0 ∧
      (nbufFree (arpResolveCb s0 t.ctx result seen) t.buffer).cache = seen := by
    intro result
    obtain ⟨act, hact, hadds, hcache⟩ := arpResolveCb_adds s0 t.ctx result seen
    exact ⟨act, hact, hadds.trans (adds_nbufFree _ t.buffer), hcache⟩
  unfold arpResolveCallback
  by_cases hfound : (arpGetHwaddr s0.cache t.ipAddress).isSome
  · rw [if_pos hfound]
    exact .inl ⟨1, hdone 1⟩
  rw [if_neg hfound]
  by_cases hlast : 0 ≥ t.rounds - 1
  · rw [if_pos hlast]
    exact .inl ⟨0, hdone 0⟩
  rw [if_neg hlast]
  refine .inr ⟨by omega, ?_⟩
  by_cases heven : (t.rounds - 1) % 2 = 0
  · rw [if_pos heven]
    rcases arpSendRequest_adds devices s0 t.ipAddress with ⟨s₁, hsend, hadds⟩ | ⟨s₁, act, hsend,
      hact, hadds⟩
    · exact ⟨s₁, [], 0, hadds, .inl ⟨rfl, rfl⟩, by rw [hsend]⟩
    · exact ⟨s₁, [act], 1, hadds, .inr ⟨act, hnext ▸ hact, rfl, rfl⟩, by rw [hsend]⟩
  · rw [if_neg heven]
    exact ⟨s0, [], 0, adds_refl s0, .inl ⟨rfl, rfl⟩, rfl⟩

end Functions

/-! ## The other models of a resolution -/

section Agreement

variable (devices : List Device)

def State.route (r : RouteEntry) : Route :=
  ⟨r.destAddr.toNat, r.netmask.toNat, (ethernetDeviceHwaddr devices r.iface.device).isSome⟩

/-- The same routes, cached addresses and answers of the pools in the other two models. -/
structure Same (s : State) (h : Arp.Host) (w : World) : Prop where
  host : h.routes = s.routes ∧ h.cache = s.cache
  routes : w.routes = s.routes.map (State.route devices)
  cached : ∀ ip : UInt32, ip.toNat ∈ w.arpCache ↔ (arpGetHwaddr s.cache ip).isSome
  grants : w.grants = s.grants

variable {devices} {s : State} {h : Arp.Host} {w : World}

lemma routeLookup_agrees (hs : Same devices s h w) (ip : UInt32) :
    w.ipRouteLookup ip.toNat = (ipRouteLookup s.routes ip).map (State.route devices) := by
  rw [World.ipRouteLookup, hs.routes, find?_map, ipRouteLookup]
  congr 2
  funext r
  simp [State.route, isIpOnSameNetwork, ← UInt32.toNat_inj]

lemma nbufAlloc_agrees (hs : Same devices s h w) :
    w.nbufAlloc.1.isSome = (nbufAlloc s).1.isSome ∧
      Same devices (nbufAlloc s).2 h w.nbufAlloc.2 := by
  obtain ⟨hhost, hroutes, hcached, hgrants⟩ := hs
  unfold nbufAlloc World.nbufAlloc
  rw [hgrants]
  rcases s.grants with _ | ⟨_ | _, grants⟩ <;>
    exact ⟨rfl, hhost, hroutes, hcached, by first | exact hgrants | rfl⟩

/-- Whether a request is sent is the same in the three models. -/
lemma arpSendRequest_agrees (hs : Same devices s h w) (ip : UInt32) :
    (Arp.arpSendRequest devices h ip (nbufAlloc s).1.isSome).1 =
      (arpSendRequest devices s ip).1 ∧
    (w.arpSendRequest ip.toNat).1 = (arpSendRequest devices s ip).1 := by
  have halloc := (nbufAlloc_agrees hs).1
  unfold arpSendRequest Arp.arpSendRequest World.arpSendRequest
  rw [routeLookup_agrees hs, hs.host.1]
  cases ipRouteLookup s.routes ip with
  | none => exact ⟨rfl, rfl⟩
  | some route =>
    cases hmac : ethernetDeviceHwaddr devices route.iface.device with
    | none => simp [State.route, hmac]
    | some mac =>
      rcases hw : w.nbufAlloc with ⟨_ | b, w'⟩ <;> rcases hn : nbufAlloc s with ⟨_ | c, s'⟩ <;>
        simp_all [State.route]

/-- And so is the result of a resolution. -/
lemma arpResolve_agrees (hs : Same devices s h w) (ip : UInt32) (ctx : ArpResolveContext)
    (seen : HashmapMap ArpCacheEntry) (context packet : ℕ) :
    let result := decide ((arpResolve devices s ip ctx seen).1 = 0)
    (Arp.arpResolve devices h ip (nbufAlloc s).1.isSome
      (nbufAlloc (nbufAlloc s).2).1.isSome).1 = result ∧
      (w.arpResolve ip.toNat context packet).1 = result := by
  obtain ⟨halloc, hnext⟩ := nbufAlloc_agrees hs
  obtain ⟨hhost, hworld⟩ := arpSendRequest_agrees hnext ip
  unfold arpResolve Arp.arpResolve World.arpResolve
  rw [hs.host.2]
  by_cases hcached : (arpGetHwaddr s.cache ip).isSome
  · simp [hs.cached, hcached]
  rw [if_neg hcached, if_neg hcached, if_neg (mt (hs.cached ip).1 hcached)]
  rcases hw : w.nbufAlloc with ⟨_ | b, w'⟩ <;> rcases hn : nbufAlloc s with ⟨_ | c, s'⟩ <;>
    simp only [hw, hn, isSome_none, isSome_some, reduceCtorEq] at halloc
  · simp
  · simp only [hw, hn] at hhost hworld
    rcases hreq : arpSendRequest devices s' ip with ⟨_ | _, u⟩ <;>
      rcases hreq' : w'.arpSendRequest ip.toNat with ⟨_ | _, v⟩ <;> simp_all

end Agreement

/-! ## Every buffer is in one place -/

def Action.tally : Action → Multiset ℕ
  | .freed b => {b}
  | .queued b _ => {b}
  | .called _ _ => 0

def settled (log : List Action) : Multiset ℕ := (log.map Action.tally).sum

def ArpResolveInternalContext.held (t : ArpResolveInternalContext) : Multiset ℕ :=
  {t.ctx.ipPacket.buffer} + {t.ctx.buffer} + {t.buffer}

def heldBy (timers : List ArpResolveInternalContext) : Multiset ℕ :=
  (timers.map ArpResolveInternalContext.held).sum

def owned (s : State) : Multiset ℕ := settled s.log + heldBy s.timers

/-- Every buffer made is freed, queued or held by one timer. -/
def Balanced (s : State) : Prop := owned s = Multiset.range s.next

lemma heldBy_erase {timers : List ArpResolveInternalContext} {t : ArpResolveInternalContext}
    (ht : t ∈ timers) : heldBy timers = heldBy (timers.erase t) + t.held := by
  have hperm := (perm_cons_erase ht).map ArpResolveInternalContext.held
  rw [heldBy, hperm.sum_eq, map_cons, add_comm]
  rfl

lemma settled_cons (a : Action) (log : List Action) :
    settled (a :: log) = a.tally + settled log := by
  simp [settled]

lemma settled_nil : settled [] = 0 := rfl

lemma count_tally (a : Action) (b : ℕ) :
    a.tally.count b = (if a == .freed b then 1 else 0) + if a.queues b then 1 else 0 := by
  cases a with
  | freed b' =>
    rw [Action.tally, Multiset.count_singleton]
    simp [Action.queues, eq_comm (a := b)]
  | queued b' dst =>
    rw [Action.tally, Multiset.count_singleton]
    simp [Action.queues, eq_comm (a := b)]
  | called c result => simp [Action.tally, Action.queues]

lemma count_settled (log : List Action) (b : ℕ) :
    (settled log).count b = frees log b + queues log b := by
  induction log with
  | nil => rfl
  | cons a log ih =>
    rw [settled_cons, Multiset.count_add, ih, count_tally, frees, queues, frees, queues,
      count_cons, countP_cons]
    omega

lemma tally_disposed {b : ℕ} {act : Action} (h : Disposed b dst act) : act.tally = {b} := by
  rcases h with rfl | ⟨mac, -, rfl⟩ <;> rfl

lemma range_add_one (n : ℕ) : Multiset.range (n + 1) = Multiset.range n + {n} := by
  rw [Multiset.range_succ, ← Multiset.singleton_add, add_comm]

section Balance

variable {devices : List Device} {s s' s₁ : State} {acts : List Action} {fresh : ℕ} {ev : Event}
  {t t' : ArpResolveInternalContext} {b c : ℕ}

lemma Adds.owned (h : Adds s s' acts fresh) : owned s' = owned s + settled acts := by
  simp [Output.owned, h.log, h.timers, settled, add_right_comm]

lemma owned_arm (s : State) (t : ArpResolveInternalContext) :
    owned { s with timers := s.timers ++ [t] } = owned s + t.held := by
  simp [Output.owned, heldBy, ← add_assoc]

lemma Freeing.settled (h : Freeing s.next acts fresh) :
    Multiset.range s.next + Output.settled acts = Multiset.range (s.next + fresh) := by
  cases h <;> simp only [settled_cons, Action.tally, range_add_one] <;> abel

lemma Balanced.count (h : Balanced s) (b : ℕ) :
    frees s.log b + queues s.log b + (heldBy s.timers).count b = if b < s.next then 1 else 0 := by
  rw [← count_settled, ← Multiset.count_add]
  have hrange : settled s.log + heldBy s.timers = Multiset.range s.next := h
  rw [hrange, Multiset.count_eq_of_nodup (Multiset.nodup_range _)]
  simp

lemma count_heldBy_pos (ht : t ∈ s.timers) (hb : b ∈ t.held) : 0 < (heldBy s.timers).count b := by
  rw [heldBy_erase ht, Multiset.count_add]
  have := Multiset.count_pos.2 hb
  omega

lemma Balanced.of_held (h : Balanced s) (ht : t ∈ s.timers) (hb : b ∈ t.held) :
    b < s.next ∧ frees s.log b = 0 ∧ queues s.log b = 0 := by
  have hcount := h.count b
  have hpos := count_heldBy_pos ht hb
  split_ifs at hcount with hlt
  · exact ⟨hlt, by omega, by omega⟩
  · omega

lemma Balanced.timer_unique (h : Balanced s) (ht : t ∈ s.timers) (ht' : t' ∈ s.timers)
    (hb : b ∈ t.held) (hb' : b ∈ t'.held) : t = t' := by
  by_contra hne
  have hother : t' ∈ (s.timers.erase t) := (mem_erase_of_ne (Ne.symm hne)).2 ht'
  have hcount := h.count b
  rw [heldBy_erase ht, Multiset.count_add, heldBy_erase hother, Multiset.count_add] at hcount
  have h1 := Multiset.count_pos.2 hb
  have h2 := Multiset.count_pos.2 hb'
  split_ifs at hcount <;> omega

/-! ## Steps -/

variable {result : ℤ} {mac : List Byte} {events : List Event}

lemma not_disposed_called : ¬ Disposed b dst (.called c result) := by
  rintro (h | ⟨mac, -, h⟩) <;> cases h

lemma disposed_queued {b' : ℕ} (h : Disposed b dst (.queued b' mac)) : b' = b ∧ dst = some mac := by
  rcases h with h | ⟨mac', hdst, h⟩
  · cases h
  · cases h
    exact ⟨rfl, hdst⟩

/-- It calls contexts and queues buffers that a timer held or that are new; a context called
is freed. The buffers stay balanced. -/
structure Effect (s : State) (ev : Event) (s' : State) (acts : List Action) : Prop where
  log : s'.log = s.log ++ acts
  owned : owned s = Multiset.range s.next → Output.owned s' = Multiset.range s'.next
  called : ∀ c result, .called c result ∈ acts →
    .freed c ∈ acts ∧ (s.next ≤ c ∨ ∃ t ∈ s.timers, c ∈ t.held)
  queued : ∀ b mac, .queued b mac ∈ acts → s.next ≤ b ∨ ∃ t ∈ s.timers,
    b = t.ctx.ipPacket.buffer ∧ arpGetHwaddr s'.cache t.ctx.ipPacket.daddr = some mac
  kept : ∀ t ∈ s.timers, ev.fires t.buffer = false → t ∈ s'.timers

lemma mem_held : b ∈ t.held ↔ b = t.ctx.ipPacket.buffer ∨ b = t.ctx.buffer ∨ b = t.buffer := by
  simp [ArpResolveInternalContext.held]

lemma output_effect (devices : List Device) (s : State) (daddr : UInt32)
    (seen : HashmapMap ArpCacheEntry) :
    ∃ acts, Effect s (.output daddr seen) (output devices s daddr seen).2 acts := by
  rcases output_cases devices s daddr seen with ⟨s₁, acts, fresh, heq, hadds, hfreed⟩ |
    ⟨s₁, act, heq, hact, hadds, -⟩ | ⟨s₁, act, heq, hact, hadds⟩
  · rw [heq]
    refine ⟨acts, hadds.log, fun h => ?_, fun c result h => ?_, fun b mac h => ?_,
      fun t ht _ => hadds.timers ▸ ht⟩
    · rw [hadds.owned, hadds.next, h, hfreed.settled]
    · cases hfreed <;> simp at h
    · cases hfreed <;> simp at h
  · rw [heq]
    refine ⟨_, hadds.log, fun h => ?_, fun c result h => ?_, fun b mac h => ?_,
      fun t ht _ => hadds.timers ▸ ht⟩
    · rw [hadds.owned, hadds.next, h, range_add_one (s.next + 1), range_add_one]
      simp only [settled_cons, tally_disposed hact]
      abel
    · simp only [mem_cons, not_mem_nil, or_false,  reduceCtorEq] at h
      rcases h with ⟨rfl, -⟩ | rfl
      · exact ⟨by simp, .inl (le_succ _)⟩
      · exact absurd hact not_disposed_called
    · simp only [mem_cons, not_mem_nil, or_false, reduceCtorEq, false_or] at h
      subst h
      exact .inl (disposed_queued hact).1.ge
  · rw [heq]
    refine ⟨_, hadds.log, fun h => ?_, fun c result h => ?_, fun b mac h => ?_, fun t ht _ => ?_⟩
    · refine (owned_arm s₁ _).trans ?_
      rw [hadds.owned, h]
      rw [hadds.next, range_add_one (s.next + 3), range_add_one (s.next + 2),
        range_add_one (s.next + 1), range_add_one s.next]
      simp only [settled_cons, tally_disposed hact]
      abel
    · obtain rfl := mem_singleton.1 h
      exact absurd hact not_disposed_called
    · obtain rfl := mem_singleton.1 h
      exact .inl (by rw [(disposed_queued hact).1]; exact le_add_right _ _)
    · exact mem_append_left _ (hadds.timers ▸ ht)

/-- In each case of a round the buffers stay balanced. -/
lemma round_effect (hstep : step devices s (.round b seen) = some s') :
    ∃ acts, Effect s (.round b seen) s' acts := by
  obtain ⟨t, ht, hbuffer, hcases⟩ := round_cases hstep
  have howned : owned s = owned { s with timers := s.timers.erase t } + t.held := by
    rw [Output.owned, heldBy_erase ht, ← add_assoc]
    rfl
  have hothers : ∀ t' ∈ s.timers, (Event.round b seen).fires t'.buffer = false →
      t' ∈ s.timers.erase t := by
    intro t' ht' hfires
    refine (mem_erase_of_ne ?_).2 ht'
    rintro rfl
    simp [Event.fires, hbuffer] at hfires
  rcases hcases with ⟨result, act, hact, hadds, hcache⟩ | ⟨-, s₁, acts, fresh, hadds, hacts, rfl⟩
  · refine ⟨_, hadds.log, fun h => ?_, fun c result' h => ?_, fun b' mac h => ?_,
      fun t' ht' hfires => hadds.timers ▸ hothers t' ht' hfires⟩
    · rw [hadds.owned, hadds.next]
      refine Eq.trans ?_ (howned.symm.trans h)
      simp only [settled_cons, tally_disposed hact]
      abel
    · simp only [mem_cons, not_mem_nil, or_false, reduceCtorEq] at h
      rcases h with ⟨rfl, -⟩ | rfl
      · exact ⟨by simp, .inr ⟨t, ht, mem_held.2 (.inr (.inl rfl))⟩⟩
      · exact absurd hact not_disposed_called
    · simp only [mem_cons, not_mem_nil, or_false, reduceCtorEq, false_or] at h
      subst h
      obtain ⟨rfl, hmac⟩ := disposed_queued hact
      exact .inr ⟨t, ht, rfl, hcache ▸ hmac⟩
  · have hkept : ∀ t' ∈ s.timers, (Event.round b seen).fires t'.buffer = false →
        t' ∈ s₁.timers ++ [{ t with rounds := t.rounds - 1 }] := fun t' ht' hfires =>
      mem_append_left _ (hadds.timers ▸ hothers t' ht' hfires)
    have harmed : owned s = Multiset.range s.next →
        owned { s₁ with timers := s₁.timers ++ [{ t with rounds := t.rounds - 1 }] } =
          Multiset.range s.next + settled acts := by
      intro h
      rw [owned_arm, hadds.owned, add_right_comm, ← h, howned]
      rfl
    rcases hacts with ⟨rfl, rfl⟩ | ⟨act, hact, rfl, rfl⟩
    · refine ⟨[], hadds.log, fun h => ?_, fun _ _ h => (not_mem_nil h).elim,
        fun _ _ h => (not_mem_nil h).elim, hkept⟩
      rw [harmed h, settled_nil, add_zero]
      exact congrArg Multiset.range hadds.next.symm
    · refine ⟨[act], hadds.log, fun h => ?_, fun c result h => ?_, fun b' mac h => ?_, hkept⟩
      · refine (harmed h).trans ?_
        rw [hadds.next, range_add_one, settled_cons, tally_disposed hact]
        rfl
      · obtain rfl := mem_singleton.1 h
        exact absurd hact not_disposed_called
      · obtain rfl := mem_singleton.1 h
        exact .inl (disposed_queued hact).1.ge

lemma step_effect (hstep : step devices s ev = some s') : ∃ acts, Effect s ev s' acts := by
  have hnone : ∀ s₁ : State, s₁.log = s.log → s₁.timers = s.timers → s₁.next = s.next →
      Effect s ev s₁ [] := by
    intro s₁ hlog htimers hnext
    refine ⟨by rw [hlog, append_nil], fun h => ?_, fun _ _ h => (not_mem_nil h).elim,
      fun _ _ h => (not_mem_nil h).elim, fun t ht _ => htimers ▸ ht⟩
    rw [Output.owned, hlog, htimers, hnext]
    exact h
  cases ev with
  | output daddr seen =>
    cases hstep
    exact output_effect devices s daddr seen
  | round b seen => exact round_effect hstep
  | update cache =>
    cases hstep
    exact ⟨[], hnone _ rfl rfl rfl⟩
  | transmit txQueue =>
    cases hstep
    exact ⟨[], hnone _ rfl rfl rfl⟩

structure Consistent (s : State) : Prop where
  balanced : Balanced s
  called : ∀ c result, .called c result ∈ s.log → .freed c ∈ s.log

lemma Consistent.step (h : Consistent s) (hstep : step devices s ev = some s') :
    Consistent s' := by
  obtain ⟨acts, heffect⟩ := step_effect hstep
  refine ⟨heffect.owned h.balanced, fun c result hc => ?_⟩
  rw [heffect.log, mem_append] at hc ⊢
  rcases hc with hc | hc
  · exact .inl (h.called c result hc)
  · exact .inr (heffect.called c result hc).1

lemma consistent_idle (h : s.Idle) : Consistent s := by
  obtain ⟨htimers, hnext, hlog⟩ := h
  constructor
  · rw [Balanced, owned, htimers, hnext, hlog]
    rfl
  · intro c result hc
    rw [hlog] at hc
    cases hc

lemma Balanced.of_freed (h : Balanced s) (hb : .freed b ∈ s.log) :
    b < s.next ∧ (∀ t ∈ s.timers, b ∉ t.held) ∧ frees s.log b = 1 := by
  have hcount := h.count b
  have hpos : 0 < frees _ _ := count_pos_iff.2 hb
  split_ifs at hcount with hlt
  · refine ⟨hlt, fun t ht hheld => ?_, by omega⟩
    have := count_heldBy_pos ht hheld
    omega
  · omega

lemma calls_eq_zero (h : ∀ result, .called c result ∉ acts) : calls acts c = 0 := by
  refine countP_eq_zero.2 fun act hact hcalls => ?_
  cases act with
  | called c' result =>
    obtain rfl : c' = c := by simpa [Action.calls] using hcalls
    exact h result hact
  | _ => cases hcalls

lemma Balanced.not_freed (h : Balanced s) (hc : s.next ≤ c ∨ ∃ t ∈ s.timers, c ∈ t.held) :
    .freed c ∉ s.log := by
  intro hin
  obtain ⟨hlt, hnot, -⟩ := h.of_freed hin
  rcases hc with hc | ⟨t, ht, hheld⟩
  · omega
  · exact hnot t ht hheld

lemma Consistent.not_called (h : Consistent s)
    (hc : s.next ≤ c ∨ ∃ t ∈ s.timers, c ∈ t.held) : calls s.log c = 0 :=
  calls_eq_zero fun result hin => h.balanced.not_freed hc (h.called c result hin)

/-! ## Runs -/

variable {p k : ℕ}

structure Dealt (log : List Action) (p c : ℕ) : Prop where
  called : calls log c = 1
  context : .freed c ∈ log
  packet : 0 < frees log p + queues log p

lemma frees_append (log acts : List Action) (b : ℕ) :
    frees (log ++ acts) b = frees log b + frees acts b := count_append

lemma queues_append (log acts : List Action) (b : ℕ) :
    queues (log ++ acts) b = queues log b + queues acts b := countP_append

lemma calls_append (log acts : List Action) (c : ℕ) :
    calls (log ++ acts) c = calls log c + calls acts c := countP_append

lemma dealt_of_call {log more : List Action} {act : Action}
    (hact : Disposed p dst act) (hnew : calls log c = 0) (hmore : calls more c = 0) :
    Dealt (log ++ .called c result :: act :: .freed c :: more) p c := by
  have hother : act.calls c = false := by
    rcases hact with rfl | ⟨mac, -, rfl⟩ <;> rfl
  have hpacket : 0 < frees [act] p + queues [act] p := by
    rw [← count_settled, settled_cons, settled_nil, add_zero, tally_disposed hact,
      Multiset.count_singleton_self]
    exact one_pos
  refine ⟨?_, by simp, ?_⟩
  · rw [calls_append, hnew]
    have hself : (Action.called c result).calls c := by simp [Action.calls]
    have hfree : (Action.freed c).calls c = false := rfl
    unfold calls at hmore ⊢
    simp [hself, hother, hfree, hmore]
  · rw [frees_append, queues_append]
    simp only [frees, queues, count_cons, countP_cons, count_nil, countP_nil] at hpacket ⊢
    omega

lemma Dealt.step (h : Dealt s.log p c) (hs : Consistent s)
    (hstep : step devices s ev = some s') : Dealt s'.log p c := by
  obtain ⟨acts, heffect⟩ := step_effect hstep
  -- the context is gone, so the step cannot call it
  have hcalls : calls acts c = 0 := calls_eq_zero fun result hin =>
    hs.balanced.not_freed (heffect.called c result hin).2 h.context
  rw [heffect.log]
  refine ⟨by rw [calls_append, h.called, hcalls], mem_append_left _ h.context, ?_⟩
  rw [frees_append, queues_append]
  have := h.packet
  omega

lemma Dealt.settled (h : Dealt s.log p c) (hs : Consistent s) : Settled s.log p c := by
  refine ⟨h.called, (hs.balanced.of_freed h.context).2.2, ?_⟩
  have hcount := hs.balanced.count p
  have := h.packet
  split_ifs at hcount <;> omega

lemma Dealt.run (h : Dealt s.log p c) (hs : Consistent s)
    (hrun : exec (Output.step devices) s events = some s') : Settled s'.log p c := by
  have hkeeps : Always (Output.step devices) (fun s => Consistent s ∧ Dealt s.log p c) s events :=
    always_of_step (fun _ _ _ hinv hstep => ⟨hinv.1.step hstep, hinv.2.step hinv.1 hstep⟩)
      ⟨hs, h⟩ events
  obtain ⟨hs', h'⟩ := hkeeps.last hrun
  exact h'.settled hs'

/-- After `k` rounds the timer waits, or the callback has run. -/
def Tracks (t : ArpResolveInternalContext) (k : ℕ) (s : State) : Prop :=
  ((k < t.rounds ∧ { t with rounds := t.rounds - k } ∈ s.timers) ∨
    k ≤ t.rounds ∧ Dealt s.log t.ctx.ipPacket.buffer t.ctx.buffer ∧ .freed t.buffer ∈ s.log)

lemma tracks_round (hs : Consistent s) (hk : k < t.rounds)
    (ht : { t with rounds := t.rounds - k } ∈ s.timers)
    (hstep : Output.step devices s (.round t.buffer seen) = some s') : Tracks t (k + 1) s' := by
  obtain ⟨t', ht', hbuffer, hcases⟩ := round_cases hstep
  obtain rfl : { t with rounds := t.rounds - k } = t' :=
    hs.balanced.timer_unique (b := t.buffer) ht ht' (mem_held.2 (Or.inr (Or.inr rfl)))
      (mem_held.2 (.inr (.inr hbuffer.symm)))
  rcases hcases with ⟨result, act, hact, hadds, -⟩ | ⟨hgoes, s₁, acts, fresh, hadds, -, rfl⟩
  · have hheld : t.ctx.buffer ∈ ({ t with rounds := t.rounds - k } :
        ArpResolveInternalContext).held := mem_held.2 (Or.inr (Or.inl rfl))
    have hnew := hs.not_called (Or.inr ⟨_, ht, hheld⟩)
    refine Or.inr ⟨by omega, ?_, by simp [hadds.log]⟩
    rw [hadds.log]
    exact dealt_of_call hact hnew rfl
  · have hleft : k + 1 < t.rounds := by
      have : 1 < t.rounds - k := hgoes
      omega
    refine .inl ⟨by exact_mod_cast hleft, mem_append_right _ (mem_singleton.2 ?_)⟩
    simp only [ArpResolveInternalContext.mk.injEq, true_and, and_true]
    push_cast
    ring

lemma Tracks.step (h : Tracks t k s) (hs : Consistent s)
    (hstep : Output.step devices s ev = some s') :
    Tracks t (k + if ev.fires t.buffer then 1 else 0) s' := by
  cases hfires : ev.fires t.buffer with
  | false =>
    rcases h with ⟨hk, ht⟩ | ⟨hk, hdealt, hfreed⟩
    · obtain ⟨acts, heffect⟩ := step_effect hstep
      exact .inl ⟨hk, heffect.kept _ ht hfires⟩
    obtain ⟨acts, heffect⟩ := step_effect hstep
    refine .inr ⟨hk, hdealt.step hs hstep, ?_⟩
    rw [heffect.log]
    exact mem_append_left _ hfreed
  | true =>
    cases ev with
    | round b seen =>
      obtain rfl : b = t.buffer := by simpa [Event.fires] using hfires
      rcases h with ⟨hk, ht⟩ | ⟨-, -, hfreed⟩
      · exact tracks_round hs hk ht hstep
      -- the context is freed, so no timer has it
      obtain ⟨t', ht', hbuffer, -⟩ := round_cases hstep
      obtain ⟨-, hnot, -⟩ := hs.balanced.of_freed hfreed
      exact absurd (mem_held.2 (.inr (.inr hbuffer.symm))) (hnot t' ht')
    | _ => cases hfires

lemma Tracks.run (h : Tracks t k s) (hs : Consistent s)
    (hrun : exec (Output.step devices) s events = some s') :
    Consistent s' ∧ Tracks t (k + rounds t.buffer events) s' := by
  induction events generalizing s k with
  | nil =>
    cases hrun
    exact ⟨hs, h⟩
  | cons ev events ih =>
    obtain ⟨s₁, hstep, hrun⟩ := exec_cons_some.1 hrun
    rw [rounds, countP_cons, add_comm (countP _ _), ← rounds, ← add_assoc]
    exact ih (h.step hs hstep) (hs.step hstep) hrun

lemma Tracks.toCached (h : Tracks t k s) (hs : Consistent s) (ev : Event) :
    ToCached devices t.ctx.ipPacket.buffer t.ctx.ipPacket.daddr s ev := by
  intro s' mac hstep hnew hold
  obtain ⟨acts, heffect⟩ := step_effect hstep
  rw [heffect.log, mem_append] at hnew
  rcases heffect.queued _ mac (hnew.resolve_left hold) with hnext | ⟨t', ht', hpacket, hmac⟩
  · rcases h with ⟨-, ht⟩ | ⟨-, hdealt, -⟩
    · have hlt := (hs.balanced.of_held ht (mem_held.2 (.inl rfl))).1
      exact absurd hnext (not_le.2 hlt)
    have hcount := hs.balanced.count t.ctx.ipPacket.buffer
    rw [if_neg (not_lt.2 hnext)] at hcount
    have := hdealt.packet
    omega
  · have hheld := mem_held.2 (.inl hpacket)
    rcases h with ⟨-, ht⟩ | ⟨-, hdealt, -⟩
    · obtain rfl : _ = t' := hs.balanced.timer_unique ht ht' (mem_held.2 (.inl rfl)) hheld
      exact hmac
    have hcount := hs.balanced.count t.ctx.ipPacket.buffer
    have hpos := count_heldBy_pos ht' hheld
    have := hdealt.packet
    split_ifs at hcount <;> omega

/-! ## One call -/

lemma Adds.released (hs : Consistent s) (hs1 : Consistent s₁) (h : Adds s s₁ acts fresh)
    (hfreed : Freeing s.next acts fresh) : Released s s₁ := by
  refine ⟨h.timers, ?_, fun b hlow hhigh => ?_⟩
  · rw [h.next]
    cases hfreed <;> omega
  have hold := hs.balanced.count b
  have hnew := hs1.balanced.count b
  rw [if_neg (not_lt.2 hlow)] at hold
  rw [if_pos hhigh, h.timers] at hnew
  have hqueues : queues s₁.log b = 0 := by
    rw [h.log, queues_append, show queues acts b = 0 by cases hfreed <;> rfl]
    omega
  exact ⟨by omega, hqueues⟩

/-- What a call in state `s` leaves, after some rounds. -/
structure TimerOf (s : State) (daddr : UInt32) (t : ArpResolveInternalContext) : Prop where
  buffer : t.buffer = s.next + 2
  context : t.ctx.buffer = s.next + 1
  packet : t.ctx.ipPacket = ⟨s.next, daddr⟩

lemma TimerOf.waiting {daddr : UInt32} (h : TimerOf s daddr t) (hs' : Consistent s')
    (ht : t ∈ s'.timers) : Waiting devices s s' := by
  have hpacket : t.ctx.ipPacket.buffer = s.next := by rw [h.packet]
  refine ⟨fun seen => ?_, ?_, fun b hlow hhigh => ?_⟩
  · have hfind : (s'.timers.find? fun t => t.buffer == s.next + 2).isSome :=
      find?_isSome.2 ⟨t, ht, by simp [h.buffer]⟩
    rwa [Output.step, isSome_map]
  · exact hs'.not_called (.inr ⟨t, ht, mem_held.2 (.inr (.inl h.context.symm))⟩)
  · have hheld : b ∈ t.held := by
      rw [mem_held, h.context, h.buffer]
      omega
    exact (hs'.balanced.of_held ht hheld).2

lemma TimerOf.later {daddr : UInt32} (h : TimerOf s daddr t) (hrounds : t.rounds = 10)
    (hs1 : Consistent s₁) (ht : t ∈ s₁.timers) : Later devices s s₁ daddr := by
  have hstart : Tracks t 0 s₁ := .inl ⟨by omega, by simpa using ht⟩
  intro events s' hrun
  obtain ⟨hs', hend⟩ := hstart.run hs1 hrun
  rw [zero_add, h.buffer] at hend
  refine ⟨fun before ev _ s2 hbefore => ?_, ?_, ?_⟩
  · obtain ⟨hs2, htracks⟩ := hstart.run hs1 hbefore
    have hcached : ToCached devices t.ctx.ipPacket.buffer t.ctx.ipPacket.daddr s2 ev :=
      htracks.toCached hs2 ev
    rwa [h.packet] at hcached
  · rcases hend with ⟨hk, -⟩ | ⟨hk, -, -⟩ <;> omega
  · rcases hend with ⟨hk, hmem⟩ | ⟨-, hdealt, hfreed⟩
    · have hsame : TimerOf s daddr { t with rounds := t.rounds - rounds (s.next + 2) events } :=
        ⟨h.buffer, h.context, h.packet⟩
      exact .inl ⟨by omega, hsame.waiting hs' hmem⟩
    · rw [h.packet, h.context] at hdealt
      rw [h.buffer] at hfreed
      exact .inr ⟨hdealt.settled hs', (hs'.balanced.of_freed hfreed).2.2⟩

lemma queues_pos {log : List Action} (h : .queued b mac ∈ log) : 0 < queues log b :=
  countP_pos_iff.2 ⟨_, h, by simp [Action.queues]⟩

end Balance

/-- Whatever has been sent before, and whatever happens later. -/
theorem output_accounted (devices : List Device) (start : State) (before : List Event) (s : State)
    (hidle : start.Idle) (hrun : exec (step devices) start before = some s) (daddr : UInt32)
    (seen : HashmapMap ArpCacheEntry) :
    Accounted devices s daddr (output devices s daddr seen).1 (output devices s daddr seen).2 := by
  have hs := (always_of_step (fun _ _ _ h hstep => h.step hstep)
    (consistent_idle hidle) before).last hrun
  have hstep : step devices s (.output daddr seen) = some (output devices s daddr seen).2 := rfl
  have hs1 := hs.step hstep
  rcases output_cases devices s daddr seen with ⟨s₁, acts, fresh, heq, hadds, hfreed⟩ |
    ⟨s₁, act, heq, hact, hadds, hcache⟩ | ⟨s₁, act, heq, hact, hadds⟩
  · rw [heq] at hs1 ⊢
    exact .inl ⟨rfl, hadds.released hs hs1 hfreed⟩
  · rw [heq] at hs1 ⊢
    have hdealt : Dealt s₁.log s.next (s.next + 1) := by
      rw [hadds.log]
      exact dealt_of_call hact (hs.not_called (.inl (le_succ _))) rfl
    refine .inr ⟨rfl, .inl ⟨fun mac hmac => ?_, fun events s' hrun' => hdealt.run hs1 hrun'⟩⟩
    -- the number is new, so it is this call that has queued it
    have hold : .queued s.next mac ∉ s.log := fun hin => by
      have hcount := hs.balanced.count s.next
      rw [if_neg (lt_irrefl _)] at hcount
      have := queues_pos hin
      omega
    rw [hadds.log, mem_append] at hmac
    have hin := hmac.resolve_left hold
    simp only [mem_cons, not_mem_nil, or_false, reduceCtorEq, false_or] at hin
    subst hin
    rw [hcache]
    exact (disposed_queued hact).2
  · rw [heq] at hs1 ⊢
    have htimer : TimerOf s daddr ⟨s.next + 2, daddr, 10, ⟨s.next + 1, ⟨s.next, daddr⟩⟩⟩ :=
      ⟨rfl, rfl, rfl⟩
    refine .inr ⟨rfl, .inr (htimer.later rfl hs1 ?_)⟩
    exact mem_append_right _ (mem_singleton.2 rfl)

/-- In every run from a state without timers each buffer taken so far has been freed or queued
once, or is held by one timer. -/
theorem buffers_balanced (devices : List Device) (s : State) (events : List Event) :
    Always (step devices) Balanced { s with timers := [], next := 0, log := [] } events :=
  (always_of_step (fun _ _ _ h hs => h.step hs) (consistent_idle ⟨rfl, rfl, rfl⟩) events).mono
    fun _ h => h.balanced

def uplink : State where
  cache := HashMap.hashmapNew
  routes := [⟨0x0a000000, 0xffffff00, ⟨Arp.eth0.name, 0x0a000001, 0xffffff00⟩⟩]
  txQueue := BasicQueue.empty 32
  timers := []
  grants := replicate 6 true
  next := 0
  log := []

/-- A packet waits for its first round when the next one is sent. -/
theorem output_accounted_second :
    uplink.Idle ∧ ∃ s, exec (step [Arp.eth0]) uplink
        [.output 0x0a000009 HashMap.hashmapNew, .round 2 HashMap.hashmapNew] = some s ∧
      (output [Arp.eth0] s 0x0a000009 HashMap.hashmapNew).1 = 0 ∧
      Accounted [Arp.eth0] s 0x0a000009 (output [Arp.eth0] s 0x0a000009 HashMap.hashmapNew).1
        (output [Arp.eth0] s 0x0a000009 HashMap.hashmapNew).2 := by
  have hidle : uplink.Idle := ⟨rfl, rfl, rfl⟩
  have hresult : (exec (step [Arp.eth0]) uplink
      [.output 0x0a000009 HashMap.hashmapNew, .round 2 HashMap.hashmapNew]).map
      (fun s => (output [Arp.eth0] s 0x0a000009 HashMap.hashmapNew).1) = some 0 := by
    decide +kernel
  obtain ⟨s, hrun, hzero⟩ := map_eq_some_iff.1 hresult
  exact ⟨hidle, s, hrun, hzero, output_accounted _ uplink _ s hidle hrun _ _⟩

end GzOS.Output
