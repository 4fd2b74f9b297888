import GzOS.Bindings
import GzOS.CTypes
import GzOS.HashMap

/-!
# The port map of UDP descriptors

The map takes a port to the descriptor bound to it, and the descriptor keeps its port in
`sourcePort`. A bind writes both, and a close removes the entry that `sourcePort` names. The
two agree as long as a descriptor is bound only while it is in no entry, the entry is really
stored, and an entry for port 0 does not outlive its descriptor.
-/
namespace GzOS.UdpPorts
open Bindings Runs Function Option
open HashMap (HashmapMap hashmapNew hashmapNew_sound get put remove Sound get_eq_some_iff get_put
  get_remove not_holeBefore_of_get)

/-- `bound`, which the code does not keep: a bind returned 0 after the last close. -/
structure Descriptor where
  sourcePort : UInt16
  bound : Bool
  deriving DecidableEq, Repr

structure State where
  portSessionsMap : HashmapMap ℕ
  fds : ℕ → Option Descriptor

def State.boot : State := ⟨hashmapNew, fun _ => none⟩

def getUdpDescriptorByPort (s : State) (port : UInt16) : Option ℕ :=
  get s.portSessionsMap port.toUInt32

def bindPort (port : UInt16) (rand : ℕ) : UInt16 :=
  if port = 0 then UInt16.ofNat (rand % uint16Max) else port

/-- With whether it returned 0. Only `IPADDR_ANY`, which is 0, is accepted. Without memory
for the entry the map stays as it is, and the bind goes on. -/
def bind (fuel : ℕ) (s : State) (d address : ℕ) (port : UInt16) (rand : ℕ) (memory : Bool) :
    Option (Bool × State) :=
  if address ≠ 0 then some (false, s)
  else
    let port := bindPort port rand
    if (getUdpDescriptorByPort s port).isSome then some (false, s)
    else
      (if memory then put fuel s.portSessionsMap port.toUInt32 d
        else some s.portSessionsMap).map fun map =>
        (true, ⟨map, Function.update s.fds d (some ⟨port, true⟩)⟩)

/-- It binds a descriptor without a port, once it has a buffer for the packet. -/
def sendto (fuel : ℕ) (s : State) (d : ℕ) (fd : Descriptor) (address : ℕ) (port : UInt16)
    (rand : ℕ) (nbuf memory : Bool) : Option State :=
  if address = 0 ∨ port = 0 then some s
  else if nbuf = false then some s
  else if fd.sourcePort = 0 then (bind fuel s d 0 0 rand memory).map Prod.snd
  else some s

def close (s : State) (d : ℕ) (fd : Descriptor) : State where
  portSessionsMap :=
    if fd.sourcePort ≠ 0 then (remove s.portSessionsMap fd.sourcePort.toUInt32).1
    else s.portSessionsMap
  fds := Function.update s.fds d (some ⟨0, false⟩)

inductive Event
  | create (d : ℕ)
  | bind (d address : ℕ) (port : UInt16) (rand : ℕ) (memory : Bool)
  | sendto (d address : ℕ) (port : UInt16) (rand : ℕ) (nbuf memory : Bool)
  | close (d : ℕ)
  | destroy (d : ℕ)
  deriving DecidableEq, Repr

/-- Stuck if the descriptor does not exist (for `create`: exists), or if a put does not
return within the fuel. -/
def step (fuel : ℕ) (s : State) : Event → Option State
  | .create d =>
    if s.fds d = none then some { s with fds := Function.update s.fds d (some ⟨0, false⟩) }
    else none
  | .bind d address port rand memory =>
    (s.fds d).bind fun _ => (bind fuel s d address port rand memory).map Prod.snd
  | .sendto d address port rand nbuf memory =>
    (s.fds d).bind fun fd => sendto fuel s d fd address port rand nbuf memory
  | .close d => (s.fds d).map fun fd => close s d fd
  -- the destructor closes the descriptor first
  | .destroy d =>
    (s.fds d).map fun fd =>
      let s := close s d fd
      { s with fds := Function.update s.fds d none }

/-- Entries are of live descriptors and their ports; bound descriptors are found. -/
structure PortMap (s : State) : Prop where
  live : ∀ key d, get s.portSessionsMap key = some d →
    ∃ fd, s.fds d = some fd ∧ fd.sourcePort.toUInt32 = key
  single : ∀ key key' d, get s.portSessionsMap key = some d →
    get s.portSessionsMap key' = some d → key = key'
  found : ∀ d fd, s.fds d = some fd → fd.bound = true →
    getUdpDescriptorByPort s fd.sourcePort = some d

/-- It is in no entry, and there is memory for a new one. -/
def Fresh (s : State) (d : ℕ) (fd : Descriptor) (memory : Bool) : Prop :=
  memory = true ∧ fd.sourcePort = 0 ∧ getUdpDescriptorByPort s 0 ≠ some d

def BindsFresh (s : State) (d : ℕ) (fd : Descriptor) (port : UInt16) (rand : ℕ)
    (memory : Bool) : Prop :=
  getUdpDescriptorByPort s (bindPort port rand) = none → Fresh s d fd memory

def Proper (s : State) : Event → Prop
  | .bind d address port rand memory =>
    ∀ fd ∈ s.fds d, address = 0 → BindsFresh s d fd port rand memory
  | .sendto d address port rand nbuf memory => ∀ fd ∈ s.fds d,
    address ≠ 0 ∧ port ≠ 0 ∧ nbuf = true ∧ fd.sourcePort = 0 → BindsFresh s d fd 0 rand memory
  | .destroy d => getUdpDescriptorByPort s 0 ≠ some d
  | _ => True

instance (s : State) (d : ℕ) (fd : Descriptor) (port : UInt16) (rand : ℕ) (memory : Bool) :
    Decidable (BindsFresh s d fd port rand memory) := by
  unfold BindsFresh Fresh
  infer_instance

instance (s : State) (e : Event) : Decidable (Proper s e) := by
  cases e <;> unfold Proper <;> infer_instance

/-! ## The invariant -/

structure Ledger (s : State) : Prop where
  sound : Sound s.portSessionsMap
  ports : PortMap s
  bound : ∀ d fd, s.fds d = some fd → fd.sourcePort ≠ 0 → fd.bound = true

lemma Ledger.boot : Ledger .boot where
  sound := hashmapNew_sound
  ports := by
    have hempty : ∀ key d, get (hashmapNew (V := ℕ)) key ≠ some d := by
      intro key d h
      obtain ⟨i, hi⟩ := (get_eq_some_iff hashmapNew_sound).1 h
      cases hi
    constructor
    · exact fun key d h => absurd h (hempty key d)
    · exact fun key _ d h => absurd h (hempty key d)
    · intro d fd h
      cases h
  bound d fd h := by cases h

variable {s t : State} {d : ℕ} {fd : Descriptor}

lemma Ledger.port_of_get (h : Ledger s)
    (hd : s.fds d = some fd) {key : UInt32} (hkey : get s.portSessionsMap key = some d) :
    fd.sourcePort.toUInt32 = key := by
  obtain ⟨fd', hd', hport⟩ := h.ports.live key d hkey
  cases hd.symm.trans hd'
  exact hport

/-- The step lemma: one descriptor and its entries change. -/
lemma Ledger.replace (h : Ledger s) {fd : Option Descriptor}
    (hsound : Sound t.portSessionsMap) (hfds : t.fds = update s.fds d fd)
    (hothers : ∀ key e, e ≠ d →
      (get t.portSessionsMap key = some e ↔ get s.portSessionsMap key = some e))
    (hown : ∀ key, get t.portSessionsMap key = some d →
      ∃ fd', fd = some fd' ∧ fd'.sourcePort.toUInt32 = key)
    (hfound : ∀ fd', fd = some fd' → fd'.bound →
      getUdpDescriptorByPort t fd'.sourcePort = some d)
    (hbound : ∀ fd', fd = some fd' → fd'.sourcePort ≠ 0 → fd'.bound) : Ledger t := by
  have hlive : ∀ key e, get t.portSessionsMap key = some e →
      ∃ fd', t.fds e = some fd' ∧ fd'.sourcePort.toUInt32 = key := by
    intro key e he
    rw [hfds]
    by_cases hed : e = d
    · subst hed
      rw [update_self]
      exact hown key he
    · rw [update_of_ne hed]
      exact h.ports.live key e ((hothers key e hed).1 he)
  have hsplit : ∀ {e fd'}, t.fds e = some fd' → e = d ∧ fd = some fd' ∨
      e ≠ d ∧ s.fds e = some fd' := by
    intro e fd' he
    rw [hfds] at he
    by_cases hed : e = d
    · subst hed
      rw [update_self] at he
      exact .inl ⟨rfl, he⟩
    · rw [update_of_ne hed] at he
      exact .inr ⟨hed, he⟩
  refine ⟨hsound, ⟨hlive, ?_, ?_⟩, ?_⟩
  · intro key key' e he he'
    obtain ⟨fd', hfd, rfl⟩ := hlive key e he
    obtain ⟨fd'', hfd', rfl⟩ := hlive key' e he'
    cases hfd.symm.trans hfd'
    rfl
  · intro e fd' he hb
    rcases hsplit he with ⟨rfl, hnew⟩ | ⟨hed, hold⟩
    · exact hfound fd' hnew hb
    · exact (hothers _ e hed).2 (h.ports.found e fd' hold hb)
  · intro e fd' he hp
    rcases hsplit he with ⟨rfl, hnew⟩ | ⟨hed, hold⟩
    · exact hbound fd' hnew hp
    · exact h.bound e fd' hold hp

lemma Ledger.unbound (h : Ledger s) (hsound : Sound t.portSessionsMap)
    (hfds : t.fds = update s.fds d (some ⟨0, false⟩)) (hothers : ∀ key e, e ≠ d →
      (get t.portSessionsMap key = some e ↔ get s.portSessionsMap key = some e))
    (hown : ∀ key, get t.portSessionsMap key = some d → key = 0) : Ledger t := by
  refine h.replace hsound hfds hothers (fun key hkey => ⟨_, rfl, (hown key hkey).symm⟩) ?_ ?_
  · rintro _ ⟨⟩ hb
    cases hb
  · rintro _ ⟨⟩ hp
    exact absurd rfl hp

lemma Ledger.get_close (h : Ledger s) (hd : s.fds d = some fd) :
    Sound (close s d fd).portSessionsMap ∧ ∀ key e,
      get (close s d fd).portSessionsMap key = some e ↔
        get s.portSessionsMap key = some e ∧ (e = d → fd.sourcePort = 0) := by
  by_cases hport : fd.sourcePort = 0
  · simp [close, hport, h.sound]
  have hown := h.ports.found d fd hd (h.bound d fd hd hport)
  obtain ⟨hsound, hget⟩ := get_remove h.sound fd.sourcePort.toUInt32
  have hmap : (close s d fd).portSessionsMap =
      (remove s.portSessionsMap fd.sourcePort.toUInt32).1 := if_pos hport
  rw [hmap]
  refine ⟨hsound, fun key e => ?_⟩
  rw [hget]
  constructor
  · intro he
    obtain ⟨hne, he⟩ := update_none_cases he
    refine ⟨he, fun hed => ?_⟩
    subst hed
    exact absurd (h.port_of_get hd he).symm hne
  · rintro ⟨he, hed⟩
    have hne : key ≠ fd.sourcePort.toUInt32 := by
      rintro rfl
      exact hport (hed (some.inj (he.symm.trans hown)))
    rw [update_of_ne hne, he]

lemma Ledger.close (h : Ledger s) (hd : s.fds d = some fd) : Ledger (close s d fd) := by
  obtain ⟨hsound, hget⟩ := h.get_close hd
  refine h.unbound hsound rfl ?_ ?_
  · intro key e hed
    rw [hget]
    exact and_iff_left fun heq => absurd heq hed
  · intro key hkey
    obtain ⟨hkey, hzero⟩ := (hget key d).1 hkey
    rw [← h.port_of_get hd hkey, hzero rfl]
    rfl

lemma Ledger.destroy (h : Ledger s) (hd : s.fds d = some fd)
    (hmap : t.portSessionsMap = (UdpPorts.close s d fd).portSessionsMap)
    (hfds : t.fds = update s.fds d none) : (getUdpDescriptorByPort s 0 ≠ some d → Ledger t) ∧
      (PortMap t → getUdpDescriptorByPort s 0 ≠ some d) := by
  obtain ⟨hsound, hget⟩ := h.get_close hd
  rw [← hmap] at hsound hget
  constructor
  · intro hnone
    refine h.replace hsound hfds ?_ ?_ (fun _ h => by cases h) (fun _ h => by cases h)
    · intro key e hed
      rw [hget]
      exact and_iff_left fun heq => absurd heq hed
    · intro key hkey
      obtain ⟨hkey, hzero⟩ := (hget key d).1 hkey
      have hport := h.port_of_get hd hkey
      rw [hzero rfl] at hport
      subst hport
      exact absurd hkey hnone
  · intro ht hzero
    have hport : fd.sourcePort = 0 := UInt16.toUInt32_inj.1 (h.port_of_get hd hzero)
    obtain ⟨fd', hfd', -⟩ := ht.live _ d ((hget _ d).2 ⟨hzero, fun _ => hport⟩)
    rw [hfds, update_self] at hfd'
    cases hfd'

lemma bind_cases {fuel : ℕ} {address rand : ℕ} {port : UInt16} {memory ok : Bool}
    (h : bind fuel s d address port rand memory = some (ok, t)) :
    t = s ∧ ¬(address = 0 ∧ getUdpDescriptorByPort s (bindPort port rand) = none) ∨
      (address = 0 ∧ getUdpDescriptorByPort s (bindPort port rand) = none) ∧
        t.fds = update s.fds d (some ⟨bindPort port rand, true⟩) ∧
        (if memory then put fuel s.portSessionsMap (bindPort port rand).toUInt32 d
          else some s.portSessionsMap) = some t.portSessionsMap := by
  by_cases haddress : address = 0
  · cases hfree : getUdpDescriptorByPort s (bindPort port rand) with
    | none =>
      simp only [bind, haddress, hfree] at h
      obtain ⟨map, hput, heq⟩ := map_eq_some_iff.1 h
      cases heq
      exact .inr ⟨⟨haddress, rfl⟩, rfl, hput⟩
    | some e =>
      simp only [bind, haddress, hfree] at h
      cases h
      exact .inl ⟨rfl, fun hnone => some_ne_none e hnone.2⟩
  · rw [bind, if_pos haddress] at h
    cases h
    exact .inl ⟨rfl, fun hzero => haddress hzero.1⟩

section Put

variable {s t : State} {d : ℕ} {fd : Descriptor} {p : UInt16}
  (hfree : getUdpDescriptorByPort s p = none)
  (hfds : t.fds = Function.update s.fds d (some ⟨p, true⟩))
  (hget : get t.portSessionsMap = Function.update (get s.portSessionsMap) p.toUInt32 (some d))

include hfree hget

lemma get_of_put_free {key : UInt32} {e : ℕ} (he : get s.portSessionsMap key = some e) :
    get t.portSessionsMap key = some e := by
  have hne : key ≠ p.toUInt32 := by
    rintro rfl
    cases he.symm.trans hfree
  rw [hget, update_of_ne hne, he]

include hfds

lemma Ledger.put_fresh (h : Ledger s) (hd : s.fds d = some fd) (hzero : fd.sourcePort = 0)
    (hnone : getUdpDescriptorByPort s 0 ≠ some d) (hsound : Sound t.portSessionsMap) :
    Ledger t := by
  refine h.replace hsound hfds ?_ ?_ ?_ ?_
  · intro key e hed
    refine ⟨fun he => ?_, get_of_put_free hfree hget⟩
    rw [hget] at he
    rcases update_some_cases he with ⟨-, rfl⟩ | ⟨-, he⟩
    · exact absurd rfl hed
    · exact he
  · intro key hkey
    rw [hget] at hkey
    rcases update_some_cases hkey with ⟨rfl, -⟩ | ⟨-, hkey⟩
    · exact ⟨_, rfl, rfl⟩
    have hport := h.port_of_get hd hkey
    rw [hzero] at hport
    subst hport
    exact absurd hkey hnone
  · rintro _ ⟨⟩ -
    show get t.portSessionsMap p.toUInt32 = some d
    rw [hget, update_self]
  · rintro _ ⟨⟩ -
    rfl

lemma Ledger.fresh_of_put (h : Ledger s) (hd : s.fds d = some fd) (ht : PortMap t) :
    fd.sourcePort = 0 ∧ getUdpDescriptorByPort s 0 ≠ some d := by
  have hself : t.fds d = some ⟨p, true⟩ := by rw [hfds, update_self]
  have hgone : ∀ key, get s.portSessionsMap key ≠ some d := by
    intro key hkey
    obtain ⟨fd', hfd', hport⟩ := ht.live key d (get_of_put_free hfree hget hkey)
    cases hself.symm.trans hfd'
    subst hport
    cases hkey.symm.trans hfree
  refine ⟨?_, hgone _⟩
  by_contra hport
  exact hgone _ (h.ports.found d fd hd (h.bound d fd hd hport))

end Put

variable {s t : State} {fuel : ℕ}

lemma Ledger.bind (h : Ledger s) {d address rand : ℕ} {fd : Descriptor}
    {port : UInt16} {memory ok : Bool} (hd : s.fds d = some fd)
    (hbind : bind fuel s d address port rand memory = some (ok, t)) :
    ((address = 0 → BindsFresh s d fd port rand memory) → Ledger t) ∧
      (PortMap t → address = 0 → BindsFresh s d fd port rand memory) := by
  rcases bind_cases hbind with ⟨rfl, hnot⟩ | ⟨⟨haddress, hfree⟩, hfds, hput⟩
  · exact ⟨fun _ => h, fun _ haddress hfree => absurd ⟨haddress, hfree⟩ hnot⟩
  cases memory with
  | false =>
    -- the descriptor has its port, and the map does not know it
    obtain hmap : s.portSessionsMap = t.portSessionsMap := some.inj hput
    refine ⟨fun hfresh => absurd (hfresh haddress hfree).1 Bool.false_ne_true, fun ht _ _ => ?_⟩
    have hself : t.fds d = some ⟨bindPort port rand, true⟩ := by rw [hfds, update_self]
    have hfound : get t.portSessionsMap (bindPort port rand).toUInt32 = some d :=
      ht.found d ⟨bindPort port rand, true⟩ hself rfl
    rw [← hmap] at hfound
    cases hfound.symm.trans hfree
  | true =>
    obtain ⟨hsound, hget⟩ := get_put h.sound (not_holeBefore_of_get h.sound hfree) hput
    constructor
    · intro hfresh
      obtain ⟨-, hzero, hnone⟩ := hfresh haddress hfree
      exact h.put_fresh hfree hfds hget hd hzero hnone hsound
    · intro ht _ _
      exact ⟨rfl, h.fresh_of_put hfree hfds hget hd ht⟩

lemma Ledger.step (h : Ledger s) {e : Event}
    (ht : step fuel s e = some t) : (Proper s e → Ledger t) ∧ (PortMap t → Proper s e) := by
  cases e with
  | create d =>
    simp only [UdpPorts.step] at ht
    split_ifs at ht with hd
    cases ht
    refine ⟨fun _ => ?_, fun _ => trivial⟩
    refine h.unbound h.sound rfl (fun _ _ _ => Iff.rfl) fun key hkey => ?_
    obtain ⟨fd, hfd, -⟩ := h.ports.live key d hkey
    cases hd.symm.trans hfd
  | bind d address port rand memory =>
    obtain ⟨fd, hd, ht⟩ := bind_eq_some_iff.1 ht
    obtain ⟨⟨ok, t⟩, hbind, rfl⟩ := map_eq_some_iff.1 ht
    simpa only [Proper, hd, mem_some_iff, forall_eq'] using h.bind hd hbind
  | sendto d address port rand nbuf memory =>
    obtain ⟨fd, hd, ht⟩ := bind_eq_some_iff.1 ht
    simp only [Proper, hd, mem_some_iff, forall_eq']
    unfold sendto at ht
    split_ifs at ht with hargs hnbuf hport
    · cases ht
      exact ⟨fun _ => h, fun _ hg => absurd hargs (not_or.2 ⟨hg.1, hg.2.1⟩)⟩
    · cases ht
      exact ⟨fun _ => h, fun _ hg => absurd (hg.2.2.1.symm.trans hnbuf) Bool.noConfusion⟩
    · obtain ⟨⟨ok, t⟩, hbind, rfl⟩ := map_eq_some_iff.1 ht
      obtain ⟨ha, hp⟩ := not_or.1 hargs
      simpa [ha, hp, hnbuf, hport] using h.bind hd hbind
    · cases ht
      exact ⟨fun _ => h, fun _ hg => absurd hg.2.2.2 hport⟩
  | close d =>
    obtain ⟨fd, hd, rfl⟩ := map_eq_some_iff.1 ht
    exact ⟨fun _ => h.close hd, fun _ => trivial⟩
  | destroy d =>
    obtain ⟨fd, hd, rfl⟩ := map_eq_some_iff.1 ht
    exact h.destroy hd rfl (update_idem _ _ _)

/-- In a sequence of calls that all return, map and descriptors agree throughout
exactly if every call meets the condition. -/
theorem udp_ports_iff (fuel : ℕ) (events : List Event) (s : State)
    (hrun : exec (step fuel) .boot events = some s) :
    Always (step fuel) PortMap .boot events ↔ Meets (step fuel) Proper .boot events :=
  always_iff_meets (I := Ledger) (fun _ h => h.ports) (fun _ _ _ h ht => h.step ht) .boot hrun

def serverAndClient : List Event :=
  [.create 0, .bind 0 0 53 0 true, .create 1, .sendto 1 10 53 40000 true true, .close 0,
    .bind 0 0 123 0 true, .destroy 1, .destroy 0]

theorem udp_ports_server_and_client :
    (∃ s, exec (step 1) .boot serverAndClient = some s) ∧
      Always (step 1) PortMap .boot serverAndClient := by
  have hrun : (exec (step 1) .boot serverAndClient).isSome := by decide +kernel
  obtain ⟨s, hs⟩ := isSome_iff_exists.1 hrun
  exact ⟨⟨s, hs⟩, (udp_ports_iff 1 serverAndClient s hs).2 (meets_of_check (by decide +kernel))⟩

def boundTwice : List Event :=
  [.create 0, .bind 0 0 80 0 true, .bind 0 0 81 0 true, .destroy 0]

/-- The entry of the first port is still there when the descriptor is gone. -/
theorem udp_port_left_behind :
    (exec (step 1) .boot boundTwice).map
        (fun s => (getUdpDescriptorByPort s 80, s.fds 0)) = some (some 0, none) ∧
      ¬Always (step 1) PortMap .boot boundTwice := by
  have hrun : (exec (step 1) .boot boundTwice).map
      (fun s => (getUdpDescriptorByPort s 80, s.fds 0)) = some (some 0, none) := by
    decide +kernel
  refine ⟨hrun, fun h => ?_⟩
  obtain ⟨s, hs, heq⟩ := map_eq_some_iff.1 hrun
  obtain ⟨hentry, hgone⟩ := Prod.mk.inj heq
  obtain ⟨fd, hfd, -⟩ := (h.last hs).live _ 0 hentry
  cases hgone.symm.trans hfd

end GzOS.UdpPorts
