import GzOS.HashMapWalk
import GzOS.NetBuffers
import GzOS.Runs

/-!
# The ARP cache

One cache holds the addresses of this host, marked static, and those learned from ARP
responses and from accepted IP packets. A tick counts every dynamic entry down and removes
it from the table that is being walked. The last packet that set an entry and the ticks
since determine it. An ARP packet counts as sent when it is handed to
`ethernet_send_packet`.
-/
namespace GzOS.Arp
open Net Runs ProbeTable Function Option List UInt32
open Net.World (arpIsValid arpOperation arpSenderIp arpTargetIp sizeofArp etherType)
open HashMap (HashmapMap hashmapNew hashmapNew_sound put get remove modify hashmapIterate Sound
  Capped Local Written generateKey generateKey_injective get_eq_some_iff get_put get_remove
  get_modify holds_modify hashmapPut_spec hashmapPut_capped not_holeBefore_of_get)

/-- `EthernetDevice`; the name is a C string in 16 characters. -/
structure Device where
  name : List Char
  phy : List Char
  mac : List Byte
  named : name.length ≤ 15

structure NetInterface where
  device : List Char
  address : UInt32
  netmask : UInt32
  deriving DecidableEq, Repr

structure RouteEntry where
  destAddr : UInt32
  netmask : UInt32
  iface : NetInterface
  deriving DecidableEq, Repr

structure ArpCacheEntry where
  mac : List Byte
  ip : UInt32
  device : List Char
  timeoutSeconds : ℤ
  isStatic : Bool
  deriving DecidableEq, Repr

/-- Without the four fields that are the same in every packet. -/
structure ArpPacket where
  operation : ℕ
  senderMac : List Byte
  senderIp : UInt32
  targetMac : List Byte
  targetIp : UInt32
  deriving DecidableEq, Repr

structure Host where
  interfaces : List NetInterface
  routes : List RouteEntry
  cache : HashmapMap ArpCacheEntry
  sent : List ArpPacket

def Host.boot : Host := ⟨[], [], hashmapNew, []⟩

def opRequest : ℕ := 1
def opResponse : ℕ := 2

/-- What an entry that was just set has left, in seconds. -/
def timeout : ℤ := 300

/-- `strncpy` into a field of 16 characters that ends with a zero. -/
def copyName (name : List Char) : List Char := name.take 15

def zeroMac : List Byte := replicate 6 0

def macAt (f : Frame) (pos : ℕ) : List Byte := (range 6).map fun i => f.memory (pos + i)

/-! ## The cache -/

/-- `none` if the put does not return within the fuel; `memory` is that for a new entry. -/
def arpSetEntry (fuel : ℕ) (cache : HashmapMap ArpCacheEntry) (devName : List Char)
    (mac : List Byte) (ip : UInt32) (memory : Bool) : Option (HashmapMap ArpCacheEntry) :=
  match get cache ip with
  | some entry =>
    if entry.isStatic then some cache
    else some (modify cache ip fun entry =>
      { entry with timeoutSeconds := timeout, device := copyName devName, mac := mac })
  | none =>
    if memory then put fuel cache ip ⟨mac, ip, copyName devName, timeout, false⟩
    else some cache

def arpSetStatic (cache : HashmapMap ArpCacheEntry) (ip : UInt32) :
    ℤ × HashmapMap ArpCacheEntry :=
  match get cache ip with
  | none => (-1, cache)
  | some _ => (0, modify cache ip fun entry => { entry with isStatic := true })

def arpGetHwaddr (cache : HashmapMap ArpCacheEntry) (ip : UInt32) : Option (List Byte) :=
  (get cache ip).map ArpCacheEntry.mac

/-- The callback: the element is counted down in place and removed at zero. -/
def ageSlot (m : HashmapMap ArpCacheEntry) (i : ℕ) (e : Entry (List Char) ArpCacheEntry) :
    HashmapMap ArpCacheEntry :=
  if e.data.isStatic then m
  else
    let left := e.data.timeoutSeconds - 1
    let m := { m with
      data := Function.update m.data i (some ⟨e.key, { e.data with timeoutSeconds := left }⟩) }
    if 0 ≥ left then (remove m e.data.ip).1 else m

def arpTimeoutCallback (cache : HashmapMap ArpCacheEntry) : HashmapMap ArpCacheEntry :=
  hashmapIterate ageSlot cache

section Devices

variable (devices : List Device)

def findDevice (name : List Char) : Option Device := devices.find? fun device => device.name == name

def findDeviceByPhy (phy : List Char) : Option Device :=
  devices.find? fun device => device.phy == phy

def ethernetDeviceHwaddr (devName : List Char) : Option (List Byte) :=
  (findDevice devices devName).map Device.mac

/-! ## Sending -/

def ipRouteLookup (routes : List RouteEntry) (ip : UInt32) : Option RouteEntry :=
  routes.find? fun route => route.destAddr &&& route.netmask == ip &&& route.netmask

/-- `granted` is the answer of the pools. -/
def arpSendRequest (h : Host) (ip : UInt32) (granted : Bool) : Bool × Host :=
  match ipRouteLookup h.routes ip with
  | none => (false, h)
  | some route =>
    match ethernetDeviceHwaddr devices route.iface.device with
    | none => (false, h)
    | some mac =>
      if granted then
        (true, { h with
          sent := h.sent ++ [⟨opRequest, mac, route.iface.address, zeroMac, ip⟩] })
      else (false, h)

/-- Without the callback; `context` is the answer of the pools for the context. -/
def arpResolve (h : Host) (ip : UInt32) (context granted : Bool) : Bool × Host :=
  if (arpGetHwaddr h.cache ip).isSome then (true, h)
  else if context = false then (false, h)
  else arpSendRequest devices h ip granted

/-- Without the callback; `rounds` is what the context holds before. -/
def arpResolveRound (h : Host) (ip : UInt32) (rounds : ℤ) (granted : Bool) : Host :=
  if (arpGetHwaddr h.cache ip).isSome then h
  else if 0 ≥ rounds - 1 then h
  else if (rounds - 1) % 2 = 0 then (arpSendRequest devices h ip granted).2
  else h

/-! ## Receiving -/

variable (fuel : ℕ)

def arpHandleRequest (h : Host) (f : Frame) (granted : Bool) : Host :=
  match get h.cache (ofNat (arpTargetIp f)) with
  | none => h
  | some entry =>
    if granted then
      { h with
        sent := h.sent ++ [⟨opResponse, entry.mac, entry.ip, macAt f (l3Offset + 8),
          ofNat (arpSenderIp f)⟩] }
    else h

def arpHandleResponse (h : Host) (devName : List Char) (f : Frame) (memory : Bool) :
    Option Host :=
  (arpSetEntry fuel h.cache devName (macAt f (l3Offset + 8)) (ofNat (arpSenderIp f))
    memory).map fun cache => { h with cache := cache }

def arpHandler (h : Host) (devName : List Char) (f : Frame) (granted memory : Bool) :
    Option Host :=
  if f.size - l3Offset < sizeofArp then some h
  else if arpIsValid f = false then some h
  else if arpOperation f = opRequest then some (arpHandleRequest h f granted)
  else arpHandleResponse fuel h devName f memory

def ipHintArpCache (h : Host) (devName : List Char) (f : Frame) (memory : Bool) : Option Host :=
  (arpSetEntry fuel h.cache devName (macAt f 6) (ofNat f.saddr) memory).map fun cache =>
    { h with cache := cache }

/-- Up to the hint; what follows reaches the cache through resolutions only. -/
def ipInput (h : Host) (devName : List Char) (f : Frame) (memory : Bool) : Option Host := do
  let (accepted, _) ← ipAccepts f []
  if accepted = false then return h
  ipHintArpCache fuel h devName f memory

def addressed (device : Device) (f : Frame) : Bool :=
  !((f.memory 0).toNat % 2 == 0 && macAt f 0 != device.mac)

/-- A failed assertion is `none`. -/
def ethernetRx (h : Host) (phy : List Char) (f : Frame) (granted memory : Bool) : Option Host :=
  if etherType f = 0x0806 ∨ etherType f = 0x0800 then
    match findDeviceByPhy devices phy with
    | none => none
    | some device =>
      if addressed device f = false then some h
      else if etherType f = 0x0806 then arpHandler fuel h device.name f granted memory
      else ipInput fuel h device.name f memory
  else some h

/-! ## Interfaces -/

def findInterface (h : Host) (device : List Char) : Option NetInterface :=
  h.interfaces.find? fun iface => iface.device == device

/-- An unknown device has the address that the local variable starts with. -/
def interfaceAdd (h : Host) (device : List Char) (ip netmask : UInt32) (memory : Bool) :
    Option Host :=
  if (findInterface h device).isSome then some h
  else
    let iface : NetInterface := ⟨copyName device, ip, netmask⟩
    let mac := (ethernetDeviceHwaddr devices device).getD zeroMac
    (arpSetEntry fuel h.cache device mac ip memory).map fun cache =>
      { h with
        interfaces := h.interfaces ++ [iface]
        routes := h.routes ++ [⟨ip &&& netmask, netmask, iface⟩]
        cache := (arpSetStatic cache ip).2 }

inductive Event
  | frame (phy : List Char) (f : Frame) (granted memory : Bool)
  | addInterface (device : List Char) (ip netmask : UInt32) (memory : Bool)
  | tick
  | resolve (ip : UInt32) (context granted : Bool)
  | round (ip : UInt32) (rounds : ℤ) (granted : Bool)

def step (h : Host) : Event → Option Host
  | .frame phy f granted memory => ethernetRx devices fuel h phy f granted memory
  | .addInterface device ip netmask memory => interfaceAdd devices fuel h device ip netmask memory
  | .tick => some { h with cache := arpTimeoutCallback h.cache }
  | .resolve ip context granted => some (arpResolve devices h ip context granted).2
  | .round ip rounds granted => some (arpResolveRound devices h ip rounds granted)

structure Lesson where
  ip : UInt32
  mac : List Byte
  device : List Char
  deriving DecidableEq, Repr

def lesson (phy : List Char) (f : Frame) : Option Lesson :=
  (findDeviceByPhy devices phy).bind fun device =>
    if addressed device f = false then none
    else if etherType f = 0x0806 ∧ sizeofArp ≤ f.size - l3Offset ∧ arpIsValid f = true ∧
        arpOperation f ≠ opRequest then
      some ⟨ofNat (arpSenderIp f), macAt f (l3Offset + 8), device.name⟩
    else if etherType f = 0x0800 ∧ HeaderAccepted f then
      some ⟨ofNat f.saddr, macAt f 6, device.name⟩
    else none

/-- A packet teaches the lesson, and there is an entry or memory for it. -/
def Sets (h : Host) (l : Lesson) : Event → Prop
  | .frame phy f _ memory =>
    lesson devices phy f = some l ∧ ((get h.cache l.ip).isSome = true ∨ memory = true)
  | _ => False

def Event.isTick : Event → Bool
  | .tick => true
  | _ => false

def ticks (events : List Event) : ℕ := events.countP Event.isTick

/-- The lesson was taught, and no packet in `later` set its address. -/
def LastSet (h : Host) (events : List Event) (l : Lesson) (later : List Event) : Prop :=
  ∃ before ev h₁ h₂, events = before ++ ev :: later ∧
    exec (step devices fuel) h before = some h₁ ∧ step devices fuel h₁ ev = some h₂ ∧
    Sets devices h₁ l ev ∧
    Meets (step devices fuel) (fun h ev => ∀ l', l'.ip = l.ip → ¬ Sets devices h l' ev) h₂ later

def aged (entry : ArpCacheEntry) : Option ArpCacheEntry :=
  if entry.isStatic then some entry
  else if entry.timeoutSeconds ≤ 1 then none
  else some { entry with timeoutSeconds := entry.timeoutSeconds - 1 }

/-- At the end of a run from boot static entries are what they were, any other entry is
there exactly if fewer than 300 ticks followed the last packet that set it, and says what
that said; every tick ages each entry once. -/
structure Ages (events : List Event) (h : Host) : Prop where
  static : ∀ before later h₁ ip entry, events = before ++ later →
    exec (step devices fuel) Host.boot before = some h₁ → get h₁.cache ip = some entry →
    entry.isStatic = true → get h.cache ip = some entry
  dynamic : ∀ l : Lesson, (∀ entry, get h.cache l.ip = some entry → entry.isStatic = false) →
    ((∃ entry, get h.cache l.ip = some entry ∧ entry.mac = l.mac ∧ entry.device = l.device) ↔
      ∃ later, LastSet devices fuel Host.boot events l later ∧ ticks later < 300)
  tick : ∀ before later h₁, events = before ++ .tick :: later →
    exec (step devices fuel) Host.boot before = some h₁ →
    ∃ h₂, step devices fuel h₁ .tick = some h₂ ∧ ∀ ip, get h₂.cache ip = (get h₁.cache ip).bind aged

end Devices

/-! ## The cache as a finite map -/

structure Cached (m : HashmapMap ArpCacheEntry) : Prop where
  sound : Sound m
  capped : Capped m
  keyed : ∀ k entry, Holds m.data k entry → k = generateKey entry.ip

variable {m m' : HashmapMap ArpCacheEntry} {ip : UInt32} {entry : ArpCacheEntry}

lemma cached_new : Cached hashmapNew := by
  refine ⟨hashmapNew_sound, HashMap.capped_empty _, ?_⟩
  rintro k entry ⟨i, hi⟩
  cases hi

lemma Cached.ip_of_get (hm : Cached m) (h : get m ip = some entry) : entry.ip = ip :=
  (generateKey_injective (hm.keyed _ entry ((get_eq_some_iff hm.sound).1 h))).symm

lemma Cached.modify (hm : Cached m) (ip : UInt32) {f : ArpCacheEntry → ArpCacheEntry}
    (hf : ∀ entry, (f entry).ip = entry.ip) : Cached (modify m ip f) := by
  obtain ⟨hsound, hholds⟩ := holds_modify hm.sound ip f
  refine ⟨hsound, hm.capped.modify ip f, fun k entry hk => ?_⟩
  rw [hholds] at hk
  split_ifs at hk
  · obtain ⟨w, hw, rfl⟩ := hk
    rw [hf]
    exact hm.keyed k w hw
  · exact hm.keyed k entry hk

lemma Cached.put (hm : Cached m) {fuel : ℕ} (hnone : get m ip = none)
    (h : put fuel m ip entry = some m') (hip : entry.ip = ip) :
    Cached m' ∧ get m' = update (get m) ip (some entry) := by
  have hhole := not_holeBefore_of_get hm.sound hnone
  obtain ⟨hsound, hwritten⟩ := hashmapPut_spec hm.sound hhole h
  refine ⟨⟨hsound, hashmapPut_capped hm.capped h, fun k e hk => ?_⟩, (get_put hm.sound hhole h).2⟩
  rw [hwritten] at hk
  split_ifs at hk with hkey
  · rw [hk, hkey, hip]
  · exact hm.keyed k e hk

def written (devName : List Char) (mac : List Byte) (ip : UInt32) (memory : Bool) :
    Option ArpCacheEntry → Option ArpCacheEntry
  | some entry =>
    if entry.isStatic then some entry else some ⟨mac, ip, copyName devName, timeout, false⟩
  | none => if memory then some ⟨mac, ip, copyName devName, timeout, false⟩ else none

variable {memory : Bool} {i : ℕ} {f : Frame}

lemma arpSetEntry_spec (hm : Cached m) {fuel : ℕ} {devName : List Char} {mac : List Byte}
    (h : arpSetEntry fuel m devName mac ip memory = some m') :
    Cached m' ∧ get m' = update (get m) ip (written devName mac ip memory (get m ip)) := by
  unfold arpSetEntry at h
  cases hget : get m ip with
  | some entry =>
    rw [hget] at h
    by_cases hstatic : entry.isStatic
    · simp only [hstatic, if_true, some.injEq] at h
      subst h
      refine ⟨hm, (update_eq_self_iff.2 ?_).symm⟩
      rw [written, if_pos hstatic, hget]
    · simp only [hstatic, if_false, some.injEq, Bool.false_eq_true] at h
      subst h
      refine ⟨hm.modify ip fun _ => rfl, ?_⟩
      rw [get_modify hm.sound, hget, map_some, written, if_neg hstatic]
      have hip := hm.ip_of_get hget
      have hdynamic : entry.isStatic = false := by simpa using hstatic
      rw [hip, hdynamic]
  | none =>
    rw [hget] at h
    cases memory with
    | false =>
      cases h
      exact ⟨hm, (update_eq_self_iff.2 hget.symm).symm⟩
    | true => exact hm.put hget h rfl

lemma arpSetStatic_spec (hm : Cached m) (ip : UInt32) :
    Cached (arpSetStatic m ip).2 ∧ get (arpSetStatic m ip).2 =
      update (get m) ip ((get m ip).map fun entry => { entry with isStatic := true }) := by
  cases hget : get m ip with
  | none =>
    have hsame : (arpSetStatic m ip).2 = m := by simp only [arpSetStatic, hget]
    rw [hsame]
    exact ⟨hm, (update_eq_self_iff.2 hget.symm).symm⟩
  | some entry =>
    have hmodify : (arpSetStatic m ip).2 =
        HashMap.modify m ip fun entry => { entry with isStatic := true } := by
      simp only [arpSetStatic, hget]
    rw [hmodify, get_modify hm.sound, hget]
    exact ⟨hm.modify ip fun _ => rfl, rfl⟩

/-! ### A tick -/

def agedSlot (e : Entry (List Char) ArpCacheEntry) : Option (Entry (List Char) ArpCacheEntry) :=
  (aged e.data).map fun entry => ⟨e.key, entry⟩

lemma aged_static (h : entry.isStatic) : aged entry = some entry := by
  rw [aged, if_pos h]

def countDown (m : HashmapMap ArpCacheEntry) (i : ℕ) (e : Entry (List Char) ArpCacheEntry) :
    HashmapMap ArpCacheEntry :=
  { m with
    data := Function.update m.data i
      (some ⟨e.key, { e.data with timeoutSeconds := e.data.timeoutSeconds - 1 }⟩) }

lemma countDown_self (m : HashmapMap ArpCacheEntry) (i : ℕ)
    (e : Entry (List Char) ArpCacheEntry) : (countDown m i e).data i =
      some ⟨e.key, { e.data with timeoutSeconds := e.data.timeoutSeconds - 1 }⟩ :=
  update_self ..

lemma countDown_of_ne (m : HashmapMap ArpCacheEntry) {j : ℕ} (hji : j ≠ i)
    (e : Entry (List Char) ArpCacheEntry) : (countDown m i e).data j = m.data j :=
  update_of_ne hji ..

variable {e : Entry (List Char) ArpCacheEntry} {granted : Bool} {phy : List Char}

lemma countDown_sound (hm : Sound m) (hi : m.data i = some e) : Sound (countDown m i e) := by
  refine ⟨hm.pos, hm.valid.of_keys fun j e' hj => ?_⟩
  by_cases hji : j = i
  · subst hji
    rw [countDown_self] at hj
    cases hj
    exact ⟨e, hi, rfl⟩
  · rw [countDown_of_ne m hji] at hj
    exact ⟨e', hj, rfl⟩

lemma countDown_capped (hm : Capped m) (hi : m.data i = some e) :
    Capped (countDown m i e) := by
  refine hm.of_used (fun j hj => ?_) rfl
  rw [HashMap.mem_used] at hj ⊢
  refine ⟨hj.1, ?_⟩
  by_cases hji : j = i
  · rw [hji, hi]
    rfl
  · have hsome := hj.2
    rwa [countDown_of_ne m hji] at hsome

lemma remove_countDown (hm : Sound m) (hi : m.data i = some e)
    (hkey : e.key = generateKey e.data.ip) :
    (remove (countDown m i e) e.data.ip).1 =
      { m with data := update m.data i none, size := m.size - 1 } := by
  have hslot : (countDown m i e).data i = some ⟨generateKey e.data.ip,
      { e.data with timeoutSeconds := e.data.timeoutSeconds - 1 }⟩ := by
    rw [countDown_self, hkey]
  rw [HashMap.remove_of_locate ((countDown_sound hm hi).valid.locate hslot)]
  simp [countDown]

lemma ageSlot_cases (m : HashmapMap ArpCacheEntry) (i : ℕ) (e : Entry (List Char) ArpCacheEntry) :
    (e.data.isStatic ∧ ageSlot m i e = m ∧ agedSlot e = some e) ∨
      (ageSlot m i e = (remove (countDown m i e) e.data.ip).1 ∧ agedSlot e = none) ∨
      (ageSlot m i e = countDown m i e ∧ agedSlot e =
          some ⟨e.key, { e.data with timeoutSeconds := e.data.timeoutSeconds - 1 }⟩) := by
  by_cases hstatic : e.data.isStatic
  · exact .inl ⟨hstatic, if_pos hstatic, by rw [agedSlot, aged_static hstatic, map_some]⟩
  by_cases hleft : e.data.timeoutSeconds ≤ 1
  · refine .inr (.inl ⟨?_, ?_⟩)
    · rw [ageSlot, if_neg hstatic]
      exact if_pos (show 0 ≥ e.data.timeoutSeconds - 1 by omega)
    · rw [agedSlot, aged, if_neg hstatic, if_pos hleft, map_none]
  · refine .inr (.inr ⟨?_, ?_⟩)
    · rw [ageSlot, if_neg hstatic]
      exact if_neg (show ¬ 0 ≥ e.data.timeoutSeconds - 1 by omega)
    · rw [agedSlot, aged, if_neg hstatic, if_neg hleft, map_some]

lemma ageSlot_local : Local (fun e => e.key = generateKey e.data.ip) ageSlot agedSlot where
  size m i e hm hi hkey := by
    rcases ageSlot_cases m i e with ⟨-, hf, -⟩ | ⟨hf, -⟩ | ⟨hf, -⟩
    · rw [hf]
    · rw [hf, remove_countDown hm hi hkey]
    · rw [hf]
      rfl
  data m i e hm hi hkey := by
    rcases ageSlot_cases m i e with ⟨-, hf, hg⟩ | ⟨hf, hg⟩ | ⟨hf, hg⟩
    · rw [hf, hg, ← hi, update_eq_self]
    · rw [hf, hg, remove_countDown hm hi hkey]
    · rw [hf, hg]
      rfl
  capped m i e hm hi hkey hc := by
    rcases ageSlot_cases m i e with ⟨-, hf, -⟩ | ⟨hf, -⟩ | ⟨hf, -⟩
    · rwa [hf]
    · rw [hf, remove_countDown hm hi hkey]
      have hlt : i < m.tableSize := HashMap.probes_lt hm.pos (hm.valid.placed i e hi)
      exact hc.clear (HashMap.mem_used.2 ⟨hlt, by rw [hi]; rfl⟩)
    · rw [hf]
      exact countDown_capped hc hi
  key e e' h := by
    obtain ⟨entry, -, rfl⟩ := map_eq_some_iff.1 h
    rfl

lemma arpTimeoutCallback_spec (hm : Cached m) :
    Cached (arpTimeoutCallback m) ∧
      get (arpTimeoutCallback m) = fun ip => (get m ip).bind aged := by
  have hgood : ∀ i e, m.data i = some e → e.key = generateKey e.data.ip :=
    fun i e hi => hm.keyed e.key e.data ⟨i, hi⟩
  obtain ⟨hsound, hcapped, hdata⟩ :=
    HashMap.hashmapIterate_spec ageSlot_local hm.sound hm.capped hgood
  refine ⟨⟨hsound, hcapped, ?_⟩, funext fun ip => ?_⟩
  · rintro k entry ⟨i, hi⟩
    have hslot := (hdata i).symm.trans hi
    obtain ⟨e, he, hg⟩ := bind_eq_some_iff.1 hslot
    obtain ⟨entry', hentry', heq⟩ := map_eq_some_iff.1 hg
    cases heq
    unfold aged at hentry'
    split_ifs at hentry' <;> cases hentry' <;> exact hgood i e he
  · refine (HashMap.get_hashmapIterate ageSlot_local hm.sound hm.capped hgood ip).trans ?_
    refine congrArg (get m ip).bind (funext fun entry => ?_)
    simp [agedSlot, comp_def]

/-! ## What a step makes of one entry -/

section Steps

variable {devices : List Device} {fuel : ℕ} {h h' : Host} {ev : Event}

lemma copyName_name (device : Device) : copyName device.name = device.name :=
  take_of_length_le device.named

def Requests (h h' : Host) : Prop :=
  ∃ packets, (∀ p ∈ packets, p.operation = opRequest) ∧ h' = { h with sent := h.sent ++ packets }

lemma requests_refl (h : Host) : Requests h h := ⟨[], by simp, by simp⟩

lemma arpSendRequest_requests (h : Host) (ip : UInt32) (granted : Bool) :
    Requests h (arpSendRequest devices h ip granted).2 := by
  unfold arpSendRequest
  split
  · exact requests_refl h
  split
  · exact requests_refl h
  · split_ifs
    · exact ⟨_, fun p hp => mem_singleton.1 hp ▸ rfl, rfl⟩
    · exact requests_refl h

lemma arpResolve_requests (h : Host) (ip : UInt32) (context granted : Bool) :
    Requests h (arpResolve devices h ip context granted).2 := by
  unfold arpResolve
  split_ifs
  · exact requests_refl h
  · exact requests_refl h
  · exact arpSendRequest_requests h ip granted

lemma arpResolveRound_requests (h : Host) (ip : UInt32) (rounds : ℤ) (granted : Bool) :
    Requests h (arpResolveRound devices h ip rounds granted) := by
  unfold arpResolveRound
  split_ifs
  · exact requests_refl h
  · exact requests_refl h
  · exact arpSendRequest_requests h ip granted
  · exact requests_refl h

def Learns (fuel : ℕ) (h : Host) (l : Lesson) (memory : Bool) (h' : Host) : Prop :=
  ∃ cache, arpSetEntry fuel h.cache l.device l.mac l.ip memory = some cache ∧
    h' = { h with cache := cache }

lemma ipInput_cases {device : Device} (hin : ipInput fuel h device.name f memory = some h') :
    (¬ HeaderAccepted f ∧ h' = h) ∨ HeaderAccepted f ∧
        Learns fuel h ⟨ofNat f.saddr, macAt f 6, device.name⟩ memory h' := by
  have haccepts := yields_ipAccepts f []
  by_cases ha : HeaderAccepted f
  · simp only [ipInput, haccepts, ha] at hin
    obtain ⟨cache, hset, rfl⟩ := map_eq_some_iff.1 hin
    exact .inr ⟨ha, cache, hset, rfl⟩
  · simp only [ipInput, haccepts, ha] at hin
    exact .inl ⟨ha, (some.inj hin).symm⟩

def ArpAccepted (f : Frame) : Prop := sizeofArp ≤ f.size - l3Offset ∧ arpIsValid f = true

instance (f : Frame) : Decidable (ArpAccepted f) := inferInstanceAs (Decidable (_ ∧ _))

lemma arpHandler_cases {device : Device}
    (hin : arpHandler fuel h device.name f granted memory = some h') :
    (¬ ArpAccepted f ∧ h' = h) ∨
      (ArpAccepted f ∧ arpOperation f = opRequest ∧ h' = arpHandleRequest h f granted) ∨
      ArpAccepted f ∧ arpOperation f ≠ opRequest ∧
        Learns fuel h ⟨ofNat (arpSenderIp f), macAt f (l3Offset + 8), device.name⟩
          memory h' := by
  unfold arpHandler at hin
  split_ifs at hin with hsize hvalid hop
  · exact .inl ⟨fun ha => absurd ha.1 (by omega), (some.inj hin).symm⟩
  · exact .inl ⟨fun ha => by simp [ha.2] at hvalid, (some.inj hin).symm⟩
  · refine .inr (.inl ⟨⟨by omega, by simpa using hvalid⟩, hop, (some.inj hin).symm⟩)
  · obtain ⟨cache, hset, rfl⟩ := map_eq_some_iff.1 hin
    exact .inr (.inr ⟨⟨by omega, by simpa using hvalid⟩, hop, cache, hset, rfl⟩)

def Asks (devices : List Device) (phy : List Char) (f : Frame) : Prop :=
  etherType f = 0x0806 ∧ (findDeviceByPhy devices phy).any (addressed · f) = true ∧
    ArpAccepted f ∧ arpOperation f = opRequest

instance (devices : List Device) (phy : List Char) (f : Frame) : Decidable (Asks devices phy f) :=
  inferInstanceAs (Decidable (_ ∧ _ ∧ _ ∧ _))

/-- A frame teaches nothing, or one mapping. -/
lemma ethernetRx_cases (hin : ethernetRx devices fuel h phy f granted memory = some h') :
    (lesson devices phy f = none ∧
      (h' = h ∨ Asks devices phy f ∧ h' = arpHandleRequest h f granted)) ∨
    ∃ l, lesson devices phy f = some l ∧ copyName l.device = l.device ∧
      Learns fuel h l memory h' := by
  unfold ethernetRx at hin
  by_cases htype : etherType f = 0x0806 ∨ etherType f = 0x0800
  · rw [if_pos htype] at hin
    cases hdevice : findDeviceByPhy devices phy with
    | none =>
      rw [hdevice] at hin
      cases hin
    | some device =>
      simp only [hdevice] at hin
      simp only [lesson, hdevice, bind_some]
      split_ifs at hin with haddr harp
      · exact .inl ⟨if_pos haddr, .inl (some.inj hin).symm⟩
      · have hip : ¬ (etherType f = 0x0800 ∧ HeaderAccepted f) := fun hip => by
          omega
        rw [if_neg haddr, if_neg hip]
        rcases arpHandler_cases hin with ⟨hnot, rfl⟩ | ⟨ha, hop, rfl⟩ | ⟨ha, hop, hl⟩
        · exact .inl ⟨if_neg fun hall => hnot ⟨hall.2.1, hall.2.2.1⟩, .inl rfl⟩
        · refine .inl ⟨if_neg fun hall => hall.2.2.2 hop, .inr ⟨⟨harp, ?_, ha, hop⟩, rfl⟩⟩
          rw [hdevice]
          simpa using haddr
        · exact .inr ⟨_, if_pos ⟨harp, ha.1, ha.2, hop⟩, copyName_name device, hl⟩
      · have hip : etherType f = 0x0800 := htype.resolve_left harp
        rw [if_neg haddr, if_neg fun hall => harp hall.1]
        rcases ipInput_cases hin with ⟨hnot, rfl⟩ | ⟨ha, hl⟩
        · exact .inl ⟨if_neg fun hall => hnot hall.2, .inl rfl⟩
        · exact .inr ⟨_, if_pos ⟨hip, ha⟩, copyName_name device, hl⟩
  · rw [if_neg htype] at hin
    refine .inl ⟨?_, .inl (some.inj hin).symm⟩
    cases hdevice : findDeviceByPhy devices phy with
    | none => rw [lesson, hdevice, Option.bind_none]
    | some device =>
      obtain ⟨harp, hip⟩ := not_or.1 htype
      simp [lesson, harp, hip]

def target (f : Frame) : UInt32 := ofNat (arpTargetIp f)

/-- A request, or the answer to one from the cache. -/
def Sends (devices : List Device) (h : Host) (ev : Event) (p : ArpPacket) : Prop :=
  p.operation = opRequest ∨ ∃ phy f memory entry, ev = .frame phy f true memory ∧
    Asks devices phy f ∧ get h.cache (target f) = some entry ∧
    p.senderMac = entry.mac ∧ p.senderIp = entry.ip

structure Joins (devices : List Device) (h : Host) (device : List Char) (ip netmask : UInt32)
    (memory : Bool) (h' : Host) : Prop where
  absent : findInterface h device = none
  interfaces : h'.interfaces = h.interfaces ++ [⟨copyName device, ip, netmask⟩]
  sent : h'.sent = h.sent
  cached : Cached h'.cache
  get : get h'.cache = Function.update (HashMap.get h.cache) ip
    ((written device ((ethernetDeviceHwaddr devices device).getD zeroMac) ip memory
      (HashMap.get h.cache ip)).map fun entry => { entry with isStatic := true })

variable {device : List Char} {netmask : UInt32}

lemma interfaceAdd_cases (hc : Cached h.cache)
    (hadd : interfaceAdd devices fuel h device ip netmask memory = some h') :
    h' = h ∨ Joins devices h device ip netmask memory h' := by
  unfold interfaceAdd at hadd
  split_ifs at hadd with hfind
  · exact .inl (some.inj hadd).symm
  obtain ⟨cache, hset, rfl⟩ := map_eq_some_iff.1 hadd
  obtain ⟨hcached, hget⟩ := arpSetEntry_spec hc hset
  obtain ⟨hcached', hget'⟩ := arpSetStatic_spec hcached ip
  refine .inr ⟨by simpa using hfind, rfl, rfl, hcached', ?_⟩
  simp [hget', hget]

/-- It sends packets and sets nothing, is a tick, learns, or adds an interface. -/
inductive Does (devices : List Device) (fuel : ℕ) (h : Host) : Event → Host → Prop
  | sends {ev : Event} (packets : List ArpPacket) (hsets : ∀ l, ¬ Sets devices h l ev)
    (htick : ev.isTick = false) (hsends : ∀ p ∈ packets, Sends devices h ev p) :
    Does devices fuel h ev { h with sent := h.sent ++ packets }
  | ticks : Does devices fuel h .tick { h with cache := arpTimeoutCallback h.cache }
  | learns {phy : List Char} {f : Frame} {granted memory : Bool} {l : Lesson}
    {cache : HashmapMap ArpCacheEntry} (hlesson : lesson devices phy f = some l)
    (hname : copyName l.device = l.device)
    (hset : arpSetEntry fuel h.cache l.device l.mac l.ip memory = some cache) :
    Does devices fuel h (.frame phy f granted memory) { h with cache := cache }
  | joins {device : List Char} {ip netmask : UInt32} {memory : Bool} {h' : Host}
    (hjoins : Joins devices h device ip netmask memory h') :
    Does devices fuel h (.addInterface device ip netmask memory) h'

lemma Requests.does (hr : Requests h h') (hsets : ∀ l, ¬ Sets devices h l ev)
    (htick : ev.isTick = false) : Does devices fuel h ev h' := by
  obtain ⟨packets, hp, rfl⟩ := hr
  exact .sends packets hsets htick fun p hmem => .inl (hp p hmem)

lemma arpHandleRequest_does (granted memory : Bool) (hnone : lesson devices phy f = none)
    (hasks : Asks devices phy f) :
    Does devices fuel h (.frame phy f granted memory) (arpHandleRequest h f granted) := by
  have hsets : ∀ l, ¬ Sets devices h l (.frame phy f granted memory) := by
    rintro l ⟨hlesson, -⟩
    cases hnone.symm.trans hlesson
  have hnothing : Does devices fuel h (.frame phy f granted memory) h :=
    (requests_refl h).does hsets rfl
  unfold arpHandleRequest
  split
  · exact hnothing
  next entry hentry =>
  split_ifs with hgranted
  · subst hgranted
    refine .sends _ hsets rfl fun p hp => ?_
    obtain rfl := mem_singleton.1 hp
    exact .inr ⟨phy, f, memory, entry, rfl, hasks, hentry, rfl, rfl⟩
  · exact hnothing

lemma step_does (hc : Cached h.cache) (hstep : step devices fuel h ev = some h') :
    Does devices fuel h ev h' := by
  cases ev with
  | frame phy f granted memory =>
    rcases ethernetRx_cases hstep with ⟨hnone, rfl | ⟨hasks, rfl⟩⟩ | ⟨l, hlesson, hname, cache,
      hset, rfl⟩
    · refine (requests_refl h').does ?_ rfl
      rintro l ⟨hlesson, -⟩
      cases hnone.symm.trans hlesson
    · exact arpHandleRequest_does granted memory hnone hasks
    · exact .learns hlesson hname hset
  | addInterface device ip netmask memory =>
    rcases interfaceAdd_cases hc hstep with rfl | hjoins
    · exact (requests_refl h').does (fun _ hset => hset.elim) rfl
    · exact .joins hjoins
  | tick =>
    cases hstep
    exact .ticks
  | resolve ip context granted =>
    cases hstep
    exact (arpResolve_requests h ip context granted).does (fun _ hset => hset.elim) rfl
  | round ip rounds granted =>
    cases hstep
    exact (arpResolveRound_requests h ip rounds granted).does (fun _ hset => hset.elim) rfl

/-- A static entry stays, a packet that sets the address decides the rest, and else a tick
ages it, unless a new interface makes it static. -/
structure Turns (devices : List Device) (h : Host) (ev : Event) (ip : UInt32)
    (new : Option ArpCacheEntry) : Prop where
  static : ∀ entry, get h.cache ip = some entry → entry.isStatic = true → new = some entry
  set : (∀ entry, get h.cache ip = some entry → entry.isStatic = false) →
    ∀ l, l.ip = ip → Sets devices h l ev → new = some ⟨l.mac, ip, l.device, timeout, false⟩
  quiet : (∀ l, l.ip = ip → ¬ Sets devices h l ev) →
    new = (if ev.isTick then (get h.cache ip).bind aged else get h.cache ip) ∨
      ∃ entry, new = some entry ∧ entry.isStatic = true
  marked : (∀ device netmask memory, ev ≠ .addInterface device ip netmask memory) →
    ∀ entry, new = some entry → entry.isStatic = true → get h.cache ip = some entry

lemma turns_same (hsets : ∀ l, l.ip = ip → ¬ Sets devices h l ev) (htick : ev.isTick = false) :
    Turns devices h ev ip (get h.cache ip) where
  static _ hentry _ := hentry
  set _ l hip hset := absurd hset (hsets l hip)
  quiet _ := by
    rw [htick]
    exact .inl rfl
  marked _ _ hentry _ := hentry

lemma turns_learns {l : Lesson} (hlesson : lesson devices phy f = some l)
    (hname : copyName l.device = l.device) (ip : UInt32) :
    Turns devices h (.frame phy f granted memory) ip
      (update (get h.cache) l.ip (written l.device l.mac l.ip memory (get h.cache l.ip)) ip) := by
  by_cases hip : ip = l.ip
  · subst hip
    rw [update_self]
    constructor
    · intro entry hentry hstatic
      rw [hentry, written, if_pos hstatic]
    · rintro hdynamic l' - ⟨hlesson', hroom⟩
      obtain rfl : l = l' := some.inj (hlesson.symm.trans hlesson')
      cases hget : get h.cache l.ip with
      | some entry =>
        rw [written, if_neg (by simp [hdynamic entry hget]), hname]
      | none =>
        rw [hget] at hroom
        rw [written, if_pos (by simpa using hroom), hname]
    · intro hquiet
      have hroom := hquiet l rfl
      simp only [Sets, hlesson, true_and, not_or, Bool.not_eq_true, isSome_eq_false_iff,
        isNone_iff_eq_none] at hroom
      rw [hroom.1, hroom.2]
      exact .inl rfl
    · intro _ entry hentry hstatic
      unfold written at hentry
      split at hentry <;> split_ifs at hentry <;> cases hentry
      · assumption
      · cases hstatic
      · cases hstatic
  · rw [update_of_ne hip]
    refine turns_same ?_ rfl
    rintro l' hl' ⟨hlesson', -⟩
    obtain rfl : l = l' := some.inj (hlesson.symm.trans hlesson')
    exact hip hl'.symm

lemma turns_tick (ip : UInt32) : Turns devices h .tick ip ((get h.cache ip).bind aged) where
  static entry hentry hstatic := by rw [hentry, bind_some, aged_static hstatic]
  set _ _ _ hset := hset.elim
  quiet _ := Or.inl rfl
  marked _ entry hentry hstatic := by
    obtain ⟨old, hold, haged⟩ := bind_eq_some_iff.1 hentry
    unfold aged at haged
    split_ifs at haged with hs <;> cases haged
    · exact hold
    · exact absurd hstatic hs

lemma turns_addInterface {ip : UInt32} (mac : List Byte) (ip' : UInt32) :
    Turns devices h (.addInterface device ip netmask memory) ip'
      (update (get h.cache) ip ((written device mac ip memory (get h.cache ip)).map fun entry =>
          { entry with isStatic := true }) ip') := by
  by_cases hip : ip' = ip
  · subst hip
    rw [update_self]
    refine ⟨fun entry hentry hstatic => ?_, fun _ _ _ hset => hset.elim, fun _ => ?_,
      fun hne => absurd rfl (hne device netmask memory)⟩
    · rw [hentry, written, if_pos hstatic, map_some, ← hstatic]
    cases hwritten : written device mac ip' memory (get h.cache ip') with
    | some entry => exact .inr ⟨_, rfl, rfl⟩
    | none =>
      -- nothing is written only if there was nothing
      cases hget : get h.cache ip' with
      | none => exact .inl rfl
      | some entry =>
        rw [hget, written] at hwritten
        split_ifs at hwritten
  · rw [update_of_ne hip]
    exact turns_same (fun _ _ hset => hset) rfl

lemma step_turns (hc : Cached h.cache) (hstep : step devices fuel h ev = some h') :
    Cached h'.cache ∧ ∀ ip, Turns devices h ev ip (get h'.cache ip) := by
  cases step_does hc hstep with
  | sends packets hsets htick _ => exact ⟨hc, fun _ => turns_same (fun l _ => hsets l) htick⟩
  | ticks =>
    obtain ⟨hc', hget⟩ := arpTimeoutCallback_spec hc
    refine ⟨hc', fun ip => ?_⟩
    simp only [hget]
    exact turns_tick ip
  | learns hlesson hname hset =>
    obtain ⟨hc', hget⟩ := arpSetEntry_spec hc hset
    refine ⟨hc', fun ip => ?_⟩
    simp only [hget]
    exact turns_learns hlesson hname ip
  | joins hjoins =>
    rw [hjoins.get]
    exact ⟨hjoins.cached, turns_addInterface _⟩

/-! ## Histories -/

variable {events later : List Event} {l l' : Lesson} {h₁ h₂ : Host}

lemma cached_run (hc : Cached h.cache) (events : List Event) :
    Always (step devices fuel) (fun h => Cached h.cache) h events :=
  always_of_step (fun _ _ _ hc hstep => (step_turns hc hstep).1) hc events

lemma get_boot (ip : UInt32) : get Host.boot.cache ip = none := by
  cases hget : get Host.boot.cache ip with
  | none => rfl
  | some entry =>
    obtain ⟨i, hi⟩ := (get_eq_some_iff cached_new.sound).1 hget
    cases hi

lemma static_run (hc : Cached h.cache) (hget : get h.cache ip = some entry)
    (hstatic : entry.isStatic) (hrun : exec (step devices fuel) h events = some h') :
    get h'.cache ip = some entry := by
  have hkeeps : Always (step devices fuel)
      (fun h => Cached h.cache ∧ get h.cache ip = some entry) h events := by
    refine always_of_step (fun h₁ ev h₂ hinv hstep => ?_) ⟨hc, hget⟩ events
    obtain ⟨hc2, hturns⟩ := step_turns hinv.1 hstep
    exact ⟨hc2, (hturns ip).static entry hinv.2 hstatic⟩
  exact (hkeeps.last hrun).2

lemma sets_unique (hl : Sets devices h l ev) (hl' : Sets devices h l' ev) : l = l' := by
  cases ev with
  | frame phy f granted memory => exact some.inj (hl.1.symm.trans hl'.1)
  | _ => exact hl.elim

lemma lastSet_concat (hrun : exec (step devices fuel) h events = some h₁)
    (hstep : step devices fuel h₁ ev = some h₂) :
    LastSet devices fuel h (events ++ [ev]) l later ↔ (later = [] ∧ Sets devices h₁ l ev) ∨
        (∀ l', l'.ip = l.ip → ¬ Sets devices h₁ l' ev) ∧
          ∃ later', later = later' ++ [ev] ∧ LastSet devices fuel h events l later' := by
  constructor
  · rintro ⟨before, ev', a, b, heq, ha, hb, hset, hmeets⟩
    rcases eq_nil_or_concat later with rfl | ⟨later', last, rfl⟩
    · obtain ⟨rfl, hev⟩ := append_inj' heq rfl
      cases hev
      obtain rfl : h₁ = a := some.inj (hrun.symm.trans ha)
      exact .inl ⟨rfl, hset⟩
    · rw [concat_eq_append] at heq hmeets ⊢
      rw [← cons_append, ← append_assoc] at heq
      obtain ⟨rfl, hev⟩ := append_inj' heq rfl
      cases hev
      obtain ⟨hlater, hlast⟩ := meets_append.1 hmeets
      rw [exec_append, ha, bind_some, exec_cons, hb, bind_some] at hrun
      exact .inr ⟨meets_singleton.1 (hlast h₁ hrun), later', rfl, before, ev', a, b, rfl, ha, hb,
        hset, hlater⟩
  · rintro (⟨rfl, hset⟩ | ⟨hquiet, later', rfl, before, ev', a, b, rfl, ha, hb, hset, hmeets⟩)
    · exact ⟨events, ev, h₁, h₂, rfl, hrun, hstep, hset, meets_nil _ _ _⟩
    refine ⟨before, ev', a, b, by simp, ha, hb, hset, meets_append.2 ⟨hmeets, fun t ht => ?_⟩⟩
    rw [exec_append, ha, bind_some, exec_cons, hb, bind_some, ht] at hrun
    cases hrun
    exact meets_singleton.2 hquiet

lemma ticks_concat (events : List Event) (ev : Event) :
    ticks (events ++ [ev]) = ticks events + if ev.isTick then 1 else 0 := by
  simp [ticks]

lemma exists_lastSet_of_quiet (hrun : exec (step devices fuel) h events = some h₁)
    (hstep : step devices fuel h₁ ev = some h₂)
    (hquiet : ∀ l, l.ip = ip → ¬ Sets devices h₁ l ev) (P : Lesson → ℕ → Prop) :
    (∃ l later, l.ip = ip ∧ LastSet devices fuel h (events ++ [ev]) l later ∧ P l (ticks later)) ↔
    ∃ l later, l.ip = ip ∧ LastSet devices fuel h events l later ∧
      P l (ticks later + if ev.isTick then 1 else 0) := by
  constructor
  · rintro ⟨l, later, hip, hl, hP⟩
    rcases (lastSet_concat hrun hstep).1 hl with ⟨-, hset⟩ | ⟨-, later', rfl, hl'⟩
    · exact absurd hset (hquiet l hip)
    · exact ⟨l, later', hip, hl', ticks_concat later' ev ▸ hP⟩
  · rintro ⟨l, later, hip, hl, hP⟩
    refine ⟨l, later ++ [ev], hip, (lastSet_concat hrun hstep).2 (.inr ?_), ?_⟩
    · exact ⟨fun l' hl' => hquiet l' (hl'.trans hip), later, rfl, hl⟩
    · rwa [ticks_concat]

def entryAfter (l : Lesson) (n : ℕ) : ArpCacheEntry := ⟨l.mac, l.ip, l.device, timeout - n, false⟩

lemma aged_entryAfter (l : Lesson) {n : ℕ} (hn : n < 300) :
    aged (entryAfter l n) = if n + 1 < 300 then some (entryAfter l (n + 1)) else none := by
  unfold aged entryAfter timeout
  simp only [Bool.false_eq_true, if_false]
  split_ifs with hleft hlast hlast
  · omega
  · rfl
  · simp only [some.injEq, ArpCacheEntry.mk.injEq, true_and, and_true]
    omega
  · omega

/-- By induction on the run, from its end. -/
lemma get_iff_lastSet (hrun : exec (step devices fuel) Host.boot events = some h)
    (hdynamic : ∀ entry, get h.cache ip = some entry → entry.isStatic = false) :
    get h.cache ip = some entry ↔ ∃ l later, l.ip = ip ∧
      LastSet devices fuel Host.boot events l later ∧ ticks later < 300 ∧
      entry = entryAfter l (ticks later) := by
  induction events using reverseRecOn generalizing h entry with
  | nil =>
    cases hrun
    refine ⟨fun hnone => (some_ne_none _ hnone.symm).elim, ?_⟩
    rintro ⟨l, later, -, ⟨before, ev, a, b, heq, -⟩, -⟩
    simp at heq
  | append_singleton events ev ih =>
    rw [exec_append] at hrun
    obtain ⟨h₁, hrun1, hlast⟩ := bind_eq_some_iff.1 hrun
    obtain ⟨h₂, hstep, hnil⟩ := exec_cons_some.1 hlast
    obtain rfl : h₂ = h := some.inj hnil
    obtain ⟨-, hturns⟩ := step_turns ((cached_run cached_new events).last hrun1) hstep
    have hdynamic1 : ∀ entry, get h₁.cache ip = some entry → entry.isStatic = false := by
      intro e he
      by_contra hs
      have hs : e.isStatic := by simpa using hs
      exact absurd (hdynamic e ((hturns ip).static e he hs)) (by simp [hs])
    by_cases hset : ∃ l, l.ip = ip ∧ Sets devices h₁ l ev
    · obtain ⟨l, rfl, hset⟩ := hset
      rw [(hturns l.ip).set hdynamic1 l rfl hset]
      constructor
      · intro heq
        refine ⟨l, [], rfl, (lastSet_concat hrun1 hstep).2 (.inl ⟨rfl, hset⟩), by decide, ?_⟩
        exact (some.inj heq).symm
      · rintro ⟨l', later, hip, hlast, -, rfl⟩
        rcases (lastSet_concat hrun1 hstep).1 hlast with ⟨rfl, hset'⟩ | ⟨hquiet, -⟩
        · rw [sets_unique hset' hset]
          rfl
        · exact absurd hset (hquiet l hip.symm)
    · have hquiet : ∀ l, l.ip = ip → ¬ Sets devices h₁ l ev :=
        fun l hip hs => hset ⟨l, hip, hs⟩
      have hnew := ((hturns ip).quiet hquiet).resolve_right fun ⟨e, he, hs⟩ => by
        simp [hdynamic e he] at hs
      rw [hnew, exists_lastSet_of_quiet hrun1 hstep hquiet
        fun l n => n < 300 ∧ entry = entryAfter l n]
      cases htick : ev.isTick with
      | false =>
        exact ih hrun1 hdynamic1
      | true =>
        simp only [if_true, bind_eq_some_iff]
        constructor
        · rintro ⟨e, he, haged⟩
          obtain ⟨l, later, hip, hl, hn, rfl⟩ := (ih hrun1 hdynamic1).1 he
          rw [aged_entryAfter l hn] at haged
          split_ifs at haged with hnext
          exact ⟨l, later, hip, hl, hnext, (some.inj haged).symm⟩
        · rintro ⟨l, later, hip, hl, hn, rfl⟩
          refine ⟨entryAfter l (ticks later), ?_, ?_⟩
          · exact (ih hrun1 hdynamic1).2 ⟨l, later, hip, hl, by omega, rfl⟩
          · rw [aged_entryAfter l (by omega), if_pos hn]

/-- At the end of every run the cache has aged as the ticks of the run say. -/
theorem cache_ages (devices : List Device) (fuel : ℕ) (events : List Event) (h : Host)
    (hrun : exec (step devices fuel) Host.boot events = some h) :
    Ages devices fuel events h where
  static before later h₁ ip entry heq hbefore hget hstatic := by
    rw [heq, exec_append, hbefore] at hrun
    exact static_run ((cached_run cached_new before).last hbefore) hget hstatic hrun
  dynamic l hdynamic := by
    constructor
    · rintro ⟨entry, hget, hmac, hdevice⟩
      obtain ⟨l', later, hip, hlast, hn, rfl⟩ := (get_iff_lastSet hrun hdynamic).1 hget
      obtain rfl : l' = l := by
        cases l'
        cases l
        cases hip
        cases hmac
        cases hdevice
        rfl
      exact ⟨later, hlast, hn⟩
    · rintro ⟨later, hlast, hn⟩
      exact ⟨_, (get_iff_lastSet hrun hdynamic).2 ⟨l, later, rfl, hlast, hn, rfl⟩, rfl, rfl⟩
  tick before later h₁ heq hbefore := by
    obtain ⟨-, hget⟩ := arpTimeoutCallback_spec ((cached_run cached_new before).last hbefore)
    exact ⟨_, rfl, fun ip => congrFun hget ip⟩

/-- In every history the cache is a table with each key once and no more entries than its size.
-/
theorem cache_sound (events : List Event) :
    Always (step devices fuel) (fun h => Cached h.cache) Host.boot events :=
  cached_run cached_new events

end Steps

lemma eth0_named : ['e', 't', 'h', '0'].length ≤ 15 := by decide

def eth0 : Device where
  name := ['e', 't', 'h', '0']
  phy := ['p', 'c', 'n', 'e', 't']
  mac := [2, 0, 0, 0, 0, 1]
  named := eth0_named

lemma arpFrame_ethernet : l3Offset ≤ 42 := by decide

lemma arpFrame_fits : 42 ≤ packetSize := by decide

def arpFrame (operation : Byte) (senderMac senderIp targetIp : List Byte) : Frame where
  memory i := (replicate 6 0xff ++ senderMac ++ [8, 6, 0, 1, 8, 0, 6, 4, 0, operation] ++
    senderMac ++ senderIp ++ replicate 6 0 ++ targetIp).getD i 0
  size := 42
  ethernet := arpFrame_ethernet
  fits := arpFrame_fits

def ownAndLearned : List Event :=
  [.addInterface eth0.name 0x0a000001 0xffffff00 true,
    .frame eth0.phy (arpFrame 2 [2, 0, 0, 0, 0, 9] [10, 0, 0, 9] [10, 0, 0, 1]) true true]

theorem cache_ages_learned :
    ∃ h, exec (step [eth0] 1) Host.boot (ownAndLearned ++ [.tick]) = some h ∧
      get h.cache 0x0a000009 = some ⟨[2, 0, 0, 0, 0, 9], 0x0a000009, eth0.name, 299, false⟩ ∧
      Ages [eth0] 1 (ownAndLearned ++ [.tick]) h := by
  have hget : (exec (step [eth0] 1) Host.boot (ownAndLearned ++ [.tick])).bind
      (fun h => get h.cache 0x0a000009) =
        some ⟨[2, 0, 0, 0, 0, 9], 0x0a000009, eth0.name, 299, false⟩ := by decide +kernel
  obtain ⟨h, hrun, hget⟩ := bind_eq_some_iff.1 hget
  exact ⟨h, hrun, hget, cache_ages [eth0] 1 _ h hrun⟩

end GzOS.Arp
