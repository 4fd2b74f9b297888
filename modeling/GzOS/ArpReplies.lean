import GzOS.ArpCache

/-!
# Who an ARP reply speaks for

The cache does not tell the addresses of this host from those it has learned, and a
request is answered from it. The replies speak for this host alone as long as nobody
asks for a learned address and the address of every interface is really entered.
-/
namespace GzOS.Arp
open Net Runs List Function Option
open Net.World (arpTargetIp)
open HashMap (get)

variable (devices : List Device)

def Own (h : Host) (mac : List Byte) (ip : UInt32) : Prop :=
  ∃ iface ∈ h.interfaces, iface.address = ip ∧ ethernetDeviceHwaddr devices iface.device = some mac

/-- Every reply gives an address of this host and the hardware address of its device. -/
def Answers (h : Host) : Prop :=
  ∀ p ∈ h.sent, p.operation = opResponse → Own devices h p.senderMac p.senderIp

/-- A request that finds an entry asks for an address of this host; a new interface is on a
registered device and gets an entry. -/
def AsksOwn (h : Host) : Event → Prop
  | .frame phy f granted _ => Asks devices phy f → granted = true →
    (get h.cache (target f)).isSome = true → ∃ iface ∈ h.interfaces, iface.address = target f
  | .addInterface device ip _ memory => findInterface h device = none →
    (ethernetDeviceHwaddr devices device).isSome = true ∧
      ((get h.cache ip).isSome = true ∨ memory = true)
  | _ => True

instance (h : Host) (ev : Event) : Decidable (AsksOwn devices h ev) := by
  cases ev <;> unfold AsksOwn <;> infer_instance

structure Owned (h : Host) : Prop where
  cached : Cached h.cache
  own : ∀ ip entry, get h.cache ip = some entry → entry.isStatic = true → Own devices h entry.mac ip
  entered : ∀ iface ∈ h.interfaces, ∃ entry, get h.cache iface.address = some entry ∧
    entry.isStatic = true
  answers : Answers devices h

variable {devices} {fuel : ℕ} {h h' : Host} {ev : Event} {mac : List Byte} {ip : UInt32}

lemma Own.mono (hown : Own devices h mac ip) (hsub : h.interfaces ⊆ h'.interfaces) :
    Own devices h' mac ip := by
  obtain ⟨iface, hmem, hpair⟩ := hown
  exact ⟨iface, hsub hmem, hpair⟩

lemma written_of_room (device : List Char) (mac : List Byte) (ip : UInt32) (memory : Bool)
    {old : Option ArpCacheEntry} (hroom : old.isSome ∨ memory) :
    ∃ entry, written device mac ip memory old = some entry ∧
      (old = some entry ∧ entry.isStatic ∨ entry.mac = mac) := by
  cases old with
  | some entry =>
    by_cases hstatic : entry.isStatic
    · exact ⟨entry, if_pos hstatic, .inl ⟨rfl, hstatic⟩⟩
    · exact ⟨_, if_neg hstatic, .inr rfl⟩
  | none => exact ⟨_, if_pos (by simpa using hroom), .inr rfl⟩

lemma Owned.answers_step (ho : Owned devices h) (hg : AsksOwn devices h ev)
    (hstep : step devices fuel h ev = some h') (hsub : h.interfaces ⊆ h'.interfaces) :
    Answers devices h' := by
  intro p hp hop
  have hsent : p ∈ h.sent ∨ Sends devices h ev p := by
    cases step_does ho.cached hstep with
    | sends packets _ _ hsends => exact (mem_append.1 hp).imp_right (hsends p)
    | ticks => exact .inl hp
    | learns _ _ _ => exact .inl hp
    | joins hjoins => exact .inl (hjoins.sent ▸ hp)
  rcases hsent with hp | hreq | ⟨phy, f, memory, entry, rfl, hasks, hget, hmac, hip⟩
  · exact (ho.answers p hp hop).mono hsub
  · cases hreq.symm.trans hop
  obtain ⟨iface, hmem, haddress⟩ := hg hasks rfl (by rw [hget]; rfl)
  -- the address of an interface has a static entry, and there is only one entry
  obtain ⟨entry', hget', hstatic⟩ := ho.entered iface hmem
  rw [haddress, hget] at hget'
  cases hget'
  rw [hmac, hip, ho.cached.ip_of_get hget]
  exact (ho.own _ entry hget hstatic).mono hsub

/-- The static entry of a new interface is its own, and the others stay. -/
lemma Owned.joins (ho : Owned devices h) {device : List Char} {netmask : UInt32}
    {memory : Bool} (hg : AsksOwn devices h (.addInterface device ip netmask memory))
    (hstep : step devices fuel h (.addInterface device ip netmask memory) = some h')
    (hjoins : Joins devices h device ip netmask memory h') : Owned devices h' := by
  obtain ⟨hknown, hroom⟩ := hg hjoins.absent
  obtain ⟨mac, hmac⟩ := isSome_iff_exists.1 hknown
  have hsub : h.interfaces ⊆ h'.interfaces := by
    rw [hjoins.interfaces]
    exact subset_append_left _ _
  have hget := hjoins.get
  rw [hmac, getD_some] at hget
  obtain ⟨e, he, hfrom⟩ := written_of_room device mac ip memory hroom
  rw [he] at hget
  have hnew : Own devices h' mac ip := by
    refine ⟨⟨copyName device, ip, netmask⟩, by simp [hjoins.interfaces], rfl, ?_⟩
    obtain ⟨known, hfind, -⟩ := map_eq_some_iff.1 hmac
    have hname : known.name = device := by simpa using find?_some hfind
    rw [← hname, copyName_name, hname, hmac]
  refine ⟨hjoins.cached, fun ip' entry hentry hstatic => ?_, fun iface hmem => ?_,
    ho.answers_step hg hstep hsub⟩
  · rw [hget] at hentry
    by_cases hip : ip' = ip
    · subst hip
      rw [update_self] at hentry
      cases hentry
      rcases hfrom with ⟨hold, hs⟩ | hmac'
      · exact (ho.own ip' e hold hs).mono hsub
      · exact hmac' ▸ hnew
    · rw [update_of_ne hip] at hentry
      exact (ho.own ip' entry hentry hstatic).mono hsub
  · rw [hget]
    by_cases hip : iface.address = ip
    · rw [hip, update_self]
      exact ⟨_, rfl, rfl⟩
    rw [update_of_ne hip]
    rw [hjoins.interfaces, mem_append, mem_singleton] at hmem
    rcases hmem with hmem | rfl
    · exact ho.entered iface hmem
    · exact absurd rfl hip

lemma Owned.unchanged (ho : Owned devices h) (hg : AsksOwn devices h ev)
    (hstep : step devices fuel h ev = some h') (hsame : h'.interfaces = h.interfaces)
    (hev : ∀ device ip netmask memory, ev ≠ .addInterface device ip netmask memory) :
    Owned devices h' := by
  obtain ⟨hc, hturns⟩ := step_turns ho.cached hstep
  have hsub : h.interfaces ⊆ h'.interfaces := hsame ▸ List.Subset.refl _
  refine ⟨hc, fun ip entry hentry hstatic => ?_, fun iface hmem => ?_,
    ho.answers_step hg hstep hsub⟩
  · have hold := (hturns ip).marked (fun device => hev device ip) entry hentry hstatic
    exact (ho.own ip entry hold hstatic).mono hsub
  · obtain ⟨entry, hentry, hstatic⟩ := ho.entered iface (hsame ▸ hmem)
    exact ⟨entry, (hturns iface.address).static entry hentry hstatic, hstatic⟩

lemma Owned.step (ho : Owned devices h) (hg : AsksOwn devices h ev)
    (hstep : step devices fuel h ev = some h') : Owned devices h' := by
  cases step_does ho.cached hstep with
  | sends packets _ _ _ =>
    exact ⟨ho.cached, ho.own, ho.entered, ho.answers_step hg hstep (List.Subset.refl _)⟩
  | ticks => exact ho.unchanged hg hstep rfl fun _ _ _ _ heq => by cases heq
  | learns _ _ _ => exact ho.unchanged hg hstep rfl fun _ _ _ _ heq => by cases heq
  | joins hjoins => exact ho.joins hg hstep hjoins

lemma owned_boot : Owned devices Host.boot where
  cached := cached_new
  own ip entry hentry _ := (some_ne_none entry (hentry.symm.trans (get_boot ip))).elim
  entered _ hmem := (not_mem_nil hmem).elim
  answers _ hp := (not_mem_nil hp).elim

/-- In a run of such steps every reply speaks for this host. -/
theorem answers_for_itself (devices : List Device) (fuel : ℕ) (events : List Event)
    (hguard : Meets (Arp.step devices fuel) (AsksOwn devices) Host.boot events) :
    Always (Arp.step devices fuel) (Answers devices) Host.boot events := by
  have howned := always_of_meets (fun _ _ _ ho hg hstep => ho.step hg hstep) owned_boot hguard
  exact howned.mono fun _ ho => ho.answers

def asksFor (ip : List Byte) : Event :=
  .frame eth0.phy (arpFrame 1 [2, 0, 0, 0, 0, 5] [10, 0, 0, 5] ip) true true

theorem answers_for_itself_asked :
    Meets (Arp.step [eth0] 1) (AsksOwn [eth0]) Host.boot
        (ownAndLearned ++ [asksFor [10, 0, 0, 1]]) ∧
      Always (Arp.step [eth0] 1) (Answers [eth0]) Host.boot
        (ownAndLearned ++ [asksFor [10, 0, 0, 1]]) := by
  have hguard : Meets (Arp.step [eth0] 1) (AsksOwn [eth0]) Host.boot
      (ownAndLearned ++ [asksFor [10, 0, 0, 1]]) := meets_of_check (by decide +kernel)
  exact ⟨hguard, answers_for_itself [eth0] 1 _ hguard⟩

/-- The host answers for 10.0.0.9, which has only answered it. -/
theorem answers_for_another :
    ∃ h, exec (Arp.step [eth0] 1) Host.boot (ownAndLearned ++ [asksFor [10, 0, 0, 9]]) = some h ∧
      h.sent = [⟨opResponse, [2, 0, 0, 0, 0, 9], 0x0a000009, [2, 0, 0, 0, 0, 5], 0x0a000005⟩] ∧
      h.interfaces = [⟨eth0.name, 0x0a000001, 0xffffff00⟩] ∧ ¬ Answers [eth0] h := by
  have hrun : (exec (Arp.step [eth0] 1) Host.boot
      (ownAndLearned ++ [asksFor [10, 0, 0, 9]])).map (fun h => (h.sent, h.interfaces)) =
        some ([⟨opResponse, [2, 0, 0, 0, 0, 9], 0x0a000009, [2, 0, 0, 0, 0, 5], 0x0a000005⟩],
          [⟨eth0.name, 0x0a000001, 0xffffff00⟩]) := by decide +kernel
  obtain ⟨h, hh, heq⟩ := map_eq_some_iff.1 hrun
  obtain ⟨hsent, hifaces⟩ := Prod.mk.inj heq
  refine ⟨h, hh, hsent, hifaces, fun hanswers => ?_⟩
  have hown := hanswers _ (hsent ▸ mem_singleton.2 rfl) rfl
  obtain ⟨iface, hmem, haddress, -⟩ := hown
  rw [hifaces, mem_singleton] at hmem
  subst hmem
  exact absurd haddress (by decide)

end GzOS.Arp
