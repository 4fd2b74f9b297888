import GzOS.TlbCoherence

/-!
# Isolation of address spaces in the translation buffer

A switch of address spaces flushes nothing, which is safe if no entry for user space is
global. Directory entries have the G bit, though, and so do the words of pages that are
not mapped, so two adjacent fragments or an access to an unmapped page leave entries
that the next process matches.
-/
namespace GzOS.Tlb
open Option List Function

open Bindings Runs
open Vm (Pte Prot FaultType userPte)

variable {s t : Mmu} {id : ℕ} {p : UserPmap}

variable {page frame fragment : ℕ} {type : FaultType}

lemma translate_refill (h : s.translate p page type = .refill frame) :
    s.lookup (page / 2) = none ∧ s.windowFrame (page / 1024) = some frame := by
  unfold Mmu.translate at h
  cases hl : s.lookup (page / 2) with
  | some e =>
    simp only [hl] at h
    split at h <;> cases h
  | none =>
    simp only [hl] at h
    cases hw : s.windowFrame (page / 1024) with
    | some f =>
      simp only [hw] at h
      cases h
      exact ⟨rfl, rfl⟩
    | none =>
      simp only [hw] at h
      split at h <;> cases h

lemma access_cases (h : s.access page type frame fragment = some t) :
    ∃ id p, s.userPmap = some id ∧ s.pmaps id = some p ∧
      (t = s ∨
        (∃ table, s.translate p page type = .refill table ∧ t = s.tlbRefill page table) ∨
        t = s.loadDirectory id p (page / 1024) ∨
        (∃ cause prot, s.translate p page type = .fault cause ∧
          p.faultProt page cause = some prot ∧
          s.pmapMap id p page frame prot fragment = some t) ∨
        t = { s with killed := insert id s.killed }) := by
  obtain ⟨id, hid, h⟩ := bind_eq_some_iff.1 h
  obtain ⟨p, hp, h⟩ := bind_eq_some_iff.1 h
  refine ⟨id, p, hid, hp, ?_⟩
  split at h
  · cases h
  cases htr : s.translate p page type with
  | hit =>
    simp only [htr] at h
    exact .inl (some.inj h).symm
  | refill table =>
    simp only [htr] at h
    exact .inr (.inl ⟨table, rfl, (some.inj h).symm⟩)
  | directory =>
    simp only [htr] at h
    exact .inr (.inr (.inl (some.inj h).symm))
  | fault cause =>
    simp only [htr] at h
    cases hf : p.faultProt page cause with
    | some prot =>
      simp only [hf] at h
      exact .inr (.inr (.inr (.inl ⟨cause, prot, rfl, hf, h⟩)))
    | none =>
      simp only [hf] at h
      exact .inr (.inr (.inr (.inr (some.inj h).symm)))

lemma Coherent.pushKernel (hc : Coherent s) {e : TlbEntry} (hu : ¬ e.user) :
    Coherent { s with tlb := e :: s.tlb } :=
  { hc with
    owner := fun d hd hdu => by
      rcases mem_cons.1 hd with rfl | hd
      · exact absurd hdu hu
      · exact hc.owner_of (by rfl) (by rfl) hd hdu
    globals := fun d hd hdu hg => by
      rcases mem_cons.1 hd with rfl | hd
      · exact absurd hdu hu
      · exact hc.globals d hd hdu hg
    unique := pairwise_cons.2 ⟨fun _ _ hdu => absurd hdu hu, hc.unique⟩ }

/-! ## What a change of address spaces does -/

/-- A process runs under its own ASID, and another is switched to only while no user entry
is global. -/
def Separated (s : Mmu) : MmuEvent → Prop
  | .access .. | .map .. | .window _ => s.userPmap = some s.asid
  | .activate target => target = s.userPmap ∨ ∀ e ∈ s.tlb, e.user → e.global = false
  | _ => True

instance (s : Mmu) : DecidablePred (Separated s)
  | .access .. | .map .. | .window _ => inferInstanceAs (Decidable (_ = _))
  | .activate _ => inferInstanceAs (Decidable (_ ∨ ∀ e ∈ s.tlb, _))
  | .kernel _ | .create _ | .addRegion .. | .delete _ | .evict _ =>
    inferInstanceAs (Decidable True)

lemma Coherent.activate (hc : Coherent s) {target : Option ℕ}
    (hg : target = s.userPmap ∨ ∀ e ∈ s.tlb, e.user → e.global = false)
    (h : s.pmapActivate target = some t) : Coherent t := by
  unfold Mmu.pmapActivate at h
  split at h
  case isFalse => cases h
  case isTrue hlive =>
    cases h
    exact { hc with
      owner := fun _ => hc.owner_of (by rfl) (by rfl)
      globals := fun e he hu hglobal => by
        rcases hg with rfl | hg
        · exact hc.globals e he hu hglobal
        · rw [hg e he hu] at hglobal
          cases hglobal
      live := fun i hi => isSome_iff_exists.1 (hlive i hi)
      register := by
        cases target with
        | none => exact .inl rfl
        | some i => exact .inr rfl }

lemma Coherent.setPmap (hc : Coherent s) {q : UserPmap} {counter : ℕ} (hid : 0 < id)
    (hlt : id < counter) (hle : s.asidCounter ≤ counter)
    (hallot : Allotted (update s.pmaps id (some q)) s.frames)
    (hsame : ∀ p, s.pmaps id = some p → q.pde = p.pde) :
    Coherent { s.setPmap id q with asidCounter := counter } where
  owner e he hu := by
    obtain ⟨p, hp, hh⟩ := hc.owner e he hu
    by_cases ha : e.asid = id
    · have hpde := hsame p (ha ▸ hp)
      refine ⟨q, by rw [ha]; exact update_self .., hh.congr ?_ ?_⟩
      · intro page _ _ _
        simp [Mmu.word, hpde, Mmu.setPmap]
      · intro index _ _
        rw [hpde]
    · exact ⟨p, (update_of_ne ha ..).trans hp, hh.table, hh.directory⟩
  globals := hc.globals
  unique := hc.unique
  allotted := hallot
  counted := hc.counted.trans_le hle
  numbered i r hr := by
    rcases update_some_cases hr with ⟨rfl, _⟩ | ⟨_, hold⟩
    · exact ⟨hid, hlt⟩
    · exact (hc.numbered i r hold).imp_right hle.trans_lt'
  live i hi := update_some_bound (hc.live i hi) ..
  register := hc.register

lemma Coherent.create (hc : Coherent s) {regions : ℕ → Option Prot}
    (h : s.pmapNew regions = some t) : Coherent t := by
  unfold Mmu.pmapNew at h
  split at h
  case isFalse => cases h
  case isTrue =>
    cases h
    refine hc.setPmap hc.counted (Nat.lt_succ_self _) (Nat.le_succ _) ?_ ?_
    · have hproper : (UserPmap.setup regions).Proper := by constructor <;> simp [UserPmap.setup]
      exact hc.allotted.set hproper (fun _ _ _ _ _ _ hin => not_mem_nil hin)
        (fun _ hin => absurd hin not_mem_nil) (Finset.Subset.refl _)
    · intro p hp
      exact absurd (hc.numbered _ p hp).2 (lt_irrefl _)

lemma Coherent.addRegion (hc : Coherent s) {prot : Prot} (h : s.addRegion id page prot = some t) :
    Coherent t := by
  obtain ⟨p, hp, h⟩ := bind_eq_some_iff.1 h
  split at h
  · cases h
  cases h
  obtain ⟨hpos, hlt⟩ := hc.numbered id p hp
  have hproper := hc.allotted.proper id p hp
  refine hc.setPmap hpos hlt le_rfl ?_ fun r hr => ?_
  · exact hc.allotted.set ⟨hproper.fragment, hproper.distinct⟩
      (fun i r hi hr => hc.allotted.apart i id r p hr hp hi) (hc.allotted.taken id p hp)
      (Finset.Subset.refl _)
  · obtain rfl : p = r := some.inj (hp.symm.trans hr)
    rfl

lemma delete_cases (h : s.pmapDelete id = some t) :
    ∃ p, s.pmaps id = some p ∧ s.userPmap ≠ some id ∧ t = { s with
      tlb := []
      asid := 0
      pmaps := update s.pmaps id none
      frames := s.frames \ p.ptePages.toFinset } := by
  obtain ⟨p, hp, h⟩ := bind_eq_some_iff.1 h
  split at h
  · cases h
  · exact ⟨p, hp, ‹_›, (some.inj h).symm⟩

/-- The whole buffer is flushed. -/
lemma Coherent.delete (hc : Coherent s) (h : s.pmapDelete id = some t) : Coherent t := by
  obtain ⟨p, hp, hactive, rfl⟩ := delete_cases h
  refine
    { owner := fun e he => absurd he (by simp)
      globals := fun e he => absurd he (by simp)
      unique := List.Pairwise.nil
      allotted := ⟨?_, ?_, ?_⟩
      counted := hc.counted
      numbered := fun i q hq => hc.numbered i q (update_none_cases hq).2
      live := ?_
      register := .inl rfl }
  · intro i q hq
    exact hc.allotted.proper i q (update_none_cases hq).2
  · intro i j q r hq hr
    exact hc.allotted.apart i j q r (update_none_cases hq).2 (update_none_cases hr).2
  · intro i q hq frame hin
    obtain ⟨hne, hold⟩ := update_none_cases hq
    refine Finset.mem_sdiff.2 ⟨hc.allotted.taken i q hold frame hin, ?_⟩
    simpa using hc.allotted.apart i id q p hold hp hne frame hin
  · intro i hi
    obtain ⟨q, hq⟩ := hc.live i hi
    have hne : i ≠ id := by
      rintro rfl
      exact hactive hi
    exact ⟨q, (update_of_ne hne ..).trans hq⟩

/-! ## Runs -/

lemma access_step (h : mmuStep s (.access page type frame fragment) = some t) :
    page < 0x80000 ∧ s.access page type frame fragment = some t := by
  simp only [mmuStep] at h
  split at h
  · exact ⟨‹_›, h⟩
  · cases h

lemma window_step {index : ℕ} (h : mmuStep s (.window index) = some t) :
    index < 512 ∧ ∃ id p frame, s.userPmap = some id ∧ s.pmaps id = some p ∧
      s.window id p index = some (t, frame) := by
  simp only [mmuStep] at h
  split at h
  case isTrue hi =>
    obtain ⟨id, hid, h⟩ := bind_eq_some_iff.1 h
    obtain ⟨p, hp, h⟩ := bind_eq_some_iff.1 h
    obtain ⟨⟨u, frame⟩, hu, rfl⟩ := map_eq_some_iff.1 h
    exact ⟨hi, id, p, frame, hid, hp, hu⟩
  case isFalse => cases h

lemma map_step {prot : Prot} (h : mmuStep s (.map page frame prot fragment) = some t) :
    page < 0x80000 ∧ ∃ id p, s.userPmap = some id ∧ s.pmaps id = some p ∧
      s.pmapMap id p page frame prot fragment = some t := by
  simp only [mmuStep] at h
  split at h
  case isTrue hpage =>
    obtain ⟨id, hid, h⟩ := bind_eq_some_iff.1 h
    obtain ⟨p, hp, h⟩ := bind_eq_some_iff.1 h
    exact ⟨hpage, id, p, hid, hp, h⟩
  case isFalse => cases h

lemma kernel_step {e : TlbEntry} (h : mmuStep s (.kernel e) = some t) :
    ¬ e.user ∧ t = { s with tlb := e :: s.tlb } := by
  simp only [mmuStep] at h
  split at h
  · cases h
  · exact ⟨‹_›, (some.inj h).symm⟩

lemma Coherent.access (hc : Coherent s) (ha : s.userPmap = some s.asid) (hpage : page < 0x80000)
    (h : s.access page type frame fragment = some t) : Coherent t := by
  obtain ⟨id, p, hid, hp, hcases⟩ := access_cases h
  have hr := runs_of_register ha hid hp
  rcases hcases with rfl | ⟨table, htr, rfl⟩ | rfl | ⟨cause, prot, _, _, hmap⟩ | rfl
  · exact hc
  · obtain ⟨hmiss, hw⟩ := translate_refill htr
    obtain ⟨hv, rfl⟩ := hc.windowFrame hr (by omega) hw
    exact hc.push hr hr.tagged (holds_refill s p s.asid page hpage hv) (hc.free_of_lookup hr hmiss)
  · exact hc.loadDirectory hr (by omega)
  · obtain ⟨q, hq⟩ := hc.pmapMap hr hpage hmap
    exact hq.coherent
  · exact { hc with owner := fun _ => hc.owner_of (by rfl) (by rfl) }

lemma coherent_step (s : Mmu) (ev : MmuEvent) (t : Mmu) (hc : Coherent s)
    (hg : Separated s ev) (h : mmuStep s ev = some t) : Coherent t := by
  cases ev with
  | access page type frame fragment =>
    obtain ⟨hpage, h⟩ := access_step h
    exact hc.access hg hpage h
  | window index =>
    obtain ⟨hi, id, p, frame, hid, hp, h⟩ := window_step h
    exact (hc.window (runs_of_register hg hid hp) hi h).1
  | kernel e =>
    obtain ⟨hu, rfl⟩ := kernel_step h
    exact hc.pushKernel hu
  | map page frame prot fragment =>
    obtain ⟨hpage, id, p, hid, hp, h⟩ := map_step h
    obtain ⟨q, hq⟩ := hc.pmapMap (runs_of_register hg hid hp) hpage h
    exact hq.coherent
  | activate target => exact hc.activate hg h
  | create regions => exact hc.create h
  | addRegion id page prot => exact hc.addRegion h
  | delete id => exact hc.delete h
  | evict position =>
    cases h
    exact hc.sublist (eraseIdx_sublist ..)

lemma Coherent.isolated (hc : Coherent s) : s.Isolated := by
  intro e he hu hhit
  obtain ⟨p, hp, hh⟩ := hc.owner e he hu
  refine ⟨e.asid, p, ?_, hp, hh⟩
  rcases (TlbEntry.hits_iff.1 hhit).2 with hglobal | ha
  · exact hc.globals e he hu hglobal
  -- ASID 0 is the kernel's, so the register holds the ASID of the active process
  rcases hc.register with h0 | hactive
  · have hpos := (hc.numbered e.asid p hp).1
    omega
  · exact ha ▸ hactive

/-- In every run that keeps address spaces separated, user entries that can hit are those of
the running process. -/
theorem isolated_always (events : List MmuEvent)
    (h : Meets mmuStep Separated Mmu.boot events) :
    Always mmuStep Mmu.Isolated Mmu.boot events :=
  (always_of_meets coherent_step Coherent.boot h).mono fun _ => Coherent.isolated

def regionsAt (pages : List ℕ) (page : ℕ) : Option Prot :=
  if page ∈ pages then some ⟨true, true, false⟩ else none

def turnEvents : List MmuEvent :=
  [.create (regionsAt [0]), .create (regionsAt [0]), .activate (some 1),
    .access 0 .read 100 50, .access 0 .write 0 0, .access 0 .write 0 0, .activate (some 2),
    .access 0 .read 101 51, .access 0 .write 0 0, .access 0 .write 0 0, .activate (some 1),
    .access 0 .write 0 0, .activate (some 2), .delete 1, .activate (some 2),
    .access 0 .read 0 0, .access 0 .read 0 0, .access 0 .read 0 0]

theorem isolated_turnEvents :
    (exec mmuStep Mmu.boot turnEvents).map (fun s => (s.windowFrame 0, s.lookup 0)) =
        some (some 51, some ⟨0, 2, ⟨101, true, true, false⟩, ⟨0, false, false, true⟩⟩) ∧
      Always mmuStep Mmu.Isolated Mmu.boot turnEvents :=
  ⟨by decide +kernel, isolated_always turnEvents (meets_of_check (by decide +kernel))⟩

def adjacentEvents : List MmuEvent :=
  [.create (regionsAt [0, 1024]), .create (regionsAt [0]), .activate (some 1),
    .access 0 .read 100 50, .access 1024 .read 101 51, .activate (some 2)]

/-- The second process has no page table yet, but its window shows the first one's,
and its read of page 0 is served from there. -/
theorem adjacentEvents_not_isolated :
    (∃ s, exec mmuStep Mmu.boot adjacentEvents = some s ∧ s.userPmap = some 2 ∧ s.asid = 2 ∧
      s.windowFrame 0 = some 50 ∧ ¬ s.Isolated) ∧
    (exec mmuStep Mmu.boot (adjacentEvents ++ [.access 0 .read 0 0])).bind (·.lookup 0) =
      some ⟨0, 2, ⟨100, true, true, false⟩, ⟨0, false, false, true⟩⟩ := by
  refine ⟨⟨_, rfl, rfl, rfl, by decide +kernel, fun h => ?_⟩, by decide +kernel⟩
  obtain ⟨id, p, hid, hp, hh⟩ := h ⟨0x60000, 1, ⟨50, true, true, true⟩, ⟨51, true, true, true⟩⟩
    (by decide +kernel) (by decide) (by decide +kernel)
  obtain rfl : 2 = id := some.inj hid
  have hword := hh.directory 0 (by decide) rfl
  have hempty := congrArg (Option.map fun q => (q.pde 0).valid) hp
  rw [map_some, ← hword] at hempty
  exact absurd hempty (by decide +kernel)

end GzOS.Tlb
