import GzOS.TlbIsolation

/-!
# Faults and pages that are mapped

`pmap_map` panics when the page is mapped already, and `vm_page_fault` calls it without
looking. With a coherent translation buffer a fault tells what the page table has; an
entry that another process left behind faults for a page that is mapped.
-/
namespace GzOS.Tlb

open Bindings Runs Option
open Vm (Pte Prot FaultType userPte)

/-- Only faults call `pmap_map`. -/
def faultStep (s : Mmu) : MmuEvent → Option Mmu
  | .map .. => none
  | ev => mmuStep s ev

def Mmu.CallsMap (s : Mmu) (p : UserPmap) (page : ℕ) (type : FaultType) : Prop :=
  ∃ cause prot, s.translate p page type = .fault cause ∧ p.faultProt page cause = some prot

structure Mmu.Accesses (s : Mmu) (id : ℕ) (p : UserPmap) (page fragment : ℕ) : Prop where
  active : s.userPmap = some id
  pmap : s.pmaps id = some p
  alive : id ∉ s.killed
  user : page < 0x80000
  fresh : fragment ∉ s.frames

def NeverRemaps (s : Mmu) : MmuEvent → Prop
  | .access page type frame fragment => ∀ id p, s.Accesses id p page fragment →
    (s.CallsMap p page type → Vm.pmapIsMapped (s.table p) (page * Vm.pageSize) = false) ∧
    ∃ t, faultStep s (.access page type frame fragment) = some t
  | _ => True

variable {s t : Mmu} {id : ℕ} {p : UserPmap}

lemma isMapped_table (s : Mmu) (p : UserPmap) (page : ℕ) :
    Vm.pmapIsMapped (s.table p) (page * Vm.pageSize) =
      ((p.pde (page / 1024)).valid && (s.word p page).valid) := by
  have hpde : Vm.pdeIndex (page * Vm.pageSize) = page / 1024 := by
    simp only [Vm.pdeIndex, Vm.pageSize]
    omega
  have hpte : Vm.pteIndex (page * Vm.pageSize) = page := by
    simp only [Vm.pteIndex, Vm.pageSize]
    omega
  simp [Vm.pmapIsMapped, Mmu.table, hpde, hpte]

def Served (s : Mmu) : Prop :=
  ∀ id p page, s.pmaps id = some p → (p.pde (page / 1024)).valid = true →
    (s.word p page).valid = true →
    ∃ prot, p.regions page = some prot ∧ (s.word p page).dirty = prot.write

lemma Served.of_tables (hs : Served s) (htables : t.tables = s.tables)
    (hpmaps : ∀ i q, t.pmaps i = some q → s.pmaps i = some q) : Served t := by
  intro i q page hq hv hw
  have hword : t.word q page = s.word q page := by simp only [Mmu.word, htables]
  rw [hword] at hw ⊢
  exact hs i q page (hpmaps i q hq) hv hw

variable {page fragment : ℕ}

lemma faultProt_region {page : ℕ} {cause : FaultType} {prot : Prot}
    (h : p.faultProt page cause = some prot) :
    p.regions page = some prot ∧ (cause = .write → prot.write) := by
  obtain ⟨prot', hreg, h⟩ := bind_eq_some_iff.1 h
  split_ifs at h with _ hwrite
  cases h
  refine ⟨hreg, fun hc => ?_⟩
  by_contra hn
  exact hwrite ⟨Bool.eq_false_iff.2 hn, hc⟩

lemma Served.extends (hs : Served s) (hr : s.Runs id p) {frame : ℕ} {prot : Prot}
    (hreg : p.regions page = some prot) {q : UserPmap}
    (h : Extends (fun j w => j = page ∧ w = userPte frame prot) s id p t q) : Served t := by
  intro i r j hri hv hw
  by_cases hi : i = id
  · obtain rfl : q = r := some.inj (h.runs.pmap.symm.trans (hi ▸ hri))
    rw [h.regions]
    rcases h.words j hv hw with ⟨rfl, hnew⟩ | ⟨hold, heq⟩
    · rw [hnew]
      exact ⟨prot, hreg, rfl⟩
    · rw [heq] at hw ⊢
      exact hs id p j hr.pmap hold hw
  · obtain ⟨hri, hwords⟩ := h.others i r hi hri
    rw [hwords j hv] at hw ⊢
    exact hs i r j hri hv hw

lemma Served.access (hs : Served s) (hc : Coherent s) (ha : s.userPmap = some s.asid) {frame : ℕ}
    {type : FaultType} (hpage : page < 0x80000) (h : s.access page type frame fragment = some t) :
    Served t := by
  obtain ⟨id, p, hid, hp, hcases⟩ := access_cases h
  have hr := runs_of_register ha hid hp
  rcases hcases with rfl | ⟨_, _, rfl⟩ | rfl | ⟨cause, prot, _, hprot, hmap⟩ | rfl
  · exact hs
  · exact hs.of_tables rfl fun _ _ hq => hq
  · exact hs.of_tables rfl fun _ _ hq => hq
  · obtain ⟨q, hq⟩ := hc.pmapMap hr hpage hmap
    exact hs.extends hr (faultProt_region hprot).1 hq
  · exact hs.of_tables rfl fun _ _ hq => hq

lemma Served.create (hs : Served s) {regions : ℕ → Option Prot}
    (h : s.pmapNew regions = some t) : Served t := by
  unfold Mmu.pmapNew at h
  split at h
  case isFalse => cases h
  case isTrue =>
    cases h
    intro i q page hq hv hw
    rcases update_some_cases hq with ⟨_, rfl⟩ | ⟨_, hold⟩
    · cases hv
    · exact hs i q page hold hv hw

lemma Served.addRegion (hs : Served s) {prot : Prot} (h : s.addRegion id page prot = some t) :
    Served t := by
  obtain ⟨p, hp, h⟩ := bind_eq_some_iff.1 h
  split at h
  case isTrue => cases h
  case isFalse hnone =>
    cases h
    intro i q j hq hv hw
    rcases update_some_cases hq with ⟨rfl, rfl⟩ | ⟨_, hold⟩
    · obtain ⟨prot', hreg, hdirty⟩ := hs i p j hp hv hw
      have hne : j ≠ page := by
        rintro rfl
        exact hnone (hreg ▸ rfl)
      exact ⟨prot', (Function.update_of_ne hne ..).trans hreg, hdirty⟩
    · exact hs i q j hold hv hw

lemma mmuStep_of_faultStep {ev : MmuEvent} (h : faultStep s ev = some t) :
    mmuStep s ev = some t := by
  cases ev with
  | map => cases h
  | _ => exact h

lemma Served.activate (hs : Served s) {target : Option ℕ}
    (h : s.pmapActivate target = some t) : Served t := by
  unfold Mmu.pmapActivate at h
  split at h
  · cases h
    exact hs.of_tables rfl fun _ _ hq => hq
  · cases h

lemma served_step (s : Mmu) (ev : MmuEvent) (t : Mmu) (h : Coherent s ∧ Served s)
    (hg : Separated s ev) (hstep : faultStep s ev = some t) : Coherent t ∧ Served t := by
  obtain ⟨hc, hs⟩ := h
  have h := mmuStep_of_faultStep hstep
  refine ⟨coherent_step s ev t hc hg h, ?_⟩
  cases ev with
  | map page frame prot fragment => cases hstep
  | access page type frame fragment =>
    obtain ⟨hpage, h⟩ := access_step h
    exact hs.access hc hg hpage h
  | window index =>
    obtain ⟨hi, id, p, frame, hid, hp, h⟩ := window_step h
    obtain ⟨-, ⟨tlb, rfl⟩, -, -⟩ := hc.window (runs_of_register hg hid hp) hi h
    exact hs.of_tables rfl fun _ _ hq => hq
  | kernel e =>
    obtain ⟨-, rfl⟩ := kernel_step h
    exact hs.of_tables rfl fun _ _ hq => hq
  | activate target => exact hs.activate h
  | create regions => exact hs.create h
  | addRegion id page prot => exact hs.addRegion h
  | delete id =>
    obtain ⟨p, -, -, rfl⟩ := delete_cases h
    exact hs.of_tables rfl fun i q hq => (update_none_cases hq).2
  | evict position =>
    cases h
    exact hs.of_tables rfl fun _ _ hq => hq

/-! ## A fault tells what the page table has -/

lemma not_mapped_of_callsMap (hc : Coherent s) (hs : Served s) (hr : s.Runs id p) (page : ℕ)
    (type : FaultType) (hpage : page < 0x80000) (h : s.CallsMap p page type)
    (hv : (p.pde (page / 1024)).valid) : (s.word p page).valid = false := by
  obtain ⟨cause, prot, htr, hprot⟩ := h
  obtain ⟨hreg, hwrite⟩ := faultProt_region hprot
  unfold Mmu.translate at htr
  cases hl : s.lookup (page / 2) with
  | some e =>
    simp only [hl] at htr
    obtain ⟨hvpn, hh⟩ := hc.lookup_holds hr hl (user_of_lookup hl (.inl (by omega)))
    rw [(hh.table page hpage hvpn.symm).2] at htr
    split at htr
    · cases htr
    by_contra hvalid
    have hvalid := Bool.eq_true_of_not_eq_false hvalid
    -- a valid word faults for a write only, and its region then forbids writing
    obtain ⟨prot', hreg', hdirty⟩ := hs id p page hr.pmap hv hvalid
    cases type with
    | read => simp_all
    | write => simp_all
  | none =>
    simp only [hl] at htr
    cases hw : s.windowFrame (page / 1024) with
    | some frame =>
      simp only [hw] at htr
      cases htr
    | none => simp [hw, hv] at htr

/-! ## No panic -/

lemma window_some (ha : s.asid = id) {index : ℕ} (hv : (p.pde index).valid) :
    ∃ r, s.window id p index = some r := by
  unfold Mmu.window
  cases hw : s.windowFrame index with
  | some frame => exact ⟨_, rfl⟩
  | none =>
    simp only [hv, windowFrame_loadDirectory s p index ha hv]
    exact ⟨_, rfl⟩

lemma pmapAddPde_some (p : UserPmap) (index : ℕ) (ha : s.asid = id) (hf : fragment ∉ s.frames) :
    ∃ t, s.pmapAddPde id p index fragment = some (t, p.addFragment index fragment) := by
  have hv : ((p.addFragment index fragment).pde index).valid := by
    simp [UserPmap.addFragment]
  let s' := (s.takeFrame fragment).setPmap id (p.addFragment index fragment)
  obtain ⟨⟨u, frame⟩, hu⟩ := window_some (s := s') ha hv
  simp only [Mmu.pmapAddPde, hf]
  exact ⟨_, map_eq_some_iff.2 ⟨_, hu, rfl⟩⟩

lemma Coherent.pmapSetPte_some (hc : Coherent s) (hr : s.Runs id p) (hpage : page < 0x80000)
    (hf : fragment ∉ s.frames) (frame : ℕ) (prot : Prot) :
    ∃ t, s.pmapSetPte id p page frame prot fragment = some t := by
  unfold Mmu.pmapSetPte
  by_cases hv : (p.pde (page / 1024)).valid
  · obtain ⟨r, hw⟩ := window_some hr.tagged hv
    simp [hv, hw]
  obtain ⟨t, ht⟩ := pmapAddPde_some p (page / 1024) hr.tagged hf
  have hadd := hc.pmapAddPde hr (by omega) (Bool.eq_false_iff.2 hv) ht
  obtain ⟨r, hw⟩ := window_some hadd.runs.tagged
    (show ((p.addFragment (page / 1024) fragment).pde (page / 1024)).valid = true by
      simp [UserPmap.addFragment])
  simp [hv, ht, hw]

lemma Coherent.pmapMap_some (hc : Coherent s) (hr : s.Runs id p) (hpage : page < 0x80000)
    (hf : fragment ∉ s.frames)
    (hnew : (p.pde (page / 1024)).valid → (s.word p page).valid = false) (frame : ℕ)
    (prot : Prot) : ∃ t, s.pmapMap id p page frame prot fragment = some t := by
  unfold Mmu.pmapMap
  by_cases hv : (p.pde (page / 1024)).valid
  · obtain ⟨⟨u, table⟩, hu⟩ := window_some hr.tagged hv
    have hext := hc.window_extends hr (by omega) (fun _ _ => False) hu
    obtain ⟨-, ⟨tlb, rfl⟩, -, rfl⟩ := hc.window hr (by omega) hu
    have hword : (s.tables (p.pde (page / 1024)).pfn (page % 1024)).valid = false := hnew hv
    obtain ⟨t, ht⟩ := hext.coherent.pmapSetPte_some hext.runs hpage hf frame prot
    exact ⟨t, by simpa [hv, hu, hword] using ht⟩
  · obtain ⟨t, ht⟩ := hc.pmapSetPte_some hr hpage hf frame prot
    exact ⟨t, by simpa [hv] using ht⟩

lemma neverRemaps (hc : Coherent s) (hs : Served s) (ev : MmuEvent) (hg : Separated s ev) :
    NeverRemaps s ev := by
  cases ev with
  | access page type frame fragment =>
    intro id p ha
    have hr := runs_of_register hg ha.active ha.pmap
    have hnew := not_mapped_of_callsMap hc hs hr page type ha.user
    refine ⟨fun hcalls => ?_, ?_⟩
    · rw [isMapped_table]
      cases hv : (p.pde (page / 1024)).valid with
      | false => rfl
      | true => exact hnew hcalls hv
    · simp only [faultStep, mmuStep, ha.user, Mmu.access, ha.active, ha.pmap, ha.alive,
      bind_eq_bind, bind_some]
      cases htr : s.translate p page type with
      | hit => exact ⟨_, rfl⟩
      | refill table => exact ⟨_, rfl⟩
      | directory => exact ⟨_, rfl⟩
      | fault cause =>
        cases hprot : p.faultProt page cause with
        | none =>
          simp only [hprot]
          exact ⟨_, rfl⟩
        | some prot =>
          simp only [hprot]
          exact hc.pmapMap_some hr ha.user ha.fresh (hnew ⟨cause, prot, htr, hprot⟩) frame prot
  | _ => trivial

/-- In every run that keeps address spaces separated, no fault maps a page that is mapped. -/
theorem neverRemaps_always (events : List MmuEvent)
    (h : Meets faultStep Separated Mmu.boot events) :
    Meets faultStep NeverRemaps Mmu.boot events := by
  have hinv := always_of_meets served_step ⟨Coherent.boot, fun _ _ _ hp => by cases hp⟩ h
  exact h.mono hinv fun _ ev hs hsep => neverRemaps hs.1 hs.2 ev hsep

theorem neverRemaps_turnEvents : (exec faultStep Mmu.boot turnEvents).isSome ∧
      Meets faultStep NeverRemaps Mmu.boot turnEvents :=
  ⟨by decide +kernel, neverRemaps_always turnEvents (meets_of_check (by decide +kernel))⟩

/-- The second process has page 2. The first touches it, is killed, and the second gets its
turn. -/
def strayEvents : List MmuEvent :=
  [.create (regionsAt [0]), .create (regionsAt [2]), .activate (some 2), .access 2 .read 100 50,
    .activate (some 1), .access 0 .read 101 51, .access 2 .read 0 0, .access 2 .read 0 0,
    .activate (some 2)]

/-- The fault of the second process is for a page that it has mapped: a panic. -/
theorem strayEvents_remap : (∃ s p, exec faultStep Mmu.boot strayEvents = some s ∧ s.killed = {1} ∧
      s.Accesses 2 p 2 52 ∧ s.asid = 2 ∧ s.CallsMap p 2 .read ∧
      Vm.pmapIsMapped (s.table p) (2 * Vm.pageSize) = true) ∧
    exec faultStep Mmu.boot (strayEvents ++ [.access 2 .read 0 52]) = none := by
  refine ⟨⟨_, _, rfl, by decide +kernel, ⟨rfl, rfl, by decide +kernel, by decide,
    by decide +kernel⟩, rfl, ⟨.read, _, ?_, rfl⟩, ?_⟩, ?_⟩ <;> decide +kernel

end GzOS.Tlb
