import GzOS.Bindings
import GzOS.Tlb

/-!
# Coherence of the translation buffer

Every entry for user space is tagged with the address space whose words it holds, and an
entry that is global belongs to the active one. The kernel replaces or invalidates the
entries that become stale, so each change of a table is treated as made after its
entries are gone.
-/
namespace GzOS.Tlb
open TlbEntry Mmu Function Option

open Bindings
open Vm (Pte Prot FaultType userPte)

/-! ## Words of a pair -/

lemma pair_parity {a b : ℕ} (h : a / 2 = b / 2) :
    a % 2 = 0 ∧ a = b - b % 2 ∨ a % 2 = 1 ∧ a = b - b % 2 + 1 := by
  omega

variable {index vpn2 frame fragment page : ℕ} {e : TlbEntry}

lemma directory_lo (p : UserPmap) (vpn2 id : ℕ) {i : ℕ} (h : i / 2 = index / 2) :
    (mk vpn2 id (p.pde (index - index % 2)) (p.pde (index - index % 2 + 1))).lo i = p.pde i := by
  rcases pair_parity h with ⟨h0, he⟩ | ⟨h1, he⟩
  · simp [lo, h0, ← he]
  · simp [lo, h1, ← he]

lemma holds_directory (s : Mmu) (p : UserPmap) (id index : ℕ) (hi : index < 512) :
    s.Holds p ⟨windowPair index, id, p.pde (index - index % 2), p.pde (index - index % 2 + 1)⟩ where
  table page hp h := by
    simp only [windowPair] at h
    omega
  directory _ _ h := by
    simp only [windowPair] at h
    exact directory_lo p _ _ (by omega)

lemma holds_refill (s : Mmu) (p : UserPmap) (id page : ℕ) (hpage : page < 0x80000)
    (hv : (p.pde (page / 1024)).valid) :
    let frame := (p.pde (page / 1024)).pfn
    let even := page % 1024 - page % 2
    s.Holds p ⟨page / 2, id, s.tables frame even, s.tables frame (even + 1)⟩ where
  table i _ h := by
    replace h : i / 2 = page / 2 := h
    have hf : i / 1024 = page / 1024 := by omega
    refine ⟨hf ▸ hv, ?_⟩
    rcases pair_parity h with ⟨h0, he⟩ | ⟨h1, he⟩
    · have hm : i % 1024 = page % 1024 - page % 2 := by omega
      simp [lo, h0, word, hf, hm]
    · have hm : i % 1024 = page % 1024 - page % 2 + 1 := by omega
      simp [lo, h1, word, hf, hm]
  directory i _ h := by
    simp only [windowPair] at h
    omega

/-! ## Frames of the fragments -/

structure UserPmap.Proper (p : UserPmap) : Prop where
  fragment : ∀ index, (p.pde index).valid = true → (p.pde index).pfn ∈ p.ptePages
  distinct : ∀ i j, (p.pde i).valid = true → (p.pde j).valid = true →
    (p.pde i).pfn = (p.pde j).pfn → i = j

structure Allotted (pmaps : ℕ → Option UserPmap) (frames : Finset ℕ) : Prop where
  proper : ∀ id p, pmaps id = some p → p.Proper
  apart : ∀ i j p q, pmaps i = some p → pmaps j = some q → i ≠ j →
    ∀ frame ∈ p.ptePages, frame ∉ q.ptePages
  taken : ∀ id p, pmaps id = some p → ∀ frame ∈ p.ptePages, frame ∈ frames

variable {q : UserPmap}

lemma Allotted.set {pmaps : ℕ → Option UserPmap} {frames frames' : Finset ℕ}
    (h : Allotted pmaps frames) {id : ℕ} (hq : q.Proper)
    (hapart : ∀ i r, i ≠ id → pmaps i = some r → ∀ frame ∈ r.ptePages, frame ∉ q.ptePages)
    (htaken : ∀ frame ∈ q.ptePages, frame ∈ frames') (hsub : frames ⊆ frames') :
    Allotted (update pmaps id (some q)) frames' where
  proper i r hr := by
    rcases update_some_cases hr with ⟨_, rfl⟩ | ⟨_, hold⟩
    · exact hq
    · exact h.proper i r hold
  apart i j r r' hr hr' hij frame hin hin' := by
    rcases update_some_cases hr with ⟨rfl, rfl⟩ | ⟨hi, hold⟩ <;>
      rcases update_some_cases hr' with ⟨rfl, rfl⟩ | ⟨hj, hold'⟩
    · exact hij rfl
    · exact hapart j r' hj hold' frame hin' hin
    · exact hapart i r hi hold frame hin hin'
    · exact h.apart i j r r' hold hold' hij frame hin hin'
  taken i r hr frame hin := by
    rcases update_some_cases hr with ⟨_, rfl⟩ | ⟨_, hold⟩
    · exact htaken frame hin
    · exact hsub (h.taken i r hold frame hin)

structure Coherent (s : Mmu) : Prop where
  owner : ∀ e ∈ s.tlb, e.user → ∃ p, s.pmaps e.asid = some p ∧ s.Holds p e
  globals : ∀ e ∈ s.tlb, e.user → e.global = true → s.userPmap = some e.asid
  unique : s.tlb.Pairwise fun d e => d.user → d.vpn2 = e.vpn2 → d.asid ≠ e.asid
  allotted : Allotted s.pmaps s.frames
  counted : 0 < s.asidCounter
  numbered : ∀ id p, s.pmaps id = some p → 0 < id ∧ id < s.asidCounter
  live : ∀ id, s.userPmap = some id → ∃ p, s.pmaps id = some p
  register : s.asid = 0 ∨ s.userPmap = some s.asid

lemma Coherent.boot : Coherent boot := by
  constructor
  case allotted => constructor <;> simp [Mmu.boot]
  all_goals simp [Mmu.boot]

structure Mmu.Runs (s : Mmu) (id : ℕ) (p : UserPmap) : Prop where
  active : s.userPmap = some id
  tagged : s.asid = id
  pmap : s.pmaps id = some p

section Lookup

variable {s : Mmu} {id : ℕ} {p : UserPmap}

lemma runs_of_register (h : s.userPmap = some s.asid) (hid : s.userPmap = some id)
    (hp : s.pmaps id = some p) : s.Runs id p :=
  ⟨hid, some.inj (h.symm.trans hid), hp⟩

lemma Coherent.hits_iff (hc : Coherent s) (hr : s.Runs id p) (he : e ∈ s.tlb) (hu : e.user) :
    e.hits vpn2 id ↔ e.vpn2 = vpn2 ∧ e.asid = id := by
  rw [TlbEntry.hits_iff]
  refine and_congr_right fun _ => ⟨fun h => ?_, Or.inr⟩
  rcases h with hg | ha
  · exact some.inj ((hc.globals e he hu hg).symm.trans hr.active)
  · exact ha

lemma lookup_some (h : s.lookup vpn2 = some e) : e ∈ s.tlb ∧ e.hits vpn2 s.asid := by
  refine ⟨List.mem_of_find?_eq_some h, ?_⟩
  simpa using List.find?_some h

lemma Coherent.lookup_holds (hc : Coherent s) (hr : s.Runs id p) (h : s.lookup vpn2 = some e)
    (hu : e.user) : e.vpn2 = vpn2 ∧ s.Holds p e := by
  obtain ⟨he, hh⟩ := lookup_some h
  rw [hr.tagged] at hh
  obtain ⟨hv, ha⟩ := (hc.hits_iff hr he hu).1 hh
  obtain ⟨q, hq, hholds⟩ := hc.owner e he hu
  rw [ha, hr.pmap] at hq
  exact ⟨hv, some.inj hq ▸ hholds⟩

lemma user_of_lookup (h : s.lookup vpn2 = some e)
    (hv : vpn2 < 0x40000 ∨ 0x60000 ≤ vpn2 ∧ vpn2 < 0x60100) : e.user := by
  have hh := (hits_iff.1 (lookup_some h).2).1
  simpa only [user, hh] using hv

lemma Coherent.windowFrame (hc : Coherent s) (hr : s.Runs id p) (hi : index < 512)
    (h : s.windowFrame index = some frame) :
    (p.pde index).valid ∧ frame = (p.pde index).pfn := by
  obtain ⟨w, hw, hf⟩ := bind_eq_some_iff.1 h
  obtain ⟨hv, hh⟩ := hc.lookup_holds hr hw (user_of_lookup hw (by unfold windowPair; omega))
  rw [hh.directory index hi hv.symm] at hf
  split at hf
  · exact ⟨‹_›, (some.inj hf).symm⟩
  · cases hf

def Mmu.Free (s : Mmu) (vpn2 id : ℕ) : Prop := ∀ e ∈ s.tlb, e.user → e.vpn2 = vpn2 → e.asid ≠ id

lemma Coherent.free_of_lookup (hc : Coherent s) (hr : s.Runs id p) (h : s.lookup vpn2 = none) :
    s.Free vpn2 id := by
  intro e he hu hv ha
  have hn := List.find?_eq_none.1 h e he
  rw [hr.tagged] at hn
  exact hn ((hc.hits_iff hr he hu).2 ⟨hv, ha⟩)

end Lookup

/-! ## Changes of the buffer -/

variable {t : Mmu}

section Buffer

variable {s : Mmu} {id : ℕ} {p : UserPmap}

lemma Coherent.owner_of (hc : Coherent s) (hpmaps : t.pmaps = s.pmaps)
    (htables : t.tables = s.tables) (he : e ∈ s.tlb) (hu : e.user) :
    ∃ p, t.pmaps e.asid = some p ∧ t.Holds p e := by
  obtain ⟨q, hq, hh⟩ := hc.owner e he hu
  refine ⟨q, hpmaps ▸ hq, fun page hp hv => ?_, hh.directory⟩
  simpa only [word, htables] using hh.table page hp hv

lemma Coherent.sublist (hc : Coherent s) {tlb : List TlbEntry} (h : tlb.Sublist s.tlb) :
    Coherent { s with tlb := tlb } :=
  { hc with
    owner := fun e he => hc.owner_of (by rfl) (by rfl) (h.subset he)
    globals := fun e he => hc.globals e (h.subset he)
    unique := hc.unique.sublist h }

lemma Coherent.push (hc : Coherent s) (hr : s.Runs id p) (ha : e.asid = id) (hh : s.Holds p e)
    (hf : s.Free e.vpn2 id) : Coherent { s with tlb := e :: s.tlb } :=
  { hc with
    owner := by
      intro d hd hu
      rcases List.mem_cons.1 hd with rfl | hd
      · exact ⟨p, ha ▸ hr.pmap, hh.table, hh.directory⟩
      · exact hc.owner_of (by rfl) (by rfl) hd hu
    globals := by
      intro d hd hu hg
      rcases List.mem_cons.1 hd with rfl | hd
      · exact ha ▸ hr.active
      · exact hc.globals d hd hu hg
    unique := by
      refine List.pairwise_cons.2 ⟨fun d hd hu hv hda => ?_, hc.unique⟩
      have hdu : d.user := by simpa only [user, hv] using hu
      exact hf d hd hdu hv.symm (hda.symm.trans ha) }

lemma Coherent.free_eraseP (hc : Coherent s) (hr : s.Runs id p) (vpn2 : ℕ) :
    (s.tlbInvalidate vpn2 id).Free vpn2 id := by
  intro e he hu hv ha
  obtain ⟨hin, hu'⟩ : e ∈ s.tlb ∧ e.user := ⟨List.mem_of_mem_eraseP he, hu⟩
  have hhit : e.hits vpn2 id := (hc.hits_iff hr hin hu').2 ⟨hv, ha⟩
  obtain ⟨d, l1, l2, hl1, hd, heq, herase⟩ :=
    List.exists_of_eraseP (p := (·.hits vpn2 id)) hin hhit
  have hdin : d ∈ s.tlb := heq ▸ by simp
  have hdv := (TlbEntry.hits_iff.1 hd).1
  have hdu : d.user := by
    have : d.vpn2 = e.vpn2 := hdv.trans hv.symm
    simpa only [user, this] using hu
  have hda := ((hc.hits_iff hr hdin hdu).1 hd).2
  simp only [tlbInvalidate] at he
  rw [herase, List.mem_append] at he
  rcases he with he | he
  · exact hl1 e he hhit
  · have hu := hc.unique
    rw [heq, List.pairwise_append] at hu
    exact (List.pairwise_cons.1 hu.2.1).1 e he hdu (hdv.trans hv.symm) (hda.trans ha.symm)

lemma Coherent.invalidate (hc : Coherent s) (vpn2 asid : ℕ) :
    Coherent (s.tlbInvalidate vpn2 asid) :=
  hc.sublist List.eraseP_sublist

lemma Mmu.Runs.invalidate (hr : s.Runs id p) (vpn2 asid : ℕ) :
    (s.tlbInvalidate vpn2 asid).Runs id p := ⟨hr.active, hr.tagged, hr.pmap⟩

lemma Coherent.loadDirectory (hc : Coherent s) (hr : s.Runs id p) (hi : index < 512) :
    Coherent (s.loadDirectory id p index) :=
  (hc.invalidate (windowPair index) id).push (hr.invalidate _ _) rfl
    (holds_directory _ p id index hi) (hc.free_eraseP hr _)

lemma windowFrame_loadDirectory (s : Mmu) (p : UserPmap) (index : ℕ) (ha : s.asid = id)
    (hv : (p.pde index).valid) :
    (s.loadDirectory id p index).windowFrame index = some (p.pde index).pfn := by
  have hlo := directory_lo p (windowPair index) id (rfl : index / 2 = index / 2)
  simp [windowFrame, lookup, loadDirectory, tlbOverwriteRandom, hits, ha, hlo, hv]

lemma Coherent.window (hc : Coherent s) (hr : s.Runs id p) (hi : index < 512)
    (h : s.window id p index = some (t, frame)) :
    Coherent t ∧ (∃ tlb, t = { s with tlb := tlb }) ∧ (p.pde index).valid ∧
      frame = (p.pde index).pfn := by
  unfold Mmu.window at h
  split at h
  case h_1 f hf =>
    obtain ⟨rfl, rfl⟩ := Prod.mk.inj (some.inj h)
    exact ⟨hc, ⟨s.tlb, rfl⟩, hc.windowFrame hr hi hf⟩
  case h_2 =>
    split at h
    case isTrue hv =>
      simp only [windowFrame_loadDirectory s p index hr.tagged hv] at h
      obtain ⟨rfl, rfl⟩ := Prod.mk.inj (some.inj h)
      exact ⟨hc.loadDirectory hr hi, ⟨_, rfl⟩, hv, rfl⟩
    case isFalse => cases h

end Buffer

/-! ## Changes of the tables -/

section Tables

variable {s : Mmu} {id : ℕ} {p : UserPmap}

lemma Mmu.Holds.congr (h : s.Holds p e) (htable : ∀ page, page < 0x80000 → page / 2 = e.vpn2 →
      (p.pde (page / 1024)).valid →
      q.pde (page / 1024) = p.pde (page / 1024) ∧ t.word q page = s.word p page)
    (hdir : ∀ index, index < 512 → windowPair index = e.vpn2 → q.pde index = p.pde index) :
    t.Holds q e where
  table page hp hv := by
    obtain ⟨hvalid, hw⟩ := h.table page hp hv
    obtain ⟨hpde, hword⟩ := htable page hp hv hvalid
    rw [hpde, hword]
    exact ⟨hvalid, hw⟩
  directory index hi hv := (h.directory index hi hv).trans (hdir index hi hv).symm

lemma Coherent.pfn_ne (hc : Coherent s) {i : ℕ} (hq : s.pmaps i = some q)
    (hv : (q.pde index).valid) (hf : fragment ∉ s.frames) : (q.pde index).pfn ≠ fragment :=
  fun h => hf (h ▸ hc.allotted.taken i q hq _ ((hc.allotted.proper i q hq).fragment index hv))

lemma Coherent.proper_addFragment (hc : Coherent s) (hp : s.pmaps id = some p)
    (hf : fragment ∉ s.frames) : (p.addFragment index fragment).Proper where
  fragment j hv := by
    by_cases hj : j = index
    · subst hj
      simp [UserPmap.addFragment]
    · simp only [UserPmap.addFragment, update_of_ne hj] at hv ⊢
      exact List.mem_append_left _ ((hc.allotted.proper id p hp).fragment j hv)
  distinct j k hj hk h := by
    by_cases hji : j = index <;> by_cases hki : k = index
    · exact hji.trans hki.symm
    · subst hji
      simp only [UserPmap.addFragment, update_self, update_of_ne hki] at hk h
      exact absurd h.symm (hc.pfn_ne hp hk hf)
    · subst hki
      simp only [UserPmap.addFragment, update_self, update_of_ne hji] at hj h
      exact absurd h (hc.pfn_ne hp hj hf)
    · simp only [UserPmap.addFragment, update_of_ne hji, update_of_ne hki]
        at hj hk h
      exact (hc.allotted.proper id p hp).distinct j k hj hk h

/-- The TLB must have no entry of its own for the window of a new fragment. -/
lemma Coherent.addFragment (hc : Coherent s) (hr : s.Runs id p)
    (hfree : s.Free (windowPair index) id) (hnew : (p.pde index).valid = false)
    (hf : fragment ∉ s.frames) (words : ℕ → Pte) :
    Coherent (((s.takeFrame fragment).setPmap id (p.addFragment index fragment)).storeTable
      fragment words) where
  owner e he hu := by
    obtain ⟨p', hp', hh⟩ := hc.owner e he hu
    by_cases ha : e.asid = id
    · obtain rfl : p = p' := some.inj (hr.pmap.symm.trans (ha ▸ hp'))
      refine ⟨_, by rw [ha]; exact update_self .., hh.congr ?_ ?_⟩
      · intro page _ _ hv
        have hne : page / 1024 ≠ index := by
          rintro rfl
          simp [hnew] at hv
        have hpfn := hc.pfn_ne hp' hv hf
        simp [word, storeTable, setPmap, takeFrame, UserPmap.addFragment,
          update_of_ne hne, update_of_ne hpfn]
      · intro i _ hv
        have hne : i ≠ index := by
          rintro rfl
          exact hfree e he hu hv.symm ha
        exact update_of_ne hne ..
    · refine ⟨p', (update_of_ne ha ..).trans hp', hh.congr ?_ fun _ _ _ => rfl⟩
      intro page _ _ hv
      simp [word, storeTable, setPmap, takeFrame, update_of_ne (hc.pfn_ne hp' hv hf)]
  globals := hc.globals
  unique := hc.unique
  allotted := by
    refine hc.allotted.set (hc.proper_addFragment hr.pmap hf) ?_ ?_ (Finset.subset_insert ..)
    · intro i r hi hri frame hin hin'
      rcases List.mem_append.1 hin' with hold | hold
      · exact hc.allotted.apart i id r p hri hr.pmap hi frame hin hold
      · obtain rfl := List.mem_singleton.1 hold
        exact hf (hc.allotted.taken i r hri _ hin)
    · intro frame hin
      rcases List.mem_append.1 hin with hold | hold
      · exact Finset.mem_insert_of_mem (hc.allotted.taken id p hr.pmap frame hold)
      · exact Finset.mem_insert.2 (.inl (List.mem_singleton.1 hold))
  counted := hc.counted
  numbered i q hq := by
    rcases update_some_cases hq with ⟨rfl, rfl⟩ | ⟨_, hq⟩
    · exact hc.numbered i p hr.pmap
    · exact hc.numbered i q hq
  live i hi := update_some_bound (hc.live i hi) ..
  register := hc.register

lemma Coherent.word_storeWord (hc : Coherent s) (hr : s.Runs id p)
    (hv : (p.pde (page / 1024)).valid) (w : Pte) {i j : ℕ} (hq : s.pmaps i = some q)
    (hj : (q.pde (j / 1024)).valid) :
    (s.storeWord (p.pde (page / 1024)).pfn (page % 1024) w).word q j =
      if i = id ∧ j = page then w else s.word q j := by
  by_cases hi : i = id
  · obtain rfl : p = q := some.inj (hr.pmap.symm.trans (hi ▸ hq))
    by_cases hfrag : j / 1024 = page / 1024
    · by_cases hm : j % 1024 = page % 1024
      · have hjp : j = page := by omega
        simp [word, storeWord, storeTable, hi, hjp]
      · have hjp : j ≠ page := fun h => hm (h ▸ rfl)
        simp [word, storeWord, storeTable, hjp, hfrag, update_of_ne hm]
    · have hne : (p.pde (j / 1024)).pfn ≠ (p.pde (page / 1024)).pfn :=
        fun h => hfrag ((hc.allotted.proper i p hq).distinct _ _ hj hv h)
      have hjp : j ≠ page := fun h => hfrag (h ▸ rfl)
      simp [word, storeWord, storeTable, hjp, update_of_ne hne]
  · have hne : (q.pde (j / 1024)).pfn ≠ (p.pde (page / 1024)).pfn := fun h =>
      hc.allotted.apart i id q p hq hr.pmap hi _ ((hc.allotted.proper i q hq).fragment _ hj)
        (h ▸ (hc.allotted.proper id p hr.pmap).fragment _ hv)
    simp [word, storeWord, storeTable, hi, update_of_ne hne]

lemma Coherent.storeWord (hc : Coherent s) (hr : s.Runs id p) (hfree : s.Free (page / 2) id)
    (hv : (p.pde (page / 1024)).valid) (w : Pte) :
    Coherent (s.storeWord (p.pde (page / 1024)).pfn (page % 1024) w) :=
  { hc with
    owner := by
      intro e he hu
      obtain ⟨q, hq, hh⟩ := hc.owner e he hu
      refine ⟨q, hq, hh.congr (fun j _ hj hjv => ⟨rfl, ?_⟩) fun _ _ _ => rfl⟩
      rw [hc.word_storeWord hr hv w hq hjv, if_neg]
      rintro ⟨ha, rfl⟩
      exact hfree e he hu hj.symm ha }

end Tables

/-! ## `pmap_map` -/

/-- `new` says which words it stores; the other valid words are the old ones. -/
structure Extends (new : ℕ → Pte → Prop) (s : Mmu) (id : ℕ) (p : UserPmap) (t : Mmu)
    (q : UserPmap) : Prop where
  coherent : Coherent t
  runs : t.Runs id q
  regions : q.regions = p.regions
  others : ∀ i r, i ≠ id → t.pmaps i = some r → s.pmaps i = some r ∧
    ∀ j, (r.pde (j / 1024)).valid = true → t.word r j = s.word r j
  words : ∀ j, (q.pde (j / 1024)).valid = true → (t.word q j).valid = true →
    new j (t.word q j) ∨ (p.pde (j / 1024)).valid = true ∧ t.word q j = s.word p j

section Map

variable {s : Mmu} {id : ℕ} {p : UserPmap}

/-- The stale entry does not translate the new page of the window, so the fragment is filled
through a new one. -/
lemma Coherent.pmapAddPde (hc : Coherent s) (hr : s.Runs id p) (hi : index < 512)
    (hnew : (p.pde index).valid = false) (h : s.pmapAddPde id p index fragment = some (t, q)) :
    Extends (fun _ _ => False) s id p t q := by
  unfold Mmu.pmapAddPde at h
  split at h
  case isTrue => cases h
  case isFalse hf =>
    let q' := p.addFragment index fragment
    let s' := (s.takeFrame fragment).setPmap id q'
    have hv : (q'.pde index).valid := by simp [q', UserPmap.addFragment]
    have hpfn : (q'.pde index).pfn = fragment := by simp [q', UserPmap.addFragment]
    have hmiss : s'.windowFrame index = none := by
      cases hw : s.windowFrame index with
      | none => exact hw
      | some frame =>
        rw [(hc.windowFrame hr hi hw).1] at hnew
        cases hnew
    have hwin : s'.window id q' index = some (s'.loadDirectory id q' index, fragment) := by
      simp [Mmu.window, hmiss, hv, windowFrame_loadDirectory s' q' index hr.tagged hv, hpfn]
    obtain ⟨rfl, rfl⟩ : (s'.loadDirectory id q' index).storeTable fragment
        (fun _ => ⟨0, false, false, true⟩) = t ∧ q' = q := by
      simpa [s', q', hwin] using h
    have hfree := hc.free_eraseP hr (windowPair index)
    have hadd := (hc.invalidate (windowPair index) id).addFragment (hr.invalidate _ _) hfree hnew
      hf fun _ => ⟨0, false, false, true⟩
    have hruns : ((((s.tlbInvalidate (windowPair index) id).takeFrame fragment).setPmap id
        q').storeTable fragment fun _ => ⟨0, false, false, true⟩).Runs id q' :=
      ⟨hr.active, hr.tagged, update_self ..⟩
    refine ⟨hadd.push hruns rfl (holds_directory _ q' id index hi) hfree,
      ⟨hr.active, hr.tagged, update_self ..⟩, rfl, ?_, ?_⟩
    · intro i r hne hri
      rcases update_some_cases hri with ⟨he, _⟩ | ⟨_, hri⟩
      · exact absurd he hne
      · refine ⟨hri, fun j hj => ?_⟩
        simp only [word]
        exact congrFun (update_of_ne (hc.pfn_ne hri hj hf) ..) _
    · intro j hj hw
      by_cases he : j / 1024 = index
      · simp [word, storeTable, he, hpfn] at hw
      have hpde : q'.pde (j / 1024) = p.pde (j / 1024) := update_of_ne he ..
      rw [hpde] at hj
      refine .inr ⟨hj, ?_⟩
      simp only [word, hpde]
      exact congrFun (update_of_ne (hc.pfn_ne hr.pmap hj hf) ..) _

lemma Extends.trans {new new' : ℕ → Pte → Prop} {u : Mmu} {r : UserPmap}
    (h : Extends new s id p t q) (h' : Extends new' t id q u r) (hn : ∀ j w, new j w → new' j w) :
    Extends new' s id p u r where
  coherent := h'.coherent
  runs := h'.runs
  regions := h'.regions.trans h.regions
  others i r hi hri := by
    obtain ⟨hti, htw⟩ := h'.others i r hi hri
    obtain ⟨hsi, hsw⟩ := h.others i r hi hti
    exact ⟨hsi, fun j hj => (htw j hj).trans (hsw j hj)⟩
  words j hj hw := by
    rcases h'.words j hj hw with hnew | ⟨hq, he⟩
    · exact .inl hnew
    · rw [he] at hw ⊢
      exact (h.words j hq hw).imp (hn j _) fun hold => hold

lemma Coherent.window_extends (hc : Coherent s) (hr : s.Runs id p) (hi : index < 512)
    (new : ℕ → Pte → Prop) (h : s.window id p index = some (t, frame)) :
    Extends new s id p t p := by
  obtain ⟨ht, ⟨tlb, rfl⟩, _, _⟩ := hc.window hr hi h
  exact ⟨ht, ⟨hr.active, hr.tagged, hr.pmap⟩, rfl, fun _ _ _ hq => ⟨hq, fun _ _ => rfl⟩,
    fun _ hv _ => .inr ⟨hv, rfl⟩⟩

/-- The word is stored before its entry is invalidated, with the same result. -/
lemma Coherent.setWord (hc : Coherent s) (hr : s.Runs id p)
    (hv : (p.pde (page / 1024)).valid) (w : Pte) :
    Extends (fun j w' => j = page ∧ w' = w) s id p
      ((s.storeWord (p.pde (page / 1024)).pfn (page % 1024) w).tlbInvalidate (page / 2) id) p where
  coherent := (hc.invalidate (page / 2) id).storeWord (hr.invalidate _ _)
    (hc.free_eraseP hr _) hv w
  runs := ⟨hr.active, hr.tagged, hr.pmap⟩
  regions := rfl
  others i r hi hri := by
    refine ⟨hri, fun j hj => ?_⟩
    exact (hc.word_storeWord hr hv w hri hj).trans (if_neg fun h => hi h.1)
  words j hj _ := by
    have hword := hc.word_storeWord hr hv w hr.pmap hj
    by_cases he : j = page
    · exact .inl ⟨he, hword.trans (if_pos ⟨rfl, he⟩)⟩
    · exact .inr ⟨hj, hword.trans (if_neg fun h => he h.2)⟩

lemma Coherent.pmapSetPte (hc : Coherent s) (hr : s.Runs id p) {prot : Prot}
    (hpage : page < 0x80000) (h : s.pmapSetPte id p page frame prot fragment = some t) :
    ∃ q, Extends (fun j w => j = page ∧ w = userPte frame prot) s id p t q := by
  have hi : page / 1024 < 512 := by omega
  obtain ⟨⟨s1, q⟩, h1, h⟩ := bind_eq_some_iff.1 h
  obtain ⟨⟨s2, table⟩, h2, rfl⟩ := map_eq_some_iff.1 h
  have hadd : Extends (fun _ _ => False) s id p s1 q := by
    split at h1
    case isTrue =>
      obtain ⟨rfl, rfl⟩ := Prod.mk.inj (some.inj h1)
      exact ⟨hc, hr, rfl, fun _ _ _ hq => ⟨hq, fun _ _ => rfl⟩, fun _ hv _ => .inr ⟨hv, rfl⟩⟩
    case isFalse hv => exact hc.pmapAddPde hr hi (Bool.eq_false_iff.2 hv) h1
  obtain ⟨hc2, -, hv, rfl⟩ := hadd.coherent.window hadd.runs hi h2
  have hwin := hadd.coherent.window_extends hadd.runs hi (fun _ _ => False) h2
  exact ⟨q, (hadd.trans hwin fun _ _ hfalse => hfalse).trans (hc2.setWord hwin.runs hv _)
    fun _ _ hfalse => hfalse.elim⟩

lemma Coherent.pmapMap (hc : Coherent s) (hr : s.Runs id p) {prot : Prot} (hpage : page < 0x80000)
    (h : s.pmapMap id p page frame prot fragment = some t) :
    ∃ q, Extends (fun j w => j = page ∧ w = userPte frame prot) s id p t q := by
  have hi : page / 1024 < 512 := by omega
  unfold Mmu.pmapMap at h
  split at h
  · obtain ⟨⟨s1, table⟩, h1, h⟩ := bind_eq_some_iff.1 h
    have hwin := hc.window_extends hr hi (fun _ _ => False) h1
    dsimp only at h
    split at h
    · cases h
    · obtain ⟨q, hq⟩ := hwin.coherent.pmapSetPte hwin.runs hpage h
      exact ⟨q, hwin.trans hq fun _ _ hfalse => hfalse.elim⟩
  · exact hc.pmapSetPte hr hpage h

end Map
end GzOS.Tlb
