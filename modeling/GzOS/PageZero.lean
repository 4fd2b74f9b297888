import GzOS.BuddySafety

/-!
# No residual data in free pages

`pm_free` clears a block before it merges it, and `pm_alloc` clears nothing. The two fit
together because only a free makes pages free, and those are the pages it cleared.
-/
namespace GzOS.PageZero
open DyadicTiling PhysMem Runs Option

structure Ram where
  state : State
  contents : ℕ → ℕ → UInt8

def clear (contents : ℕ → ℕ → UInt8) (page n : ℕ) : ℕ → ℕ → UInt8 :=
  fun q => if page ≤ q ∧ q < page + n then fun _ => 0 else contents q

inductive Event
  | call (op : Op)
  /-- The holder of the block at `head` writes a byte. -/
  | write (head page offset : ℕ) (value : UInt8)

/-- `PG_SIZE(page)` bytes are cleared, with the size from before the merges. -/
def call (s : Ram) (op : Op) : Option Ram :=
  (step s.state op).map fun state =>
    match op with
    | .free page => ⟨state, clear s.contents page (s.state.seg.size page)⟩
    | _ => ⟨state, s.contents⟩

def ramStep (s : Ram) : Event → Option Ram
  | .call op => call s op
  | .write _ page offset value =>
    some { s with contents :=
      Function.update s.contents page (Function.update (s.contents page) offset value) }

/-- Correct calls, and writes by the holders of blocks. -/
def Held (s : Ram) : Event → Prop
  | .call op => Allowed s.state op
  | .write head page _ _ => LiveAt s.state head page

/-- The object gets the new page. Without one the code writes through null. -/
def defaultPagerFault (s : Ram) : Option (ℕ × Ram) := do
  let (page, seg) ← pmAlloc s.state.seg 1
  let page ← page
  some (page, { s with state := ⟨seg, Function.update s.state.live page (some 1)⟩ })

/-- What `pm_alloc` would return now is zero in every byte. -/
def Blank (s : Ram) : Prop :=
  ∀ k ≤ 15, ∀ page seg, pmAlloc s.state.seg (2 ^ k) = some (some page, seg) →
    seg.size page = 2 ^ k ∧ ∀ q ∈ block page k, ∀ offset, s.contents q offset = 0

def Ram.boot (start k : ℕ) : Option Ram :=
  (PhysMem.boot start k).map fun state => ⟨state, fun _ _ => 0⟩

def Zeroed (s : Ram) : Prop :=
  ∃ n, ∃ T : Tiling Kind n, Rep s.state.seg s.state.live T ∧ Settled T ∧
    ∀ q, T.kindAt q = some .free → ∀ offset, s.contents q offset = 0

lemma Zeroed.blank {s : Ram} (hs : Zeroed s) : Blank s := by
  obtain ⟨n, T, h, hset, hzero⟩ := hs
  intro k hk page seg halloc
  have hk' : k < pmNqueues := by
    simp only [pmNqueues]
    omega
  rcases pmAlloc_spec h.toSegRep hset hk' with hnull | ⟨_, _, _, _, hrun, h', -, htook, -⟩
  · rw [hnull] at halloc
    cases halloc
  · rw [hrun] at halloc
    cases halloc
    exact ⟨h'.size_of_owner htook.owner, fun q hq => hzero q (htook.free q hq)⟩

lemma Zeroed.call {s : Ram} (hs : Zeroed s) {op : Op} (hop : Allowed s.state op) :
    ∃ t, PageZero.call s op = some t ∧ Zeroed t := by
  obtain ⟨n, T, h, hset, hzero⟩ := hs
  obtain ⟨state, T', hstep, h', hset', heff⟩ := step_spec s.state op h hset hop
  simp only [PageZero.call, hstep]
  refine ⟨_, rfl, ?_⟩
  cases op with
  | free page =>
    refine ⟨n, T', h', hset', fun q hq offset => ?_⟩
    simp only [clear]
    split_ifs with hin
    · rfl
    -- a page that the call did not clear was free before it
    refine hzero q ((heff.free q hq).resolve_right ?_) offset
    rintro ⟨p, he, hp⟩
    cases he
    exact hin hp
  | _ =>
    refine ⟨n, T', h', hset', fun q hq => hzero q ((heff.free q hq).resolve_right ?_)⟩
    rintro ⟨p, he, -⟩
    cases he

lemma Zeroed.write {s : Ram} (hs : Zeroed s) {head page : ℕ}
    (hlive : LiveAt s.state head page) (offset : ℕ) (value : UInt8) :
    Zeroed { s with contents :=
      Function.update s.contents page (Function.update (s.contents page) offset value) } := by
  obtain ⟨n, T, h, hset, hzero⟩ := hs
  refine ⟨n, T, h, hset, fun q hq o => ?_⟩
  obtain ⟨k, ho⟩ := (liveAt_iff h.toSegRep).1 hlive
  have hne : q ≠ page := by
    rintro rfl
    rw [T.kindAt_of_owner ho] at hq
    cases hq
  simp only [Function.update_of_ne hne]
  exact hzero q hq o

lemma zeroed_step (s : Ram) (e : Event) (hs : Zeroed s) (he : Held s e) :
    ∃ t, ramStep s e = some t ∧ Zeroed t := by
  cases e with
  | call op => exact hs.call he
  | write head page offset value => exact ⟨_, rfl, hs.write he offset value⟩

lemma Zeroed.fault {s t : Ram} (hs : Zeroed s) {page : ℕ}
    (h : defaultPagerFault s = some (page, t)) (offset : ℕ) : t.contents page offset = 0 := by
  simp only [defaultPagerFault, bind_eq_bind, bind_eq_some_iff] at h
  obtain ⟨⟨r, seg⟩, halloc, page', hpage, he⟩ := h
  obtain rfl : r = some page' := hpage
  cases he
  have hblank := hs.blank 0 (Nat.zero_le _) page seg halloc
  exact hblank.2 page (head_mem_block page 0) offset

/-- In every run of correct calls and of writes by block holders, `pm_alloc`
returns zeros, and what a process reads from a freshly faulted page is the same
in any two runs. -/
theorem allocated_pages_zero (start k : ℕ) (hk : k ≤ 15) (hstart : pageSize ∣ start) :
    ∃ s, Ram.boot start k = some s ∧ (∀ events, Meets ramStep Held s events →
        (∃ t, exec ramStep s events = some t) ∧ Always ramStep Blank s events) ∧
      ∀ events₁ events₂, Meets ramStep Held s events₁ → Meets ramStep Held s events₂ →
        ∀ t₁ t₂, exec ramStep s events₁ = some t₁ → exec ramStep s events₂ = some t₂ →
        ∀ page₁ u₁ page₂ u₂, defaultPagerFault t₁ = some (page₁, u₁) →
          defaultPagerFault t₂ = some (page₂, u₂) → u₁.contents page₁ = u₂.contents page₂ := by
  obtain ⟨state, hstate, n, T, h, hset⟩ := boot_tiled hk hstart
  obtain ⟨s, hboot, hs⟩ : ∃ s, Ram.boot start k = some s ∧ Zeroed s :=
    ⟨⟨state, fun _ _ => 0⟩, by rw [Ram.boot, hstate, map_some], n, T, h, hset, fun _ _ _ => rfl⟩
  have hinv : ∀ events, Meets ramStep Held s events → Always ramStep Zeroed s events :=
    fun events hevents => always_of_progress zeroed_step hs hevents
  refine ⟨s, hboot, fun events hevents => ?_, ?_⟩
  · exact ⟨exec_of_meets zeroed_step hs hevents, (hinv events hevents).mono fun _ => Zeroed.blank⟩
  intro events₁ events₂ h1 h2 t₁ t₂ ht1 ht2 page₁ u₁ page₂ u₂ hf1 hf2
  funext offset
  rw [((hinv events₁ h1).last ht1).fault hf1 offset, ((hinv events₂ h2).last ht2).fault hf2 offset]

/-- Page 3 of four is allocated, written, freed and faulted in again. -/
theorem allocated_pages_zero_rewritten :
    ∃ s, Ram.boot 0 2 = some s ∧
      Always ramStep Blank s [.call (.alloc 1), .write 3 3 7 42, .call (.free 3)] := by
  obtain ⟨s, hboot, hrun, -⟩ := allocated_pages_zero 0 2 (by decide) (dvd_zero _)
  have hlive : ((Ram.boot 0 2).bind fun s => ramStep s (.call (.alloc 1))).map
      (fun t => t.state.live 3) = some (some 1) := by decide +kernel
  rw [hboot] at hlive
  refine ⟨s, hboot, (hrun _ ?_).2⟩
  refine meets_cons.2 ⟨⟨0, by decide, rfl⟩, fun t ht => ?_⟩
  simp only [bind_some, ht, map_some, some.injEq] at hlive
  refine meets_cons.2 ⟨⟨1, hlive, le_rfl, by decide⟩, fun u hu => ?_⟩
  cases hu
  exact meets_cons.2 ⟨⟨1, hlive⟩, fun _ _ => meets_nil _ _ _⟩

end GzOS.PageZero
