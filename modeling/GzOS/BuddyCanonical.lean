import GzOS.BuddySafety

/-!
# Canonical free queues

The free queues hold the maximal aligned blocks of the pages that are neither live nor
reserved, so they come back when these do. After an allocation and the free of its
block even the order comes back: the splits leave one block in each of the queues below
the one they started from, which were empty, and the merges go up to that one again.
-/
namespace GzOS.PhysMem
open DyadicTiling Seg Runs List Option

variable {n : ℕ} {T : Tiling Kind n}

def freePages (s : State) : Set ℕ := {q | q < s.seg.npages ∧ (∀ p, ¬LiveAt s p q) ∧ ¬ReservedAt s q}

/-- The queues hold the maximal aligned blocks of free pages. -/
def Decomposed (s : State) : Prop := ∀ i p, p ∈ s.seg.freeq i ↔ MaximalBlock (freePages s) p i

def NoFreeBuddies (s : State) : Prop := ∀ i, ∀ p ∈ s.seg.freeq i, buddy p i ∉ s.seg.freeq i

def CanonicalState (s : State) : Prop :=
  ∃ n, ∃ T : Tiling Kind n, Rep s.seg s.live T ∧ Settled T ∧ T.Canonical .free

variable {s : State}

lemma freePages_eq (h : SegRep s.seg s.live T) (hs : Settled T) :
    freePages s = {q | T.kindAt q = some .free} := by
  ext q
  simp only [freePages, liveAt_iff h, h.npages]
  constructor
  · rintro ⟨hq, hlive, hres⟩
    rw [reservedAt_iff h hq] at hres
    cases ho : T.owner q with
    | none => exact absurd ho hres
    | some t =>
      obtain ⟨kind, p, k⟩ := t
      cases kind with
      | free => exact T.kindAt_of_owner ho
      | live => exact absurd ⟨k, ho⟩ (hlive p)
      | held => exact absurd rfl (hs q _ ho)
  · intro hq
    obtain ⟨⟨kind, p, k⟩, ho, rfl⟩ := T.kindAt_eq_some.1 hq
    refine ⟨T.lt ho, fun p' hp' => ?_, ?_⟩
    · obtain ⟨k', hk'⟩ := hp'
      rw [ho] at hk'
      cases hk'
    · rw [reservedAt_iff h (T.lt ho), ho]
      exact some_ne_none _

lemma CanonicalState.decomposed (hs : CanonicalState s) : Decomposed s := by
  obtain ⟨n, T, h, hset, hT⟩ := hs
  intro i p
  rw [freePages_eq h.toSegRep hset, ← hT.owner_iff]
  exact ⟨h.toSegRep.owner_of_mem, h.toSegRep.mem_of_owner⟩

lemma CanonicalState.noFreeBuddies (hs : CanonicalState s) : NoFreeBuddies s := by
  obtain ⟨n, T, h, hset, hT⟩ := hs
  intro i p hp hb
  have ho := h.toSegRep.owner_of_mem hp
  have hob := h.toSegRep.owner_of_mem hb
  unfold buddy at hb hob
  split_ifs at hb hob with heven
  · exact (hT p i (Nat.dvd_of_mod_eq_zero heven) ho hob).elim id id
  · obtain ⟨hle, hal⟩ := upper_half (T.aligned ho) heven
    have hp' : p - 2 ^ i + 2 ^ i = p := Nat.sub_add_cancel hle
    exact (hT _ i hal hob (hp'.symm ▸ ho)).elim id id

/-! ## Runs -/

def SameReserved (s t : State) : Prop :=
  t.seg.npages = s.seg.npages ∧ ∀ q < s.seg.npages, ReservedAt t q ↔ ReservedAt s q

lemma SameReserved.refl (s : State) : SameReserved s s := ⟨rfl, fun _ _ => Iff.rfl⟩

lemma SameReserved.trans {t u : State} (h : SameReserved s t) (h' : SameReserved t u) :
    SameReserved s u :=
  ⟨h'.1.trans h.1, fun q hq => (h'.2 q (h.1 ▸ hq)).trans (h.2 q hq)⟩

lemma canonical_step (s : State) (op : Op) (hs : CanonicalState s) (hop : Allowed s op) :
    ∃ t, step s op = some t ∧ CanonicalState t ∧
      ((∀ start stop, op ≠ .reserve start stop) → SameReserved s t) := by
  obtain ⟨n, T, h, hset, hT⟩ := hs
  obtain ⟨t, T', hstep, h', hset', heff⟩ := step_spec s op h hset hop
  refine ⟨t, hstep, ⟨n, T', h', hset', heff.canonical hT⟩, fun hne => ⟨?_, fun q hq => ?_⟩⟩
  · rw [h'.npages, h.npages]
  rw [h.npages] at hq
  rw [reservedAt_iff h'.toSegRep hq, reservedAt_iff h.toSegRep hq, ← T'.kindAt_eq_none,
    ← T.kindAt_eq_none]
  exact heff.reserved hne q

def Op.IsCall : Op → Prop
  | .alloc _ => True
  | .free _ => True
  | _ => False

lemma canonical_run {ops : List Op} (hs : CanonicalState s) (hcalls : ∀ op ∈ ops, op.IsCall)
    (hops : Meets step Allowed s ops) :
    ∃ t, exec step s ops = some t ∧ CanonicalState t ∧ SameReserved s t := by
  induction ops generalizing s with
  | nil => exact ⟨s, rfl, hs, .refl s⟩
  | cons op ops ih =>
    obtain ⟨hop, hrest⟩ := meets_cons.1 hops
    obtain ⟨hcall, hcalls⟩ := forall_mem_cons.1 hcalls
    obtain ⟨t, hstep, ht, hsame⟩ := canonical_step s op hs hop
    obtain ⟨u, hrun, hu, hsame'⟩ := ih ht hcalls (hrest t hstep)
    have hne : ∀ start stop, op ≠ .reserve start stop := by
      rintro _ _ rfl
      exact hcall
    exact ⟨u, exec_cons_some.2 ⟨t, hstep, hrun⟩, hu, (hsame hne).trans hsame'⟩

lemma reserve_run {ranges : List (ℕ × ℕ)} (hs : CanonicalState s)
    (hops : Meets step Allowed s (ranges.map fun r => .reserve r.1 r.2)) :
    ∃ t, exec step s (ranges.map fun r => .reserve r.1 r.2) = some t ∧ CanonicalState t ∧
      t.live = s.live := by
  induction ranges generalizing s with
  | nil => exact ⟨s, rfl, hs, rfl⟩
  | cons r ranges ih =>
    obtain ⟨hop, hrest⟩ := meets_cons.1 hops
    obtain ⟨t, hstep, ht, -⟩ := canonical_step s _ hs hop
    obtain ⟨u, hrun, hu, hlive⟩ := ih ht (hrest t hstep)
    refine ⟨u, exec_cons_some.2 ⟨t, hstep, hrun⟩, hu, hlive.trans ?_⟩
    obtain ⟨seg, -, rfl⟩ := map_eq_some_iff.1 hstep
    rfl

/-! ## Sets of free blocks -/

lemma queues_determined {t : State} (hs : CanonicalState s) (ht : CanonicalState t)
    (hsame : SameReserved s t) (hlive : ∀ p q, LiveAt t p q ↔ LiveAt s p q) (i p : ℕ) :
    p ∈ t.seg.freeq i ↔ p ∈ s.seg.freeq i := by
  have hpages : freePages t = freePages s := by
    ext q
    simp only [freePages, hsame.1, hlive]
    constructor
    · rintro ⟨hq, hl, hr⟩
      exact ⟨hq, hl, fun h => hr ((hsame.2 q hq).2 h)⟩
    · rintro ⟨hq, hl, hr⟩
      exact ⟨hq, hl, fun h => hr ((hsame.2 q hq).1 h)⟩
  rw [ht.decomposed i p, hs.decomposed i p, hpages]

lemma free_run {pages : List ℕ} (hs : CanonicalState s) (hnd : pages.Nodup)
    (hlive : ∀ p ∈ pages, ∃ m, s.live p = some m) :
    ∃ t, exec step s (pages.map .free) = some t ∧ CanonicalState t ∧ SameReserved s t ∧
      ∀ p, t.live p = if p ∈ pages then none else s.live p := by
  induction pages generalizing s with
  | nil => exact ⟨s, rfl, hs, .refl s, fun p => by simp⟩
  | cons page pages ih =>
    obtain ⟨hnot, hnd⟩ := nodup_cons.1 hnd
    obtain ⟨t, hstep, ht, hsame⟩ := canonical_step s (.free page) hs (hlive page (by simp))
    have htlive : t.live = Function.update s.live page none := by
      obtain ⟨seg, -, rfl⟩ := map_eq_some_iff.1 hstep
      rfl
    have hrest : ∀ p ∈ pages, ∃ m, t.live p = some m := by
      intro p hp
      have hne : p ≠ page := fun he => hnot (he ▸ hp)
      rw [htlive, Function.update_of_ne hne]
      exact hlive p (mem_cons_of_mem _ hp)
    obtain ⟨u, hrun, hu, hsame', hulive⟩ := ih ht hnd hrest
    refine ⟨u, exec_cons_some.2 ⟨t, hstep, hrun⟩, hu, (hsame (by simp)).trans hsame', fun p => ?_⟩
    rw [hulive, htlive]
    by_cases hp : p = page
    · simp [hp]
    · simp [hp]

/-! ## The order of the queues -/

lemma queues_restored {Q Q1 Q2 : ℕ → List ℕ} {k i f : ℕ} (hi : Q i ≠ [])
    (hempty : ∀ m, k ≤ m → m < i → Q m = []) (htop : Q1 i = (Q i).tail)
    (hothers : ∀ m, m < k ∨ i < m → Q1 m = Q m) (hki : k ≤ i) (hkf : k ≤ f)
    (htop' : ∃ x, Q2 f = x :: Q1 f) (hothers' : ∀ m, m < k ∨ f < m → Q2 m = Q1 m)
    (hmerged : ∀ m, k ≤ m → m < f → ∃ x, Q2 m = (Q1 m).erase x)
    (hnd : (Q i).Nodup) (hnd' : (Q2 i).Nodup) (hmem : ∀ m p, p ∈ Q2 m ↔ p ∈ Q m) (m : ℕ) :
    Q2 m = Q m := by
  obtain ⟨h, rest, hQ⟩ := exists_cons_of_ne_nil hi
  rw [hQ] at htop hnd
  obtain ⟨hnot, -⟩ := nodup_cons.1 hnd
  have hback : h ∈ Q2 i := (hmem i h).2 (hQ ▸ mem_cons_self)
  rw [tail_cons] at htop
  -- the merged block must return to the queue it came from
  obtain rfl : f = i := by
    rcases lt_trichotomy f i with hlt | heq | hgt
    · rw [hothers' i (.inr hlt), htop] at hback
      exact absurd hback hnot
    · exact heq
    · obtain ⟨x, hx⟩ := hmerged i hki hgt
      rw [hx, htop] at hback
      exact absurd (mem_of_mem_erase hback) hnot
  by_cases hm : m = f
  · subst hm
    obtain ⟨x, hx⟩ := htop'
    rw [htop] at hx
    have hin : x ∈ Q m := (hmem m x).1 (hx ▸ mem_cons_self)
    rw [hQ] at hin
    rw [hx] at hnd'
    obtain rfl : x = h :=
      (mem_cons.1 hin).resolve_right (nodup_cons.1 hnd').1
    rw [hx, hQ]
  · by_cases hlow : k ≤ m ∧ m < f
    · have hnil := hempty m hlow.1 hlow.2
      rw [hnil]
      refine eq_nil_iff_forall_not_mem.2 fun p hp => ?_
      rw [hmem, hnil] at hp
      cases hp
    · rw [hothers' m (by omega), hothers m (by omega)]

/-- The merges of the free undo the splits of the allocation. -/
lemma free_alloc (hs : CanonicalState s) {k : ℕ} (hk : k ≤ 15) {page : ℕ} {seg1 : Seg}
    (halloc : pmAlloc s.seg (2 ^ k) = some (some page, seg1)) :
    ∃ seg2, pmFree seg1 page = some seg2 ∧ (∀ i, seg2.freeq i = s.seg.freeq i) ∧
      pmHash seg2 = pmHash s.seg := by
  obtain ⟨n, T, hsmall, hset, hT⟩ := hs
  have h := hsmall.toSegRep
  have hn : n < 2 ^ pmNqueues := lt_of_le_of_lt hsmall.small (by decide)
  have hk' : k < pmNqueues := by
    simp only [pmNqueues]
    omega
  rcases pmAlloc_spec h hset hk' with
    hnull | ⟨i, page', seg', T1, hrun, h1, hset1, htook, hki, hi, hempty⟩
  · rw [hnull] at halloc
    cases halloc
  rw [hrun] at halloc
  cases halloc
  have hT1 := (htook.effect (.alloc (2 ^ k)) hi).canonical hT
  obtain ⟨seg2, f, T2, hfree, h2, hset2, hfreed⟩ := pmFree_spec h1 hset1 htook.owner
    (pinned_of_lt hn page)
  have hkinds : ∀ q, T2.kindAt q = T.kindAt q := by
    intro q
    rw [hfreed.kinds, htook.kinds]
    split_ifs with hq
    · exact (htook.free q hq).symm
    · rfl
  have hmem : ∀ m p, p ∈ seg2.freeq m ↔ p ∈ s.seg.freeq m := by
    intro m p
    have hq2 : p ∈ seg2.freeq m ↔ T2.owner p = some ⟨.free, p, m⟩ :=
      ⟨h2.owner_of_mem, h2.mem_of_owner⟩
    have hq : p ∈ s.seg.freeq m ↔ T.owner p = some ⟨.free, p, m⟩ :=
      ⟨h.owner_of_mem, h.mem_of_owner⟩
    rw [hq2, hq, (hfreed.canonical hT1).owner_iff, hT.owner_iff]
    simp only [hkinds]
  have hqueues := queues_restored hi hempty htook.top htook.others hki hfreed.le hfreed.top
    hfreed.others hfreed.merged (h.nodup i) (h2.nodup i) hmem
  refine ⟨seg2, hfree, hqueues, ?_⟩
  simp only [pmHash, pgStart, hfreed.start.trans htook.start, hqueues]

/-! ## From boot -/

lemma boot_canonical {start k : ℕ} (hk : k ≤ 15) (hstart : pageSize ∣ start) :
    ∃ s, boot start k = some s ∧ CanonicalState s ∧ s.live = fun _ => none := by
  refine ⟨⟨freshSeg start k, fun _ => none⟩, ?_, ⟨2 ^ k, _, freshSeg_rep hk hstart,
    single_settled k, ?_⟩, rfl⟩
  · rw [boot, pmSegInit_eq hk hstart, map_some]
  -- the one block has no buddy
  intro p j _ h1 h2
  simp only [Tiling.single] at h1 h2
  split_ifs at h1 h2
  simp only [some.injEq, Tile.mk.injEq] at h1 h2
  omega

def liveBlocks (s : State) : List ℕ := (range s.seg.npages).filter fun p => (s.live p).isSome

lemma mem_liveBlocks (hs : CanonicalState s) {p : ℕ} :
    p ∈ liveBlocks s ↔ ∃ m, s.live p = some m := by
  obtain ⟨n, T, h, hset, -⟩ := hs
  rw [liveBlocks, mem_filter, mem_range, isSome_iff_exists]
  constructor
  · exact And.right
  · rintro ⟨m, hm⟩
    obtain ⟨k, -, ho⟩ := (live_iff_owner h.toSegRep).1 hm
    exact ⟨h.npages.symm ▸ T.lt ho, m, hm⟩

/-- After any reservations, in every state that allocations and frees reach the
queues are the maximal blocks of the free pages; freeing the live blocks in any
order gives back the free blocks from before, and freeing what an allocation
returned gives back the queues themselves. -/
theorem buddy_canonical (start k : ℕ) (hk : k ≤ 15) (hstart : pageSize ∣ start) :
    ∃ s₀, boot start k = some s₀ ∧ ∀ ranges : List (ℕ × ℕ),
      Meets step Allowed s₀ (ranges.map fun r => .reserve r.1 r.2) →
      ∃ s, exec step s₀ (ranges.map fun r => .reserve r.1 r.2) = some s ∧
        ∀ ops, (∀ op ∈ ops, op.IsCall) → Meets step Allowed s ops →
        ∃ t, exec step s ops = some t ∧ Decomposed t ∧ NoFreeBuddies t ∧
          (∀ pages : List ℕ, pages.Perm (liveBlocks t) →
            ∃ u, exec step t (pages.map .free) = some u ∧
              ∀ i p, p ∈ u.seg.freeq i ↔ p ∈ s.seg.freeq i) ∧
          ∀ j ≤ 15, ∀ page seg₁, pmAlloc t.seg (2 ^ j) = some (some page, seg₁) →
            ∃ seg₂, pmFree seg₁ page = some seg₂ ∧ (∀ i, seg₂.freeq i = t.seg.freeq i) ∧
              pmHash seg₂ = pmHash t.seg := by
  obtain ⟨s₀, hboot, hs0, hlive0⟩ := boot_canonical hk hstart
  refine ⟨s₀, hboot, fun ranges hranges => ?_⟩
  obtain ⟨s, hreserve, hs, hlive⟩ := reserve_run hs0 hranges
  refine ⟨s, hreserve, fun ops hcalls hops => ?_⟩
  obtain ⟨t, hrun, ht, hsame⟩ := canonical_run hs hcalls hops
  refine ⟨t, hrun, ht.decomposed, ht.noFreeBuddies, fun pages hperm => ?_,
    fun j hj page seg₁ halloc => free_alloc ht hj halloc⟩
  have hblocks : ∀ p, p ∈ pages ↔ ∃ m, t.live p = some m := fun p =>
    hperm.mem_iff.trans (mem_liveBlocks ht)
  have hnd : pages.Nodup := hperm.nodup_iff.2 (nodup_range.filter _)
  obtain ⟨u, hfrees, hu, hsame', hulive⟩ := free_run ht hnd fun p hp => (hblocks p).1 hp
  have hnone : ∀ p, u.live p = none := by
    intro p
    rw [hulive]
    split_ifs with hp
    · rfl
    · exact eq_none_iff_forall_ne_some.2 fun m hm => hp ((hblocks p).2 ⟨m, hm⟩)
  refine ⟨u, hfrees, queues_determined hs hu (hsame.trans hsame') fun p q => ?_⟩
  simp [LiveAt, hnone, hlive, hlive0]

/-- Four pages, the first one reserved, and one page allocated. -/
theorem buddy_canonical_reserved :
    ∃ s₀, boot 0 2 = some s₀ ∧ ∃ s, exec step s₀ [.reserve 0 4096] = some s ∧
      ∃ t, exec step s [.alloc 1] = some t ∧ Decomposed t ∧ NoFreeBuddies t := by
  obtain ⟨s₀, hboot, hrun⟩ := buddy_canonical 0 2 (by decide) (dvd_zero _)
  have hbounds : (boot 0 2).map (fun s => (s.seg.start, s.seg.stop)) = some (0, 16384) := by
    decide +kernel
  rw [hboot, map_some, some.injEq, Prod.mk.injEq] at hbounds
  have hranges : Meets step Allowed s₀ ([((0 : ℕ), 4096)].map fun r => .reserve r.1 r.2) := by
    refine meets_cons.2 ⟨⟨by decide, by decide, by decide, ?_, ?_⟩, fun _ _ => meets_nil _ _ _⟩
    · exact hbounds.1.le
    · rw [hbounds.2]
      decide
  obtain ⟨s, hs, hcalls⟩ := hrun _ hranges
  obtain ⟨t, ht, hdec, hno, -⟩ := hcalls [.alloc 1] (by simp [Op.IsCall])
    (meets_cons.2 ⟨⟨0, by decide, rfl⟩, fun _ _ => meets_nil _ _ _⟩)
  exact ⟨s₀, hboot, s, hs, t, ht, hdec, hno⟩

end GzOS.PhysMem
