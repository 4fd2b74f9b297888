import GzOS.BuddySafety

/-!
# Reservations are exact

That nothing of the range stays free is the loop invariant of the search; that nothing
else is taken follows from the code, which marks only blocks that lie in the range.
-/
namespace GzOS.PhysMem
open DyadicTiling Seg Runs Option

variable {n : ℕ} {seg seg' : Seg} {live : ℕ → Option ℕ} {T T' : Tiling Kind n}
  {start stop q : ℕ}

def InRange (seg : Seg) (start stop q : ℕ) : Prop :=
  start ≤ seg.pgStart q ∧ seg.pgStart q < stop

def FreeAt (s : State) (q : ℕ) : Prop := ∃ b, QueuedAt s b q

variable {s : State} {i pg : ℕ}

lemma freeAt_iff (h : SegRep s.seg s.live T) : FreeAt s q ↔ T.kindAt q = some .free := by
  rw [T.kindAt_eq_some]
  constructor
  · rintro ⟨b, hb⟩
    exact ⟨_, (queuedAt_iff h).1 hb, rfl⟩
  · rintro ⟨⟨kind, p, k⟩, ht, rfl⟩
    exact ⟨(k, p), (queuedAt_iff h).2 ht⟩

/-! What the search marks. -/

structure MarksOnly (seg seg' : Seg) (start stop : ℕ) : Prop where
  bounds : seg'.bounds = seg.bounds
  reserved : ∀ q, ¬ InRange seg start stop q → (seg'.pages q).reserved = (seg.pages q).reserved

lemma MarksOnly.refl (seg : Seg) (start stop : ℕ) : MarksOnly seg seg start stop :=
  ⟨rfl, fun _ _ => rfl⟩

lemma MarksOnly.trans {seg1 seg2 : Seg} (h1 : MarksOnly seg seg1 start stop)
    (h2 : MarksOnly seg1 seg2 start stop) : MarksOnly seg seg2 start stop where
  bounds := h2.bounds.trans h1.bounds
  reserved q hq := by
    have hbase : seg1.start = seg.start := start_of_bounds h1.bounds
    have hq1 : ¬ InRange seg1 start stop q := by
      simp only [InRange, pgStart, hbase] at hq ⊢
      exact hq
    exact (h2.reserved q hq1).trans (h1.reserved q hq)

lemma reserveBlock_marksOnly (h : reserveBlock seg i pg = some seg')
    (hin : Contained seg start stop pg) : MarksOnly seg seg' start stop := by
  obtain ⟨removed, hremoved, rfl⟩ := map_eq_some_iff.1 h
  unfold remove at hremoved
  split_ifs at hremoved
  cases hremoved
  refine ⟨by simp, fun q hq => ?_⟩
  have hout : ¬ (pg ≤ q ∧ q < pg + (seg.unlink i pg).size pg) := by
    intro hblock
    apply hq
    obtain ⟨hlow, hhigh⟩ := hin
    have hsize : (seg.unlink i pg).size pg = seg.size pg := rfl
    simp only [InRange, pgStart, pgEnd, pageSize] at *
    omega
  simp [if_neg hout]

lemma pmSplitPage_marksOnly (h : pmSplitPage seg pg = some seg') (start stop : ℕ) :
    MarksOnly seg seg' start stop := by
  simp only [pmSplitPage, bind_eq_bind, bind_eq_some_iff] at h
  obtain ⟨-, -, i, -, -, -, -, -, removed, hremoved, j, -, he⟩ := h
  unfold remove at hremoved
  split_ifs at hremoved
  cases hremoved
  cases he
  refine ⟨by simp, fun q _ => ?_⟩
  simp only [setManaged_pages, insertHead_pages, setSize_pages]
  split_ifs <;> rfl

lemma reserveQueue_marksOnly {fuel : ℕ} (h : reserveQueue start stop i fuel seg = some seg') :
    MarksOnly seg seg' start stop := by
  induction fuel generalizing seg with
  | zero =>
    rw [reserveQueue] at h
    split_ifs at h
    cases h
    exact .refl ..
  | succ fuel ih =>
    rw [reserveQueue] at h
    cases htouch : touched seg start stop i with
    | none =>
      rw [htouch] at h
      cases h
      exact .refl ..
    | some pg =>
      simp only [htouch] at h
      obtain ⟨seg1, h1, h⟩ := bind_eq_some_iff.1 h
      have hfirst : MarksOnly seg seg1 start stop := by
        split_ifs at h1 with hin
        · exact reserveBlock_marksOnly h1 hin
        · exact pmSplitPage_marksOnly h1 start stop
      exact hfirst.trans (ih h)

lemma reserveQueues_marksOnly {m : ℕ} (h : reserveQueues start stop m seg = some seg') :
    MarksOnly seg seg' start stop := by
  induction m generalizing seg with
  | zero =>
    cases h
    exact .refl ..
  | succ i ih =>
    obtain ⟨seg1, h1, h⟩ := bind_eq_some_iff.1 h
    exact (reserveQueue_marksOnly h1).trans (ih h)

/-! What is left free. -/

/-- Exactly the pages of the range are taken from the free ones. -/
structure Reserves (s t : State) (start stop : ℕ) : Prop where
  /-- No free block has a page of the range. -/
  clear : ∀ b q, QueuedAt t b q → ¬ InRange s.seg start stop q
  /-- The free pages are those from before without the range. -/
  free : ∀ q, FreeAt t q ↔ FreeAt s q ∧ ¬ InRange s.seg start stop q
  flagged : ∀ q, FreeAt s q → InRange s.seg start stop q → ReservedAt t q

/-- After the loop over the queues no free page of the range is left. -/
lemma reserve_reserves (h : SegRep s.seg s.live T) (hset : Settled T)
    (hop : Allowed s (.reserve start stop)) :
    ∃ t, step s (.reserve start stop) = some t ∧ Reserves s t start stop := by
  obtain ⟨seg', T', hstep, h', -, hshrunk, hclear, hrun⟩ := reserve_spec h hset hop
  have hmarks := reserveQueues_marksOnly hrun
  have hbase : seg'.start = s.seg.start := hshrunk.base
  have hgone : ∀ q, InRange s.seg start stop q → T'.kindAt q ≠ some .free := by
    intro q hin hfree
    obtain ⟨⟨kind, p, k⟩, ht, rfl⟩ := T'.kindAt_eq_some.1 hfree
    have hhead := T'.head_owner ht
    refine hclear k (h'.free_lt ht) p (h'.mem_of_owner hhead) ?_
    have hq := mem_block.1 (T'.covers ht)
    simp only [InRange, pgStart, Touches, pageSize, hbase] at *
    omega
  have hkept : ∀ q, ¬ InRange s.seg start stop q → T'.kindAt q = T.kindAt q := by
    intro q hout
    rcases hshrunk.kinds q with he | ⟨hfree, hnone⟩
    · exact he
    -- the page would have been marked
    obtain ⟨t, ht, -⟩ := T.kindAt_eq_some.1 hfree
    have hq := T.lt ht
    have hmark := (h'.page q hq).reserved_iff.2 (T'.kindAt_eq_none.1 hnone)
    rw [hmarks.reserved q hout, (h.page q hq).reserved_iff, ht] at hmark
    cases hmark
  have hfree : ∀ q, FreeAt ⟨seg', s.live⟩ q ↔ FreeAt s q ∧ ¬ InRange s.seg start stop q := by
    intro q
    rw [freeAt_iff h', freeAt_iff h]
    by_cases hin : InRange s.seg start stop q
    · exact iff_of_false (hgone q hin) fun hand => hand.2 hin
    · rw [hkept q hin]
      exact ⟨fun hf => ⟨hf, hin⟩, And.left⟩
  refine ⟨⟨seg', s.live⟩, hstep, fun b q hb => ((hfree q).1 ⟨b, hb⟩).2, hfree,
    fun q hq hin => ?_⟩
  rw [freeAt_iff h] at hq
  have hnone : T'.kindAt q = none := by
    rcases hshrunk.kinds q with he | ⟨-, hnone⟩
    · exact absurd (he.trans hq) (hgone q hin)
    · exact hnone
  obtain ⟨t, ht, -⟩ := T.kindAt_eq_some.1 hq
  exact (h'.page q (T.lt ht)).reserved_iff.2 (T'.kindAt_eq_none.1 hnone)

/-! What becomes of a reserved page. -/

def Withheld (q : ℕ) (s : State) : Prop :=
  ∃ n, ∃ T : Tiling Kind n, Rep s.seg s.live T ∧ Settled T ∧ q < n ∧ T.kindAt q = none

lemma withheld_step (q : ℕ) (s : State) (op : Op) (hs : Withheld q s) (hop : Allowed s op) :
    ∃ t, step s op = some t ∧ Withheld q t := by
  obtain ⟨n, T, h, hset, hq, hnone⟩ := hs
  cases op with
  | reserve start stop =>
    obtain ⟨seg', T', hstep, h', hset', hshrunk, -, -⟩ := reserve_spec h.toSegRep hset hop
    refine ⟨⟨seg', s.live⟩, hstep, n, T', ⟨h', h.small⟩, hset', hq, ?_⟩
    rcases hshrunk.kinds q with he | ⟨hfree, -⟩
    · exact he.trans hnone
    · rw [hnone] at hfree
      cases hfree
  | _ =>
    obtain ⟨t, T', hstep, h', hset', heff⟩ := step_spec s _ h hset hop
    exact ⟨t, hstep, n, T', h', hset', hq, (heff.reserved (by simp) q).2 hnone⟩

lemma Withheld.alloc (hs : Withheld q s) {npages page : ℕ}
    (h : pmAlloc s.seg npages = some (some page, seg')) : ¬ (page ≤ q ∧ q < page + npages) := by
  obtain ⟨n, T, hrep, hset, hq, hnone⟩ := hs
  have hguard : npages > 0 ∧ powerof2 npages := by
    by_contra hno
    simp [pmAlloc, hno] at h
  obtain ⟨k, rfl⟩ := (Nat.and_sub_one_eq_zero_iff_isPowerOfTwo hguard.1.ne').1 hguard.2
  by_cases hk : k < pmNqueues
  · rcases pmAlloc_spec hrep.toSegRep hset hk with hnull | ⟨_, _, _, _, hrun, -, -, htook, -⟩
    · rw [hnull] at h
      cases h
    rw [hrun] at h
    cases h
    intro hin
    have hfree := htook.free q hin
    rw [hnone] at hfree
    cases hfree
  · have hlog : pmNqueues ≤ log2 (2 ^ k) :=
      (le_ctz_iff (by decide)).2 (pow_dvd_pow 2 (Nat.le_of_not_lt hk))
    have hcall : pmAlloc s.seg (2 ^ k) = some (none, s.seg) := by
      simp [pmAlloc, hguard, pmAllocFromSeg, Nat.sub_eq_zero_of_le hlog]
    rw [hcall] at h
    cases h

/-- After any reservations, one more of any range takes exactly the free pages of
the range, and no allocation of a later run returns one of them. -/
theorem reserve_exact (start k : ℕ) (hk : k ≤ 15) (hstart : pageSize ∣ start) :
    ∃ s₀, boot start k = some s₀ ∧ ∀ ranges : List (ℕ × ℕ),
      Meets step Allowed s₀ (ranges.map fun r => .reserve r.1 r.2) →
      ∃ s, exec step s₀ (ranges.map fun r => .reserve r.1 r.2) = some s ∧
        ∀ low high, Allowed s (.reserve low high) →
          ∃ t, step s (.reserve low high) = some t ∧ Reserves s t low high ∧
            ∀ ops, Meets step Allowed t ops →
              Always step (fun u => ∀ npages page seg,
                pmAlloc u.seg npages = some (some page, seg) →
                  ∀ q, FreeAt s q → InRange s.seg low high q →
                    ¬ (page ≤ q ∧ q < page + npages)) t ops := by
  obtain ⟨s₀, hboot, hs0⟩ := boot_tiled hk hstart
  refine ⟨s₀, hboot, fun ranges hranges => ?_⟩
  obtain ⟨s, hs⟩ := exec_of_meets tiled_step hs0 hranges
  obtain ⟨n, T, h, hset⟩ := (always_of_progress tiled_step hs0 hranges).last hs
  refine ⟨s, hs, fun low high hop => ?_⟩
  obtain ⟨t, hstep, hres⟩ := reserve_reserves h.toSegRep hset hop
  refine ⟨t, hstep, hres, fun ops hops => ?_⟩
  have hwithheld : ∀ q, FreeAt s q → InRange s.seg low high q → Withheld q t := by
    intro q hq hin
    obtain ⟨t', T', ht', h', hset', -⟩ := step_spec s _ h hset hop
    obtain rfl := some.inj (hstep.symm.trans ht')
    obtain ⟨tile, htile, -⟩ := T.kindAt_eq_some.1 ((freeAt_iff h.toSegRep).1 hq)
    have hlt := T.lt htile
    exact ⟨n, T', h', hset', hlt,
      T'.kindAt_eq_none.2 ((reservedAt_iff h'.toSegRep hlt).1 (hres.flagged q hq hin))⟩
  intro taken htaken u hu npages page seg halloc q hq hin
  have hkept := always_of_progress (withheld_step q) (hwithheld q hq hin) hops
  exact (hkept taken htaken u hu).alloc halloc

/-- On four pages, the two in the middle after the first. -/
theorem reserve_exact_middle : ∃ s₀, boot 0 2 = some s₀ ∧
    ∃ s, exec step s₀ [.reserve 0 4096] = some s ∧
      ∃ t, step s (.reserve 4096 12288) = some t ∧ Reserves s t 4096 12288 := by
  obtain ⟨s₀, hboot, hall⟩ := reserve_exact 0 2 (by decide) (dvd_zero _)
  have hbounds : ((boot 0 2).bind fun s => exec step s [.reserve 0 4096]).map
      (fun s => (s.seg.start, s.seg.stop)) = some (0, 16384) := by decide +kernel
  have hstop : (boot 0 2).map (fun s => (s.seg.start, s.seg.stop)) = some (0, 16384) := by
    decide
  rw [hboot, map_some, some.injEq, Prod.mk.injEq] at hstop
  have hfirst : Meets step Allowed s₀ [.reserve 0 4096] := by
    refine meets_cons.2 ⟨⟨by decide, by decide, by decide, ?_, ?_⟩, fun _ _ => meets_nil _ _ _⟩
    · rw [hstop.1]
    · rw [hstop.2]
      decide
  obtain ⟨s, hs, hnext⟩ := hall [(0, 4096)] hfirst
  simp only [List.map_cons, List.map_nil] at hs
  rw [hboot, bind_some, hs, map_some, some.injEq, Prod.mk.injEq] at hbounds
  obtain ⟨t, ht, hres, -⟩ := hnext 4096 12288
    ⟨by decide, by decide, by decide, by rw [hbounds.1]; decide, by rw [hbounds.2]; decide⟩
  exact ⟨s₀, hboot, s, hs, t, ht, hres⟩

end GzOS.PhysMem
