import GzOS.PageWords

/-!
# Tests of page ranges

Both loops of `pmap_is_range_mapped` go from one directory entry to the next, so of each
1024 pages one is looked at. In the last 4 MiB of the address space the step wraps, and
a range that reaches there is walked around the whole address space.
-/
namespace GzOS.Pmap
open Vm Option Nat

/-! Single loops. -/

section Loop

variable {step : ℕ} {test : ℕ → Bool} {stop addr fuel : ℕ} {b : Bool}

lemma stridedLoop_succ (h : stridedLoop step test stop fuel addr = some b) :
    stridedLoop step test stop (fuel + 1) addr = some b := by
  induction fuel generalizing addr with
  | zero => cases h
  | succ fuel ih =>
    rw [stridedLoop] at h ⊢
    split_ifs at h ⊢
    · exact ih h
    · exact h
    · exact h

lemma stridedLoop_le {fuel' : ℕ} (hle : fuel ≤ fuel')
    (h : stridedLoop step test stop fuel addr = some b) :
    stridedLoop step test stop fuel' addr = some b := by
  induction fuel', hle using le_induction with
  | base => exact h
  | succ fuel' _ ih => exact stridedLoop_succ ih

lemma line_next {k : ℕ} (hstep : step * 1024 = 2 ^ 32) (hwrap : ¬ addr % step + 1023 * step < stop)
    (hk : addr + k * step < stop) : addr + (k + 1) * step < 2 ^ 32 := by
  have hself := mod_add_div addr step
  have hmod : addr % step < step := mod_lt _ (by omega)
  have hlt : addr / step + k < 1023 := by
    by_contra hle
    have hmul := mul_le_mul_left step (not_lt.1 hle)
    rw [mul_add] at hmul
    rw [mul_comm k] at hk
    omega
  have hle := mul_le_mul_left step hlt
  rw [mul_add_one, mul_add] at hle
  rw [add_one_mul, mul_comm k]
  omega

/-- While the address does not wrap, the loop tests one stride after the other. -/
lemma stridedLoop_line (test : ℕ → Bool) (n : ℕ) (hn : stop ≤ addr + n * step)
    (hline : ∀ k, addr + k * step < stop → addr + (k + 1) * step < 2 ^ 32) :
    ∃ b, stridedLoop step test stop (n + 1) addr = some b ∧
      (b ↔ ∀ k, addr + k * step < stop → test (addr + k * step)) := by
  induction n generalizing addr with
  | zero =>
    refine ⟨true, ?_, iff_of_true rfl fun k hk => ?_⟩
    · rw [stridedLoop, if_neg (by omega)]
    · omega
  | succ n ih =>
    rw [stridedLoop]
    by_cases hstop : addr < stop
    swap
    · rw [if_neg hstop]
      exact ⟨true, rfl, iff_of_true rfl fun k hk => by omega⟩
    rw [if_pos hstop]
    cases htest : test addr with
    | false =>
      refine ⟨false, rfl, iff_of_false (by decide) fun hall => ?_⟩
      have hfirst := hall 0 (by simpa using hstop)
      rw [zero_mul, add_zero, htest] at hfirst
      cases hfirst
    | true =>
      have hshift : ∀ k, addr + step + k * step = addr + (k + 1) * step := by
        intro k
        rw [add_one_mul]
        omega
      have hnext : u32 (addr + step) = addr + step := by
        have := hline 0 (by simpa using hstop)
        exact mod_eq_of_lt (by omega)
      have hn' : stop ≤ addr + step + n * step := by
        rw [add_one_mul] at hn
        omega
      have hline' : ∀ k, addr + step + k * step < stop → addr + step + (k + 1) * step < 2 ^ 32 := by
        intro k hk
        rw [hshift] at hk ⊢
        exact hline (k + 1) hk
      obtain ⟨b, hb, hiff⟩ := ih hn' hline'
      refine ⟨b, ?_, hiff.trans ⟨fun hall k hk => ?_, fun hall k hk => ?_⟩⟩
      · rw [hnext]
        exact hb
      · cases k with
        | zero => simpa using htest
        | succ k =>
          rw [← hshift] at hk ⊢
          exact hall k hk
      · rw [hshift] at hk ⊢
        exact hall (k + 1) hk

/-! A loop around the address space. -/

variable (hstep : step * 1024 = 2 ^ 32) (hcycle : addr % step + 1023 * step < stop)
  (haddr : addr < 2 ^ 32)

include hstep

lemma step_div_lt (haddr : addr < 2 ^ 32) : addr / step < 1024 := by
  rw [← hstep] at haddr
  exact Nat.div_lt_of_lt_mul haddr

lemma cycle_next (addr : ℕ) :
    u32 (addr + step) % step = addr % step ∧
      u32 (addr + step) / step = (addr / step + 1) % 1024 := by
  have hpos : 0 < step := by omega
  constructor
  · rw [u32, mod_mod_of_dvd _ ⟨1024, hstep.symm⟩, add_mod_right]
  · rw [u32, ← hstep, mod_mul_right_div_self, add_div_right _ hpos]

include hcycle haddr

lemma cycle_inside : addr < stop := by
  have hdiv := step_div_lt hstep haddr
  have hself := mod_add_div addr step
  have hle : step * (addr / step) ≤ step * 1023 := mul_le_mul_left _ (by omega)
  omega

lemma stridedLoop_ne_true (fuel : ℕ) : stridedLoop step test stop fuel addr ≠ some true := by
  induction fuel generalizing addr with
  | zero => exact fun h => by cases h
  | succ fuel ih =>
    obtain ⟨hmod, -⟩ := cycle_next hstep addr
    rw [stridedLoop, if_pos (cycle_inside hstep hcycle haddr)]
    split_ifs
    · exact ih (by rwa [hmod]) (mod_lt _ (by decide))
    · exact fun h => by cases h

lemma stridedLoop_false {j : ℕ} (d : ℕ) (hj : (addr / step + d) % 1024 = j)
    (htest : test (addr % step + step * j) = false) :
    stridedLoop step test stop (d + 1) addr = some false := by
  induction d generalizing addr with
  | zero =>
    have hdiv := step_div_lt hstep haddr
    have hj' : addr / step = j := by rwa [add_zero, mod_eq_of_lt hdiv] at hj
    rw [← hj', mod_add_div] at htest
    rw [stridedLoop, if_pos (cycle_inside hstep hcycle haddr), htest]
    rfl
  | succ d ih =>
    obtain ⟨hmod, hdiv⟩ := cycle_next hstep addr
    rw [stridedLoop, if_pos (cycle_inside hstep hcycle haddr)]
    split_ifs
    · refine ih (by rwa [hmod]) (mod_lt _ (by decide)) ?_ (by rwa [hmod])
      omega
    · rfl

lemma stridedLoop_none (htest : ∀ j < 1024, test (addr % step + step * j)) (fuel : ℕ) :
    stridedLoop step test stop fuel addr = none := by
  induction fuel generalizing addr with
  | zero => rfl
  | succ fuel ih =>
    obtain ⟨hmod, -⟩ := cycle_next hstep addr
    have hself := htest _ (step_div_lt hstep haddr)
    rw [mod_add_div] at hself
    rw [stridedLoop, if_pos (cycle_inside hstep hcycle haddr), if_pos hself]
    exact ih (by rwa [hmod]) (mod_lt _ (by decide)) (by rwa [hmod])

end Loop

/-! The whole test. -/

variable {t : Tables} {start stop fuel : ℕ} {b : Bool} {space : Space}

def AllMapped (t : Tables) (start stop : ℕ) : Prop :=
  ∀ page, isAligned page → start ≤ page → page < stop → pmapIsMapped t page = true

def StrideMapped (t : Tables) (start stop : ℕ) : Prop :=
  ∀ k, start + k * stride < stop → pmapIsMapped t (start + k * stride) = true

/-- The range reaches into the last 4 MiB, beyond the place that the start has in its own. -/
def Wraps (start stop : ℕ) : Prop := start % stride + 1023 * stride < stop

lemma stride_eq : stride = 4194304 := rfl

lemma stride_mul : stride * 1024 = 2 ^ 32 := rfl

lemma AllMapped.strideMapped (h : AllMapped t start stop) (hstart : isAligned start) :
    StrideMapped t start stop := by
  intro k hk
  refine h _ ?_ (le_add_right _ _) hk
  simp only [isAligned, pageSize, stride_eq, beq_iff_eq] at hstart ⊢
  omega

lemma rangeMapped_false
    (hpde : stridedLoop stride (fun addr => isValid (t.pde (pdeIndex addr))) stop fuel start =
      some false) : pmapIsRangeMapped fuel t start stop = some false := by
  rw [pmapIsRangeMapped, hpde]
  rfl

variable {fuel' : ℕ} {t' : Tables} {prot : Prot}

lemma rangeMapped_le (hle : fuel ≤ fuel') (h : pmapIsRangeMapped fuel t start stop = some b) :
    pmapIsRangeMapped fuel' t start stop = some b := by
  obtain ⟨pdes, hpdes, hrest⟩ := bind_eq_some_iff.1 h
  rw [pmapIsRangeMapped, stridedLoop_le hle hpdes]
  cases pdes with
  | false => exact hrest
  | true => exact stridedLoop_le hle hrest

lemma rangeMapped_unique {b' : Bool} (h : pmapIsRangeMapped fuel t start stop = some b)
    (h' : pmapIsRangeMapped fuel' t start stop = some b') : b = b' :=
  some.inj ((rangeMapped_le (le_max_left _ _) h).symm.trans (rangeMapped_le (le_max_right _ _) h'))

lemma rangeMapped_line (hwrap : ¬ Wraps start stop) (hstop : stop ≤ 2 ^ 32) :
    ∃ fuel b, pmapIsRangeMapped fuel t start stop = some b ∧
      (b ↔ StrideMapped t start stop) := by
  have hline : ∀ k, start + k * stride < stop → start + (k + 1) * stride < 2 ^ 32 :=
    fun k => line_next stride_mul hwrap
  have hfuel : stop ≤ start + 1024 * stride := le_add_left hstop
  obtain ⟨pdes, hpdes, hpdesIff⟩ :=
    stridedLoop_line (fun addr => isValid (t.pde (pdeIndex addr))) 1024 hfuel hline
  obtain ⟨ptes, hptes, hptesIff⟩ :=
    stridedLoop_line (fun addr => isValid (t.pteOf addr)) 1024 hfuel hline
  have hboth : StrideMapped t start stop ↔ pdes ∧ ptes = true := by
    rw [hpdesIff, hptesIff]
    simp only [StrideMapped, pmapIsMapped, Bool.and_eq_true]
    exact ⟨fun h => ⟨fun k hk => (h k hk).1, fun k hk => (h k hk).2⟩,
      fun h k hk => ⟨h.1 k hk, h.2 k hk⟩⟩
  rw [hboth]
  cases pdes with
  | false => exact ⟨_, false, rangeMapped_false hpdes, by simp⟩
  | true => exact ⟨1024 + 1, ptes, by rw [pmapIsRangeMapped, hpdes]; exact hptes, by simp⟩

lemma pdeIndex_stride (start j : ℕ) : pdeIndex (start % stride + stride * j) = j := by
  rw [pdeIndex, ← stride, add_mul_div_left _ _ (by decide),
    div_eq_of_lt (mod_lt _ (by decide)), zero_add]

lemma rangeMapped_wraps (hwrap : Wraps start stop) (hstart : start < 2 ^ 32)
    (h : pmapIsRangeMapped fuel t start stop = some b) : b = false := by
  obtain ⟨pdes, hpdes, hrest⟩ := bind_eq_some_iff.1 h
  cases pdes with
  | false => exact (some.inj hrest).symm
  | true => exact absurd hpdes (stridedLoop_ne_true stride_mul hwrap hstart fuel)

lemma rangeMapped_ends (hwrap : Wraps start stop) (hstart : start < 2 ^ 32) :
    (∃ fuel b, pmapIsRangeMapped fuel t start stop = some b) ↔
      ∃ j < 1024, isValid (t.pde j) = false := by
  constructor
  · rintro ⟨fuel, b, h⟩
    obtain ⟨pdes, hpdes, -⟩ := bind_eq_some_iff.1 h
    by_contra hall
    push Not at hall
    rw [stridedLoop_none stride_mul hwrap hstart] at hpdes
    · cases hpdes
    · intro j hj
      rw [pdeIndex_stride]
      simpa using hall j hj
  · rintro ⟨j, hj, hinvalid⟩
    have hdiv : start / stride < 1024 := step_div_lt stride_mul hstart
    refine ⟨_, false, rangeMapped_false (stridedLoop_false stride_mul hwrap hstart (j := j)
      (j + 1024 - start / stride) (by omega) ?_)⟩
    rw [pdeIndex_stride]
    exact hinvalid

/-! The operations. -/

/-- The test says whether all pages are mapped, and the three operations can rely on it. -/
structure RangeExact (space : Space) (t : Tables) (start stop : ℕ) : Prop where
  test : ∃ fuel b, pmapIsRangeMapped fuel t start stop = some b ∧
    (b = true ↔ AllMapped t start stop)
  unmap : ∀ fuel t', pmapUnmap fuel space t start stop = some (.ok t') → AllMapped t start stop
  protect : ∀ fuel prot t', pmapProtect fuel space t start stop prot = some (.ok t') →
    AllMapped t start stop
  map : ∀ (paddr : Word) (prot : Prot) (fresh : List Word), paddr.toNat % pageSize = 0 →
    ((∃ fuel, pmapMap fuel space t start stop paddr prot fresh = some (.error .panic)) ↔
      AllMapped t start stop)

/-- A range that wraps has an unmapped page and an invalid directory entry; in any other the
pages at multiples of 4 MiB speak for all. -/
def Sampled (t : Tables) (start stop : ℕ) : Prop :=
  (Wraps start stop → (∃ j < 1024, isValid (t.pde j) = false) ∧ ¬ AllMapped t start stop) ∧
    (¬ Wraps start stop → StrideMapped t start stop → AllMapped t start stop)

lemma inRange_iff : inRange space start stop ↔ isAligned start ∧ isAligned stop ∧
    start < stop ∧ space.start ≤ start ∧ stop ≤ space.stop := by
  simp [inRange, and_assoc]

lemma rangeMapped_exact_iff (h : inRange space start stop) :
    (∃ fuel b, pmapIsRangeMapped fuel t start stop = some b ∧
      (b ↔ AllMapped t start stop)) ↔ Sampled t start stop := by
  obtain ⟨haligned, -, hlt, -, hstop⟩ := inRange_iff.1 h
  have hspace : stop ≤ 2 ^ 32 := hstop.trans space.stop_lt.le
  by_cases hwrap : Wraps start stop
  · have hstart : start < 2 ^ 32 := lt_of_lt_of_le hlt hspace
    refine Iff.trans ⟨?_, ?_⟩ (and_iff_left (absurd hwrap)).symm
    · rintro ⟨fuel, b, hb, hiff⟩ -
      refine ⟨(rangeMapped_ends hwrap hstart).1 ⟨fuel, b, hb⟩, fun hall => ?_⟩
      have hfalse := rangeMapped_wraps hwrap hstart hb
      rw [hiff.2 hall] at hfalse
      cases hfalse
    · intro hcond
      obtain ⟨hinvalid, hnot⟩ := hcond hwrap
      obtain ⟨fuel, b, hb⟩ := (rangeMapped_ends hwrap hstart).2 hinvalid
      have hfalse := rangeMapped_wraps hwrap hstart hb
      exact ⟨fuel, b, hb, iff_of_false (by simp [hfalse]) hnot⟩
  · obtain ⟨fuel, b, hb, hiff⟩ := rangeMapped_line hwrap hspace
    refine Iff.trans ⟨?_, ?_⟩ (and_iff_right fun h => absurd h hwrap).symm
    · rintro ⟨fuel', b', hb', hiff'⟩ - hstride
      rw [rangeMapped_unique hb hb'] at hiff
      exact hiff'.1 (hiff.2 hstride)
    · intro hcond
      refine ⟨fuel, b, hb, hiff.trans ⟨hcond hwrap, ?_⟩⟩
      exact fun hall => hall.strideMapped haligned

lemma mapped_of_map {α : Type} {mapped : Option Bool} {result : α} {f : Bool → α}
    (hno : f false ≠ result) (h : mapped.map f = some result) : mapped = some true := by
  obtain ⟨b, rfl, hb⟩ := map_eq_some_iff.1 h
  cases b with
  | false => exact absurd hb hno
  | true => rfl

/-- The test of a range is exact if and only if the pages it looks at speak for all. -/
theorem range_exact_iff (space : Space) (t : Tables) (start stop : ℕ)
    (h : inRange space start stop = true) :
    RangeExact space t start stop ↔ Sampled t start stop := by
  rw [← rangeMapped_exact_iff h]
  refine ⟨RangeExact.test, fun htest => ?_⟩
  obtain ⟨fuel, b, hb, hiff⟩ := htest
  have hall : ∀ fuel', pmapIsRangeMapped fuel' t start stop = some true → AllMapped t start stop :=
    fun fuel' hmapped => hiff.1 (rangeMapped_unique hb hmapped)
  exact {
    test := ⟨fuel, b, hb, hiff⟩
    unmap := by
      intro fuel' t' hok
      rw [pmapUnmap, if_pos h] at hok
      exact hall fuel' (mapped_of_map (by simp) hok)
    protect := by
      intro fuel' prot t' hok
      rw [pmapProtect, if_pos h] at hok
      exact hall fuel' (mapped_of_map (by simp) hok)
    map := by
      intro paddr prot fresh hpaddr
      have hassert : (inRange space start stop && paddr.toNat % pageSize == 0) = true := by
        rw [h, hpaddr]
        rfl
      simp only [pmapMap, if_pos hassert]
      constructor
      · rintro ⟨fuel', hpanic⟩
        refine hall fuel' (mapped_of_map ?_ hpanic)
        cases mapPages prot ((stop - start) / pageSize) t start paddr fresh <;> simp
      · exact fun hmapped => ⟨fuel, by rw [hb, hiff.2 hmapped]; rfl⟩ }

def firstPage : Tables where
  pde index := if index = 0 then ptePfn 0x1000 ||| pteValid else 0
  memory frame index := if frame = 0x1000 ∧ index = 0 then ptePfn 0x8000 ||| pteValid else 0
  ptePages := [0x1000]
  window _ := none

/-- Every page of the first two directory entries is mapped, to the same frame. -/
def twoFragments : Tables where
  pde index := if index < 2 then ptePfn 0x1000 ||| pteValid else 0
  memory _ _ := ptePfn 0x8000 ||| pteValid
  ptePages := [0x1000]
  window _ := none

/-- A range over the boundary of two directory entries. -/
theorem range_exact_boundary : RangeExact .user twoFragments 0x3ff000 0x402000 := by
  refine (range_exact_iff .user twoFragments _ _ (by decide)).2 ⟨fun h => ?_, fun _ _ => ?_⟩
  · exact absurd h (by unfold Wraps; decide)
  intro page _ _ hlt
  have hpde : page / (1024 * pageSize) < 2 := Nat.div_lt_of_lt_mul (hlt.trans (by decide))
  simp only [pmapIsMapped, twoFragments, Tables.pteOf, pdeIndex, if_pos hpde]
  decide

/-- The second page of a range is taken for mapped, and its entry is cleared. -/
theorem range_not_exact :
    inRange .user 0 0x2000 = true ∧ pmapIsMapped firstPage 0x1000 = false ∧
      pmapIsRangeMapped 2 firstPage 0 0x2000 = some true ∧
      (∃ t', pmapUnmap 2 .user firstPage 0 0x2000 = some (.ok t')) ∧
      ¬ RangeExact .user firstPage 0 0x2000 := by
  have hrange : inRange .user 0 0x2000 := by decide
  have hpage : pmapIsMapped firstPage 0x1000 = false := by decide
  have htest : pmapIsRangeMapped 2 firstPage 0 0x2000 = some true := by decide
  refine ⟨hrange, hpage, htest, ⟨_, by rw [pmapUnmap]; rfl⟩, fun h => ?_⟩
  obtain ⟨fuel, b, hb, hiff⟩ := h.test
  have hall := hiff.1 (rangeMapped_unique hb htest) 0x1000 (by decide) (by decide) (by decide)
  cases hall

end GzOS.Pmap
