import GzOS.VmMap
import Mathlib.Order.Bounds.Basic

/-!
# The search for a free range

`vm_map_findspace` moves the start address past one entry after another, in sums modulo
2 ^ 32. As long as a free range exists the search stops at the first one. Without one
it fails, unless a sum wraps: then it returns an address all the same.
-/
namespace GzOS.Vm
open List Option Nat

/-- The two kinds of pmap. -/
inductive Space
  | user
  | kernel

def Space.start : Space → ℕ
  | .user => pmapStart
  | .kernel => 0xc0400000

def Space.stop : Space → ℕ
  | .user => pmapEnd
  | .kernel => 0xfffff000

structure Extent where
  start : ℕ
  stop : ℕ

def VmMap.extent (map : VmMap) (entry : ℕ) : Extent := ⟨map.start entry, map.stop entry⟩

def gapEnd (stop : ℕ) : List Extent → ℕ
  | [] => stop
  | next :: _ => next.start

def searchGaps (stop length : ℕ) : ℕ → List Extent → Option ℕ
  | _, [] => none
  | start, it :: rest =>
    let start := if start < it.stop then it.stop else start
    if u32 (start + length) ≤ gapEnd stop rest then some start
    else searchGaps stop length start rest

/-- The inner `none` stands for `-ENOMEM`. -/
def findspace (space : Space) (entries : List Extent) (start length : ℕ) : Option (Option ℕ) :=
  if isAligned start ∧ isAligned length then
    let start := if start < space.start then space.start else start
    if u32 (start + length) > space.stop then some none
    else
      match entries with
      | [] => some (some start)
      | first :: rest =>
        if u32 (start + length) ≤ first.start then some (some start)
        else some (searchGaps space.stop length start (first :: rest))
  else none

lemma findGap_eq (map : VmMap) (length start : ℕ) (list : List ℕ) :
    findGap map length start list = searchGaps pmapEnd length start (list.map map.extent) := by
  induction list generalizing start with
  | nil => rfl
  | cons it rest ih =>
    have hrest := ih (if start < map.stop it then map.stop it else start)
    cases rest with
    | nil => rfl
    | cons next rest =>
      rw [findGap, hrest]
      rfl

lemma vmMapFindspace_eq (map : VmMap) (start length : ℕ) :
    vmMapFindspace map start length = findspace .user (map.list.map map.extent) start length := by
  unfold vmMapFindspace findspace
  cases map.list with
  | nil => rfl
  | cons first rest =>
    simp only [findGap_eq]
    rfl

/-- Entries are proper ranges of the space, in order. -/
structure InSpace (space : Space) (entries : List Extent) : Prop where
  order : entries.Pairwise fun p q => p.stop ≤ q.start
  proper : ∀ e ∈ entries, space.start ≤ e.start ∧ e.start < e.stop ∧ e.stop ≤ space.stop

/-- The range at `addr` is in the space and meets no entry. -/
structure Free (space : Space) (entries : List Extent) (length addr : ℕ) : Prop where
  low : space.start ≤ addr
  high : addr + length ≤ space.stop
  apart : ∀ e ∈ entries, addr + length ≤ e.start ∨ e.stop ≤ addr

/-! The loop. -/

structure Remaining (stop length start : ℕ) (it : Extent) (rest : List Extent) (addr : ℕ) :
    Prop where
  start_le : start ≤ addr
  past : it.stop ≤ addr
  high : addr + length ≤ stop
  apart : ∀ e ∈ rest, addr + length ≤ e.start ∨ e.stop ≤ addr

variable {stop length start addr : ℕ} {it next : Extent} {rest entries : List Extent}
  {space : Space}

lemma searchGaps_cons : searchGaps stop length start (it :: rest) =
    if u32 (max start it.stop + length) ≤ gapEnd stop rest then some (max start it.stop)
    else searchGaps stop length (max start it.stop) rest := by
  rw [searchGaps, max_def_lt]

lemma isLeast_remaining (horder : rest.Pairwise fun p q => p.stop ≤ q.start)
    (hproper : ∀ e ∈ rest, e.start < e.stop ∧ e.stop ≤ stop)
    (hgap : max start it.stop + length ≤ gapEnd stop rest) :
    IsLeast {a | Remaining stop length start it rest a} (max start it.stop) := by
  constructor
  · cases rest with
    | nil => exact ⟨le_max_left _ _, le_max_right _ _, hgap, fun e he => by cases he⟩
    | cons next rest =>
      have hnext := hproper next mem_cons_self
      refine ⟨le_max_left _ _, le_max_right _ _, ?_, fun e he => .inl ?_⟩
      · simp only [gapEnd] at hgap
        omega
      rcases mem_cons.1 he with rfl | he
      · exact hgap
      · have := (pairwise_cons.1 horder).1 e he
        simp only [gapEnd] at hgap
        omega
  · intro a ha
    exact max_le ha.start_le ha.past

lemma remaining_cons (hgap : next.start < max start it.stop + length) :
    Remaining stop length start it (next :: rest) addr ↔
      Remaining stop length (max start it.stop) next rest addr := by
  constructor
  · intro h
    have hmax : max start it.stop ≤ addr := max_le h.start_le h.past
    refine ⟨hmax, ?_, h.high, fun e he => h.apart e (mem_cons_of_mem _ he)⟩
    rcases h.apart next mem_cons_self with hbefore | hpast
    · omega
    · exact hpast
  · intro h
    have hmax := max_le_iff.1 h.start_le
    refine ⟨hmax.1, hmax.2, h.high, fun e he => ?_⟩
    rcases mem_cons.1 he with rfl | he
    · exact .inr h.past
    · exact h.apart e he

/-- No sum wraps before the loop comes to the least address left. -/
lemma searchGaps_of_remaining (hstop : stop < 2 ^ 32)
    (horder : rest.Pairwise fun p q => p.stop ≤ q.start)
    (hproper : ∀ e ∈ rest, e.start < e.stop ∧ e.stop ≤ stop)
    (h : Remaining stop length start it rest addr) :
    ∃ least, searchGaps stop length start (it :: rest) = some least ∧
      IsLeast {a | Remaining stop length start it rest a} least := by
  induction rest generalizing start it with
  | nil =>
    have hmax : max start it.stop ≤ addr := max_le h.start_le h.past
    have hhigh := h.high
    have hgap : max start it.stop + length ≤ gapEnd stop [] := by
      simp only [gapEnd]
      omega
    refine ⟨_, ?_, isLeast_remaining horder hproper hgap⟩
    rw [searchGaps_cons, u32, mod_eq_of_lt (by omega), if_pos hgap]
  | cons next rest ih =>
    have hmax : max start it.stop ≤ addr := max_le h.start_le h.past
    have hhigh := h.high
    rw [searchGaps_cons, u32, mod_eq_of_lt (by omega)]
    by_cases hgap : max start it.stop + length ≤ gapEnd stop (next :: rest)
    · rw [if_pos hgap]
      exact ⟨_, rfl, isLeast_remaining horder hproper hgap⟩
    rw [if_neg hgap]
    simp only [remaining_cons (not_le.1 hgap)] at h ⊢
    exact ih (pairwise_cons.1 horder).2
      (fun e he => hproper e (mem_cons_of_mem _ he)) h

lemma searchGaps_eq_none (horder : rest.Pairwise fun p q => p.stop ≤ q.start)
    (hproper : ∀ e ∈ rest, e.start < e.stop ∧ e.stop ≤ stop) (hstart : start + length < 2 ^ 32)
    (hwrap : ∀ e ∈ it :: rest, e.stop + length < 2 ^ 32)
    (h : ∀ addr, ¬ Remaining stop length start it rest addr) :
    searchGaps stop length start (it :: rest) = none := by
  induction rest generalizing start it with
  | nil =>
    have hit := hwrap it mem_cons_self
    rw [searchGaps_cons, u32, mod_eq_of_lt (by omega), if_neg]
    · rfl
    · exact fun hgap => h _ (isLeast_remaining horder hproper hgap).1
  | cons next rest ih =>
    have hit := hwrap it mem_cons_self
    have hgap : ¬ max start it.stop + length ≤ gapEnd stop (next :: rest) :=
      fun hgap => h _ (isLeast_remaining horder hproper hgap).1
    rw [searchGaps_cons, u32, mod_eq_of_lt (by omega), if_neg hgap]
    simp only [remaining_cons (not_le.1 hgap)] at h
    exact ih (pairwise_cons.1 horder).2
      (fun e he => hproper e (mem_cons_of_mem _ he)) (by omega)
      (fun e he => hwrap e (mem_cons_of_mem _ he)) h

/-- With no address left and a sum that wraps, the range found wraps. -/
lemma searchGaps_wraps (hstop : stop < 2 ^ 32)
    (horder : rest.Pairwise fun p q => p.stop ≤ q.start) (hit : it.stop ≤ stop)
    (hproper : ∀ e ∈ rest, e.start < e.stop ∧ e.stop ≤ stop) (hlength : length < 2 ^ 32)
    (hlt : start < 2 ^ 32) (hstart : 2 ^ 32 ≤ start + length → start + length - 2 ^ 32 ≤ stop)
    (hwrap : ∃ e ∈ it :: rest, 2 ^ 32 ≤ max start e.stop + length)
    (h : ∀ addr, ¬ Remaining stop length start it rest addr) :
    ∃ addr, searchGaps stop length start (it :: rest) = some addr ∧ 2 ^ 32 ≤ addr + length := by
  -- whatever wraps here is smaller than the end of the range
  have hhere : 2 ^ 32 ≤ max start it.stop + length →
      max start it.stop + length - 2 ^ 32 ≤ stop := by omega
  induction rest generalizing start it with
  | nil =>
    obtain ⟨e, he, hwrap⟩ := hwrap
    obtain rfl := mem_singleton.1 he
    have hmod : u32 (max start e.stop + length) = max start e.stop + length - 2 ^ 32 := by
      unfold u32
      omega
    refine ⟨_, ?_, hwrap⟩
    rw [searchGaps_cons, hmod]
    exact if_pos (hhere hwrap)
  | cons next rest ih =>
    have hnext := hproper next mem_cons_self
    have hrest : ∀ e ∈ rest, e.start < e.stop ∧ e.stop ≤ stop := fun e he =>
      hproper e (mem_cons_of_mem _ he)
    by_cases hhigh : 2 ^ 32 ≤ max start it.stop + length
    · have hmod : u32 (max start it.stop + length) = max start it.stop + length - 2 ^ 32 := by
        unfold u32
        omega
      rw [searchGaps_cons, hmod]
      by_cases hgap : max start it.stop + length - 2 ^ 32 ≤ gapEnd stop (next :: rest)
      · rw [if_pos hgap]
        exact ⟨_, rfl, hhigh⟩
      rw [if_neg hgap]
      refine ih (pairwise_cons.1 horder).2 hnext.2 hrest (by omega)
        (fun _ => hhere hhigh) ⟨next, mem_cons_self, by omega⟩ (fun a ha => ?_) (by omega)
      have := ha.start_le
      have := ha.high
      omega
    · have hgap : ¬ max start it.stop + length ≤ gapEnd stop (next :: rest) :=
        fun hgap => h _ (isLeast_remaining horder hproper hgap).1
      rw [searchGaps_cons, u32, mod_eq_of_lt (by omega), if_neg hgap]
      simp only [remaining_cons (not_le.1 hgap)] at h
      refine ih (pairwise_cons.1 horder).2 hnext.2 hrest (by omega) (by omega) ?_ h (by omega)
      obtain ⟨e, he, hwrap⟩ := hwrap
      rcases mem_cons.1 he with rfl | he
      · omega
      · exact ⟨e, he, by omega⟩

lemma searchGaps_mem (h : searchGaps stop length start entries = some addr) :
    addr = start ∨ ∃ e ∈ entries, addr = e.stop := by
  induction entries generalizing start with
  | nil => cases h
  | cons it rest ih =>
    rw [searchGaps_cons] at h
    have hmax : max start it.stop = start ∨ max start it.stop = it.stop := max_choice _ _
    split_ifs at h
    · cases h
      rcases hmax with hmax | hmax
      · exact .inl hmax
      · exact .inr ⟨it, mem_cons_self, hmax⟩
    · rcases ih h with rfl | ⟨e, he, rfl⟩
      · rcases hmax with hmax | hmax
        · exact .inl hmax
        · exact .inr ⟨it, mem_cons_self, hmax⟩
      · exact .inr ⟨e, mem_cons_of_mem _ he, rfl⟩

/-! The whole search. -/

def before (space : Space) : Extent := ⟨0, space.start⟩

lemma before_stop (space : Space) : (before space).stop = space.start := rfl

lemma findspace_eq (hstart : isAligned start) (hlength : isAligned length) :
    findspace space entries start length =
      if u32 (max start space.start + length) > space.stop then some none
      else some (searchGaps space.stop length start (before space :: entries)) := by
  rw [searchGaps_cons, before_stop]
  simp only [findspace, hstart, hlength, and_self, if_true, ← max_def_lt]
  by_cases hbound : u32 (max start space.start + length) > space.stop
  · rw [if_pos hbound, if_pos hbound]
  rw [if_neg hbound, if_neg hbound]
  cases entries with
  | nil =>
    have hgap : u32 (max start space.start + length) ≤ gapEnd space.stop [] := not_lt.1 hbound
    rw [if_pos hgap]
  | cons first rest =>
    by_cases hgap : u32 (max start space.start + length) ≤ gapEnd space.stop (first :: rest)
    · rw [if_pos hgap]
      exact if_pos hgap
    · rw [if_neg hgap]
      exact if_neg hgap

lemma remaining_before : Remaining space.stop length start (before space) entries addr ↔
    start ≤ addr ∧ Free space entries length addr :=
  ⟨fun h => ⟨h.start_le, h.past, h.high, h.apart⟩, fun h => ⟨h.1, h.2.low, h.2.high, h.2.apart⟩⟩

lemma Space.stop_lt (space : Space) : space.stop < 2 ^ 32 := by
  cases space <;> decide

lemma Space.start_le (space : Space) : space.start ≤ space.stop := by
  cases space <;> decide

lemma InSpace.ends (h : InSpace space entries) :
    ∀ e ∈ entries, e.start < e.stop ∧ e.stop ≤ space.stop := fun e he => (h.proper e he).2

lemma le_of_u32_le {sum : ℕ} (h : u32 sum ≤ stop) (hwrap : 2 ^ 32 ≤ sum → stop < sum - 2 ^ 32)
    (hsum : sum < 2 ^ 33) : sum ≤ stop := by
  unfold u32 at h
  omega

lemma findspace_of_free (h : InSpace space entries) (hstart : isAligned start)
    (hlength : isAligned length) (hle : start ≤ addr) (hfree : Free space entries length addr) :
    ∃ least, findspace space entries start length = some (some least) ∧
      IsLeast {a | start ≤ a ∧ Free space entries length a} least := by
  obtain ⟨least, hleast, hmin⟩ := searchGaps_of_remaining space.stop_lt h.order h.ends
    (remaining_before.2 ⟨hle, hfree⟩)
  simp only [remaining_before] at hmin
  have hbound : max start space.start + length ≤ space.stop := by
    have := hfree.low
    have := hfree.high
    omega
  have := space.stop_lt
  refine ⟨least, ?_, hmin⟩
  rw [findspace_eq hstart hlength, u32, if_neg (by omega), hleast]

lemma findspace_eq_none (h : InSpace space entries) (hstart : isAligned start)
    (hlength : isAligned length) (hwrap : max start space.start + length < 2 ^ 32)
    (hwraps : ∀ e ∈ entries, e.stop + length < 2 ^ 32)
    (hfree : ∀ a, ¬ (start ≤ a ∧ Free space entries length a)) :
    findspace space entries start length = some none := by
  rw [findspace_eq hstart hlength, searchGaps_eq_none h.order h.ends (by omega)]
  · exact ite_self _
  · intro e he
    rcases mem_cons.1 he with rfl | he
    · simp only [before]
      omega
    · exact hwraps e he
  · exact fun a ha => hfree a (remaining_before.1 ha)

lemma findspace_wraps (h : InSpace space entries) (hstart : isAligned start)
    (hlength : isAligned length) (hlt : start < 2 ^ 32) (hlen : length < 2 ^ 32)
    (hbound : u32 (max start space.start + length) ≤ space.stop)
    (hwrap : ∃ e ∈ before space :: entries, 2 ^ 32 ≤ max start e.stop + length)
    (hfree : ∀ a, ¬ (start ≤ a ∧ Free space entries length a)) :
    ∃ addr, findspace space entries start length = some (some addr) ∧ 2 ^ 32 ≤ addr + length := by
  have hcarry : 2 ^ 32 ≤ start + length → start + length - 2 ^ 32 ≤ space.stop := by
    unfold u32 at hbound
    have := space.start_le
    omega
  obtain ⟨addr, haddr, hhigh⟩ := searchGaps_wraps space.stop_lt h.order space.start_le h.ends hlen
    hlt hcarry hwrap (fun a ha => hfree a (remaining_before.1 ha))
  refine ⟨addr, ?_, hhigh⟩
  rw [findspace_eq hstart hlength, if_neg (by omega), haddr]

def Fits (map : VmMap) (start length addr : ℕ) : Prop :=
  isAligned addr ∧ max start pmapStart ≤ addr ∧ Free .user (map.list.map map.extent) length addr

/-- In a map with page-aligned entries the search succeeds exactly if a page-aligned free range
exists, and returns the first. -/
theorem findspace_first_fit (map : VmMap) (h : InSpace .user (map.list.map map.extent))
    (haligned : ∀ e ∈ map.list, isAligned (map.start e) ∧ isAligned (map.stop e))
    (start length : ℕ) (hstart : isAligned start) (hlength : isAligned length)
    (hlen : length < 2 ^ 31) (hwrap : start + length < 2 ^ 32) :
    ∃ r, vmMapFindspace map start length = some r ∧
      (r.isSome ↔ ∃ addr, Fits map start length addr) ∧
      ∀ addr, r = some addr → IsLeast {a | Fits map start length a} addr := by
  rw [vmMapFindspace_eq]
  by_cases hfree : ∃ a, start ≤ a ∧ Free .user (map.list.map map.extent) length a
  · obtain ⟨a, hle, ha⟩ := hfree
    obtain ⟨least, hfind, hmin⟩ := findspace_of_free h hstart hlength hle ha
    have hbound : ¬ u32 (max start Space.user.start + length) > Space.user.stop := by
      intro hbig
      rw [findspace_eq hstart hlength, if_pos hbig] at hfind
      cases hfind
    -- the search only returns the start or the end of an entry
    have hmem : isAligned least := by
      rw [findspace_eq hstart hlength, if_neg hbound] at hfind
      rcases searchGaps_mem (some.inj hfind) with rfl | ⟨e, he, rfl⟩
      · exact hstart
      rcases mem_cons.1 he with rfl | he
      · decide
      · obtain ⟨p, hp, rfl⟩ := mem_map.1 he
        exact (haligned p hp).2
    have hfits : Fits map start length least :=
      ⟨hmem, max_le hmin.1.1 (zero_le _), hmin.1.2⟩
    refine ⟨some least, hfind, iff_of_true rfl ⟨least, hfits⟩, fun addr haddr => ?_⟩
    cases haddr
    exact ⟨hfits, fun b hb => hmin.2 ⟨(max_le_iff.1 hb.2.1).1, hb.2.2⟩⟩
  · have hnone : ∀ a, ¬ (start ≤ a ∧ Free .user (map.list.map map.extent) length a) :=
      fun a ha => hfree ⟨a, ha⟩
    have hfind := findspace_eq_none h hstart hlength (by simpa [Space.start, pmapStart] using hwrap)
      (fun e he => by
        have := (h.ends e he).2
        simp only [Space.stop, pmapEnd] at this
        omega) hnone
    refine ⟨none, hfind, iff_of_false (by simp) ?_, fun addr haddr => by cases haddr⟩
    rintro ⟨a, -, hle, ha⟩
    exact hnone a ⟨(max_le_iff.1 hle).1, ha⟩

/-- The first page is taken, so the second is found. -/
theorem findspace_first_fit_second :
    let map : VmMap := { VmMap.new ∅ with
      entries := fun _ => ⟨0, 0x1000, ⟨true, true, false⟩, none⟩
      list := [1] }
    IsLeast {a | Fits map 0 0x1000 a} 0x1000 := by
  intro map
  obtain ⟨r, hr, -, hleast⟩ := findspace_first_fit map
    ⟨by decide, by decide⟩ (by decide) 0 0x1000 (by decide) (by decide) (by decide) (by decide)
  have hfind : vmMapFindspace map 0 0x1000 = some (some 0x1000) := by decide
  exact hleast _ (some.inj (hr.symm.trans hfind))

/-- No sum wraps to a value that passes the tests: the first is small or wraps beyond the
end of the range, and if the range is long enough there is a free range or no end of an
entry wraps. -/
def Unwrapped (space : Space) (entries : List Extent) (start length : ℕ) : Prop :=
  (2 ^ 32 ≤ max start space.start + length → space.stop < max start space.start + length - 2 ^ 32) ∧
  (max start space.start + length ≤ space.stop →
    (∃ addr, start ≤ addr ∧ Free space entries length addr) ∨
      ∀ e ∈ entries, e.stop + length < 2 ^ 32)

lemma findspace_sound (h : InSpace space entries) (hlt : start < 2 ^ 32) (hlen : length < 2 ^ 32)
    (hunwrapped : Unwrapped space entries start length)
    (haddr : findspace space entries start length = some (some addr)) :
    Free space entries length addr := by
  obtain ⟨hstart, hlength⟩ : isAligned start ∧ isAligned length := by
    by_contra hodd
    rw [findspace, if_neg hodd] at haddr
    cases haddr
  obtain ⟨hfirst, hrest⟩ := hunwrapped
  have hbound : ¬ u32 (max start space.start + length) > space.stop := by
    intro hbig
    rw [findspace_eq hstart hlength, if_pos hbig] at haddr
    cases haddr
  have hstop := space.stop_lt
  have hroom : max start space.start + length ≤ space.stop := by
    have := space.start_le
    exact le_of_u32_le (not_lt.1 hbound) hfirst (by omega)
  by_cases hfree : ∃ a, start ≤ a ∧ Free space entries length a
  · obtain ⟨a, hle, ha⟩ := hfree
    obtain ⟨least, hfind, hmin⟩ := findspace_of_free h hstart hlength hle ha
    obtain rfl := some.inj (some.inj (haddr.symm.trans hfind))
    exact hmin.1.2
  · have hfind := findspace_eq_none h hstart hlength (by omega)
      ((hrest hroom).resolve_left hfree) fun a ha => hfree ⟨a, ha⟩
    cases haddr.symm.trans hfind

/-- Whatever the start and the length, a range that is found is inside the range of the pmap
and free, exactly if no sum wraps to a value that passes. -/
theorem findspace_sound_iff (space : Space) (entries : List Extent) (h : InSpace space entries)
    (start length : ℕ) (hlt : start < 2 ^ 32) (hlen : length < 2 ^ 32) (hstart : isAligned start)
    (hlength : isAligned length) :
    (∀ addr, findspace space entries start length = some (some addr) →
      addr + length < 2 ^ 32 ∧ Free space entries length addr) ↔
    Unwrapped space entries start length := by
  have hstop := space.stop_lt
  constructor
  · intro hsound
    have hnever : ∀ addr, findspace space entries start length = some (some addr) →
        ¬ 2 ^ 32 ≤ addr + length := fun addr haddr => not_le.2 (hsound addr haddr).1
    constructor
    · intro hwrap
      by_contra hbound
      obtain ⟨addr, haddr, hhigh⟩ := findspace_wraps h hstart hlength hlt hlen
        (by unfold u32; omega) ⟨before space, mem_cons_self, hwrap⟩ (fun a ha => by
          have := ha.2.low
          have := ha.2.high
          omega)
      exact hnever addr haddr hhigh
    · intro hroom
      by_contra hnone
      simp only [not_or, not_exists, not_forall] at hnone
      obtain ⟨hfree, e, he, hwrap⟩ := hnone
      obtain ⟨addr, haddr, hhigh⟩ := findspace_wraps h hstart hlength hlt hlen
        (by unfold u32; omega) ⟨e, mem_cons_of_mem _ he, by omega⟩ hfree
      exact hnever addr haddr hhigh
  · intro hunwrapped addr haddr
    have hfree := findspace_sound h hlt hlen hunwrapped haddr
    exact ⟨hfree.high.trans_lt hstop, hfree⟩

theorem findspace_sound_second :
    findspace .user [⟨0, 0x1000⟩] 0 0x1000 = some (some 0x1000) ∧
      Free .user [⟨0, 0x1000⟩] 0x1000 0x1000 := by
  have hfind : findspace .user [⟨0, 0x1000⟩] 0 0x1000 = some (some 0x1000) := by decide
  have hunwrapped : Unwrapped .user [⟨0, 0x1000⟩] 0 0x1000 :=
    ⟨by decide, fun _ => .inr (by decide)⟩
  have hsound := (findspace_sound_iff .user [⟨0, 0x1000⟩] ⟨by decide, by decide⟩ 0 0x1000
    (by decide) (by decide) (by decide) (by decide)).2 hunwrapped
  exact ⟨hfind, (hsound 0x1000 hfind).2⟩

/-- An empty user map with a start near the end of memory; a user map with its last page taken
and a length of the whole range; and a kernel map with little room at its end. -/
theorem findspace_unsound :
    findspace .user [] 0xfffff000 0x2000 = some (some 0xfffff000) ∧
    findspace .user [⟨0x7ffff000, 0x80000000⟩] 0 0x80000000 = some (some 0x80000000) ∧
    findspace .kernel [⟨0xc0400000, 0xfff00000⟩] 0xc0400000 0x200000 = some (some 0xfff00000) ∧
    ¬ Free .user [] 0x2000 0xfffff000 ∧ ¬ Free .user [⟨0x7ffff000, 0x80000000⟩] 0x80000000
      0x80000000 ∧ ¬ Free .kernel [⟨0xc0400000, 0xfff00000⟩] 0x200000 0xfff00000 := by
  refine ⟨by decide, by decide, by decide, ?_, ?_, ?_⟩
  all_goals exact fun h => absurd h.high (by decide)

end GzOS.Vm
