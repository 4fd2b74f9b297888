import Mathlib.Data.List.Chain
import Mathlib.Data.List.Basic

/-!
# Intervals tiled by blocks with headers

Each block is a header followed by its data and starts where the one before it ends.
Merging a block with a free right neighbour restores that no two free blocks are
neighbours.
-/
namespace GzOS.BlockList
open List

structure Block (α : Type) where
  addr : ℕ
  size : ℕ
  use : Option α

variable {α : Type} {h : ℕ}

/-- The blocks, each with a header of `h` bytes, tile the interval. -/
def Contig (h : ℕ) : ℕ → List (Block α) → ℕ → Prop
  | lo, [], hi => lo = hi
  | lo, b :: bs, hi => b.addr = lo ∧ Contig h (lo + h + b.size) bs hi

def frees : List (Block α) → List ℕ
  | [] => []
  | b :: bs => if b.use.isNone then b.addr :: frees bs else frees bs

def used (bs : List (Block α)) : List (Block α) := bs.filter fun b => b.use.isSome

def Separated (bs : List (Block α)) : Prop := bs.IsChain fun a b => ¬ (a.use = none ∧ b.use = none)

def mergeNext (h : ℕ) (b : Block α) : List (Block α) → Block α × List (Block α)
  | [] => (b, [])
  | y :: ys => if y.use.isNone then (⟨b.addr, b.size + h + y.size, none⟩, ys) else (b, y :: ys)

variable {xs ys bs : List (Block α)} {b c y : Block α} {lo mid hi a : ℕ}

lemma contig_append :
    Contig h lo (xs ++ ys) hi ↔ ∃ mid, Contig h lo xs mid ∧ Contig h mid ys hi := by
  induction xs generalizing lo with
  | nil => simp [Contig]
  | cons x xs ih =>
    simp only [cons_append, Contig, ih]
    constructor
    · rintro ⟨rfl, mid, hxs, hys⟩
      exact ⟨mid, ⟨rfl, hxs⟩, hys⟩
    · rintro ⟨mid, ⟨rfl, hxs⟩, hys⟩
      exact ⟨rfl, mid, hxs, hys⟩

lemma contig_middle : Contig h lo (xs ++ b :: ys) hi ↔
    Contig h lo xs b.addr ∧ Contig h (b.addr + h + b.size) ys hi := by
  rw [contig_append]
  constructor
  · rintro ⟨mid, hxs, rfl, hys⟩
    exact ⟨hxs, hys⟩
  · rintro ⟨hxs, hys⟩
    exact ⟨b.addr, hxs, rfl, hys⟩

lemma Contig.le (hc : Contig h lo bs hi) : lo ≤ hi := by
  induction bs generalizing lo with
  | nil => exact le_of_eq hc
  | cons b bs ih =>
    have := ih hc.2
    omega

lemma Contig.bounds (hc : Contig h lo bs hi) (hb : b ∈ bs) :
    lo ≤ b.addr ∧ b.addr + h + b.size ≤ hi := by
  obtain ⟨xs, ys, rfl⟩ := append_of_mem hb
  obtain ⟨hxs, hys⟩ := contig_middle.1 hc
  exact ⟨hxs.le, hys.le⟩

lemma Contig.apart (hc : Contig h lo bs hi) (hb : b ∈ bs) (hy : y ∈ bs) :
    b = y ∨ b.addr + h + b.size ≤ y.addr ∨ y.addr + h + y.size ≤ b.addr := by
  obtain ⟨xs, ys, rfl⟩ := append_of_mem hb
  obtain ⟨hxs, hys⟩ := contig_middle.1 hc
  rcases mem_append.1 hy with hy | hy
  · exact .inr (.inr (hxs.bounds hy).2)
  · rcases mem_cons.1 hy with rfl | hy
    · exact .inl rfl
    · exact .inr (.inl (hys.bounds hy).1)

lemma Contig.pairwise (hc : Contig h lo bs hi) :
    bs.Pairwise fun b y => b.addr + h + b.size ≤ y.addr := by
  induction bs generalizing lo with
  | nil => exact List.Pairwise.nil
  | cons b bs ih =>
    refine pairwise_cons.2 ⟨fun y hy => ?_, ih hc.2⟩
    have hlow := (hc.2.bounds hy).1
    have haddr := hc.1
    omega

/-! The free blocks. -/

@[simp] lemma frees_append : frees (xs ++ ys) = frees xs ++ frees ys := by
  induction xs with
  | nil => rfl
  | cons x xs ih =>
    simp only [cons_append, frees, ih]
    split_ifs <;> rfl

lemma frees_cons_free (hb : b.use = none) : frees (b :: bs) = b.addr :: frees bs := by
  simp [frees, hb]

lemma frees_cons_used (hb : b.use ≠ none) : frees (b :: bs) = frees bs := by
  simp [frees, hb]

lemma mem_frees : a ∈ frees bs ↔ ∃ b ∈ bs, b.use = none ∧ b.addr = a := by
  induction bs with
  | nil => simp [frees]
  | cons b bs ih =>
    by_cases hb : b.use = none
    · simp [frees_cons_free hb, ih, hb, eq_comm]
    · simp [frees_cons_used hb, ih, hb]

lemma mem_frees_of_mem (hb : b ∈ bs) (hfree : b.use = none) : b.addr ∈ frees bs :=
  mem_frees.2 ⟨b, hb, hfree, rfl⟩

lemma frees_split {l1 l2 : List ℕ} (hl : frees bs = l1 ++ a :: l2) :
    ∃ xs b ys, bs = xs ++ b :: ys ∧ b.use = none ∧ b.addr = a ∧ frees xs = l1 ∧ frees ys = l2 := by
  induction bs generalizing l1 with
  | nil => simp [frees] at hl
  | cons x bs ih =>
    by_cases hx : x.use = none
    · rw [frees_cons_free hx] at hl
      cases l1 with
      | nil =>
        obtain ⟨ha, hl⟩ := cons.inj hl
        exact ⟨[], x, bs, rfl, hx, ha, rfl, hl⟩
      | cons e l1 =>
        obtain ⟨rfl, hl'⟩ := cons.inj hl
        obtain ⟨xs, b, ys, rfl, hb, ha, hxs, hys⟩ := ih hl'
        exact ⟨x :: xs, b, ys, rfl, hb, ha, by rw [frees_cons_free hx, hxs], hys⟩
    · rw [frees_cons_used hx] at hl
      obtain ⟨xs, b, ys, rfl, hb, ha, hxs, hys⟩ := ih hl
      exact ⟨x :: xs, b, ys, rfl, hb, ha, by rw [frees_cons_used hx, hxs], hys⟩

lemma Contig.frees_lt (hh : 0 < h) (hc : Contig h lo bs hi) (ha : a ∈ frees bs) :
    lo ≤ a ∧ a < hi := by
  obtain ⟨b, hb, -, rfl⟩ := mem_frees.1 ha
  have := hc.bounds hb
  omega

lemma Contig.frees_sorted (hh : 0 < h) (hc : Contig h lo bs hi) : (frees bs).Pairwise (· < ·) := by
  induction bs generalizing lo with
  | nil => exact List.Pairwise.nil
  | cons b bs ih =>
    by_cases hb : b.use = none
    · rw [frees_cons_free hb, pairwise_cons]
      refine ⟨fun a ha => ?_, ih hc.2⟩
      have hlow := (hc.2.frees_lt hh ha).1
      have haddr := hc.1
      omega
    · rw [frees_cons_used hb]
      exact ih hc.2

/-! The blocks in use. -/

@[simp] lemma used_append : used (xs ++ ys) = used xs ++ used ys := filter_append xs ys

lemma used_cons_free (hb : b.use = none) : used (b :: bs) = used bs := by
  simp [used, hb]

lemma used_cons_used (hb : b.use ≠ none) : used (b :: bs) = b :: used bs := by
  simp [used, Option.isSome_iff_ne_none.2 hb]

lemma mem_used : b ∈ used bs ↔ b ∈ bs ∧ b.use ≠ none := by
  simp [used, Option.isSome_iff_ne_none]

/-! Merging. -/

lemma mergeNext_free (hy : y.use = none) :
    mergeNext h b (y :: ys) = (⟨b.addr, b.size + h + y.size, none⟩, ys) := by
  simp [mergeNext, hy]

lemma mergeNext_used (hy : y.use ≠ none) : mergeNext h b (y :: ys) = (b, y :: ys) := by
  simp [mergeNext, hy]

lemma used_mergeNext (hb : b.use = none) :
    used ((mergeNext h b ys).1 :: (mergeNext h b ys).2) = used ys := by
  cases ys with
  | nil => exact used_cons_free hb
  | cons y ys =>
    by_cases hy : y.use = none
    · rw [mergeNext_free hy, used_cons_free rfl, used_cons_free hy]
    · rw [mergeNext_used hy, used_cons_free hb]

lemma mergeNext_fst (hb : b.use = none) :
    (mergeNext h b ys).1.addr = b.addr ∧ (mergeNext h b ys).1.use = none := by
  cases ys with
  | nil => exact ⟨rfl, hb⟩
  | cons y ys =>
    by_cases hy : y.use = none
    · rw [mergeNext_free hy]
      exact ⟨rfl, rfl⟩
    · rw [mergeNext_used hy]
      exact ⟨rfl, hb⟩

lemma Separated.mergeNext (hs : Separated ys) :
    Separated ((mergeNext h b ys).1 :: (mergeNext h b ys).2) := by
  cases ys with
  | nil => exact isChain_singleton _
  | cons y ys =>
    by_cases hy : y.use = none
    · rw [mergeNext_free hy]
      cases ys with
      | nil => exact isChain_singleton _
      | cons z zs =>
        simp only [Separated, isChain_cons_cons] at hs ⊢
        exact ⟨fun hz => hs.1 ⟨hy, hz.2⟩, hs.2⟩
    · rw [mergeNext_used hy]
      simp only [Separated, isChain_cons_cons] at hs ⊢
      exact ⟨fun hz => hy hz.2, hs⟩

lemma mergeNext_of_frees_nil (hy : frees ys = []) : mergeNext h b ys = (b, ys) := by
  cases ys with
  | nil => rfl
  | cons y ys =>
    apply mergeNext_used
    intro hfree
    rw [frees_cons_free hfree] at hy
    cases hy

lemma Separated.append_of_last (hx : ∀ x ∈ xs.getLast?, x.use ≠ none) (hsx : Separated xs)
    (hsy : Separated ys) : Separated (xs ++ ys) :=
  isChain_append.2 ⟨hsx, hsy, fun a ha _ _ hab => hx a ha hab.1⟩

lemma Separated.left (hs : Separated (xs ++ ys)) : Separated xs := (isChain_append.1 hs).1

lemma Separated.right (hs : Separated (xs ++ b :: ys)) : Separated ys :=
  (isChain_append.1 hs).2.1.tail

lemma Separated.middle (hb : b.use ≠ none) (hsx : Separated xs) (hsy : Separated ys) :
    Separated (xs ++ b :: ys) := by
  have hcons : Separated ([b] ++ ys) := by
    refine Separated.append_of_last ?_ (isChain_singleton b) hsy
    intro x hx
    obtain rfl : b = x := by simpa using hx
    exact hb
  refine isChain_append.2 ⟨hsx, hcons, fun a _ y hy hay => ?_⟩
  obtain rfl : b = y := by simpa using hy
  exact hb hay.2

lemma use_ne_none_of_frees_nil (hx : frees xs = []) : ∀ x ∈ xs, x.use ≠ none := by
  intro x hmem hfree
  have := mem_frees_of_mem hmem hfree
  rw [hx] at this
  cases this

lemma Separated.glue {p q : Block α} (hp : p.use = none) (hq : q.use = none)
    (hsx : Separated (xs ++ [p])) (hsy : Separated (q :: ys)) :
    Separated (xs ++ b :: ys) := by
  obtain ⟨hx, -, hlast⟩ := isChain_append.1 hsx
  refine isChain_append.2 ⟨hx, ?_, fun a ha y hy hay => ?_⟩
  · cases ys with
    | nil => exact isChain_singleton _
    | cons z zs =>
      simp only [Separated, isChain_cons_cons] at hsy ⊢
      exact ⟨fun hz => hsy.1 ⟨hq, hz.2⟩, hsy.2⟩
  · exact hlast a ha p rfl ⟨hay.1, hp⟩

lemma Contig.covered {n : ℕ} (hn : 0 < n) (hc : Contig h lo bs hi) (hs : Separated bs)
    (hlo : lo ≤ a) (hhi : a + n ≤ hi)
    (hout : ∀ b ∈ used bs, b.addr + h + b.size ≤ a ∨ a + n ≤ b.addr) :
    ∃ b ∈ bs, b.use = none ∧ b.addr ≤ a ∧ a + n ≤ b.addr + h + b.size := by
  induction bs generalizing lo with
  | nil =>
    have : lo = hi := hc
    omega
  | cons b bs ih =>
    obtain ⟨haddr, hrest⟩ := hc
    by_cases hin : lo + h + b.size ≤ a
    · have hused : ∀ e ∈ used bs, e ∈ used (b :: bs) := by
        intro e he
        exact mem_used.2 ⟨mem_cons_of_mem _ (mem_used.1 he).1, (mem_used.1 he).2⟩
      obtain ⟨e, he, hfree⟩ := ih hrest hs.tail hin fun e he => hout e (hused e he)
      exact ⟨e, mem_cons_of_mem _ he, hfree⟩
    · have hfree : b.use = none := by
        by_contra huse
        have := hout b (mem_used.2 ⟨mem_cons_self, huse⟩)
        omega
      refine ⟨b, mem_cons_self, hfree, by omega, ?_⟩
      by_contra hend
      -- the block behind is in use and begins before the end
      cases bs with
      | nil =>
        have : lo + h + b.size = hi := hrest
        omega
      | cons y ys =>
        have hy : y.use ≠ none := fun hy => (isChain_cons_cons.1 hs).1 ⟨hfree, hy⟩
        have hyaddr := hrest.1
        have hymem : y ∈ used (b :: y :: ys) :=
          mem_used.2 ⟨mem_cons_of_mem _ mem_cons_self, hy⟩
        have := hout y hymem
        omega

/-! The blocks in use determine the free ones. -/

lemma Contig.start (hc : Contig h lo bs hi) : lo = (bs.head?.map Block.addr).getD hi := by
  cases bs with
  | nil => exact hc
  | cons b bs => exact hc.1.symm

lemma Separated.head_used (hs : Separated (b :: bs)) (hb : b.use = none) :
    (used bs).head? = bs.head? := by
  cases bs with
  | nil => rfl
  | cons y ys =>
    have hy : y.use ≠ none := fun hy => (isChain_cons_cons.1 hs).1 ⟨hb, hy⟩
    rw [used_cons_used hy]
    rfl

lemma Contig.head_ne_free (hh : 0 < h) (hc : Contig h lo (b :: bs) hi) (hb : b.use = none)
    (hy : y ∈ used (b :: bs)) : y.addr ≠ lo := by
  rw [used_cons_free hb] at hy
  have hlow := (hc.2.bounds (mem_used.1 hy).1).1
  omega

/-- Separated lists that tile the same interval with the same blocks in use are equal. -/
lemma Contig.eq_of_used {cs : List (Block α)} (hh : 0 < h) (hb : Contig h lo bs hi)
    (hc : Contig h lo cs hi) (hsb : Separated bs) (hsc : Separated cs) (hu : used bs = used cs) :
    bs = cs := by
  induction bs generalizing lo cs with
  | nil =>
    cases cs with
    | nil => rfl
    | cons c cs =>
      have hlo : lo = hi := hb
      have := (hc.bounds mem_cons_self).2
      have := hc.1
      omega
  | cons b bs ih =>
    cases cs with
    | nil =>
      have hlo : lo = hi := hc
      have := (hb.bounds mem_cons_self).2
      have := hb.1
      omega
    | cons c cs =>
      by_cases hbf : b.use = none <;> by_cases hcf : c.use = none
      · rw [used_cons_free hbf, used_cons_free hcf] at hu
        -- both end where the first block in use behind them starts
        have hend : lo + h + b.size = lo + h + c.size := by
          rw [hb.2.start, hc.2.start, ← hsb.head_used hbf, ← hsc.head_used hcf, hu]
        have hbc : b = c := by
          have haddr : b.addr = c.addr := hb.1.trans hc.1.symm
          cases b
          cases c
          simp_all
        subst hbc
        rw [ih hb.2 hc.2 hsb.tail hsc.tail hu]
      · have hmem : c ∈ used (b :: bs) := by
          rw [hu, used_cons_used hcf]
          exact mem_cons_self
        exact absurd hc.1 (hb.head_ne_free hh hbf hmem)
      · have hmem : b ∈ used (c :: cs) := by
          rw [← hu, used_cons_used hbf]
          exact mem_cons_self
        exact absurd hb.1 (hc.head_ne_free hh hcf hmem)
      · rw [used_cons_used hbf, used_cons_used hcf] at hu
        obtain ⟨rfl, hrest⟩ := cons.inj hu
        rw [ih hb.2 hc.2 hsb.tail hsc.tail hrest]

end GzOS.BlockList
