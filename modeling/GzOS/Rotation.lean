import GzOS.Runs
import Mathlib.Data.List.Nodup
import Mathlib.Logic.Function.Basic
import Mathlib.Tactic

/-!
# Owners taken in turn from a family of queues

Items wait in first-in first-out queues. The owner of a resource is taken from the head
of a queue together with that queue's budget and pays one unit each time it keeps the
resource. It never pays more than the budget between two waits, and it is not overtaken
in its queue.
-/
namespace GzOS.Rotation
open Runs List Function Option

inductive Event (ι α : Type*)
  /-- The item is put at the tail of the queue. -/
  | append (i : ι) (a : α)
  | take (i : ι) (a : α)
  /-- It is removed from wherever it stands in the queue. -/
  | drop (i : ι) (a : α)
  /-- It stays the owner. -/
  | keep (a : α)
  deriving DecidableEq

structure Table (ι α : Type*) where
  queues : ι → List α
  owner : Option α
  left : ℤ

variable {ι α : Type*} [DecidableEq ι] [DecidableEq α]

open Classical in
/-- Only items that wait nowhere are appended, only heads are taken, and only the owner
keeps, while more than one unit is left. -/
noncomputable def apply (budget : ι → ℤ) (r : Table ι α) : Event ι α → Option (Table ι α)
  | .append i a =>
    if ∃ j, a ∈ r.queues j then none
    else some { r with queues := update r.queues i (r.queues i ++ [a]) }
  | .take i a =>
    if (r.queues i).head? = some a then
      some ⟨update r.queues i (r.queues i).tail, some a, budget i⟩
    else none
  | .drop i a =>
    some { r with queues := update r.queues i ((r.queues i).filter (· ≠ a)) }
  | .keep a => if r.owner = some a ∧ 1 < r.left then some { r with left := r.left - 1 } else none

variable {budget : ι → ℤ} {r r' : Table ι α} {i j : ι} {a b : α}

lemma apply_append (h : ∀ j, a ∉ r.queues j) :
    apply budget r (.append i a) =
      some { r with queues := update r.queues i (r.queues i ++ [a]) } := by
  have hn : ¬ ∃ j, a ∈ r.queues j := fun ⟨j, hj⟩ => h j hj
  simp [apply, hn]

lemma apply_append_some (h : apply budget r (.append i a) = some r') : (∀ j, a ∉ r.queues j) ∧
      r' = { r with queues := update r.queues i (r.queues i ++ [a]) } := by
  simp only [apply] at h
  split_ifs at h with hn
  exact ⟨fun j hj => hn ⟨j, hj⟩, (some.inj h).symm⟩

lemma apply_take {rest : List α} (h : r.queues i = a :: rest) :
    apply budget r (.take i a) = some ⟨update r.queues i rest, some a, budget i⟩ := by
  simp [apply, h]

lemma apply_take_some (h : apply budget r (.take i a) = some r') :
    ∃ rest, r.queues i = a :: rest ∧ r' = ⟨update r.queues i rest, some a, budget i⟩ := by
  simp only [apply] at h
  split_ifs at h with hh
  obtain ⟨rest, hrest⟩ := head?_eq_some_iff.1 hh
  refine ⟨rest, hrest, ?_⟩
  rw [hrest] at h
  exact (some.inj h).symm

lemma apply_keep (ho : r.owner = some a) (hl : 1 < r.left) :
    apply budget r (.keep a) = some { r with left := r.left - 1 } := by
  simp [apply, ho, hl]

lemma apply_keep_some (h : apply budget r (.keep a) = some r') :
    r.owner = some a ∧ 1 < r.left ∧ r' = { r with left := r.left - 1 } := by
  simp only [apply] at h
  split_ifs at h with hk
  exact ⟨hk.1, hk.2, (some.inj h).symm⟩

structure Single (r : Table ι α) : Prop where
  nodup : ∀ i, (r.queues i).Nodup
  one : ∀ a i j, a ∈ r.queues i → a ∈ r.queues j → i = j

omit [DecidableEq ι] [DecidableEq α] in
lemma Single.sublist (h : Single r) (hsub : ∀ i, (r'.queues i).Sublist (r.queues i)) :
    Single r' where
  nodup := fun i => (h.nodup i).sublist (hsub i)
  one := fun a i j hi hj => h.one a i j ((hsub i).subset hi) ((hsub j).subset hj)

omit [DecidableEq α] in
lemma update_sublist {q : ι → List α} {l : List α} (h : l.Sublist (q i)) (j : ι) :
    (update q i l j).Sublist (q j) := by
  by_cases hj : j = i
  · subst hj
    simpa using h
  · simp [hj]

omit [DecidableEq α] in
lemma Single.append (h : Single r) (hout : ∀ j, a ∉ r.queues j) :
    Single { r with queues := update r.queues i (r.queues i ++ [a]) } where
  nodup := by
    intro j
    by_cases hj : j = i
    · subst hj
      simp only [update_self]
      exact List.Nodup.append (h.nodup j) (by simp) (by simpa using hout j)
    · simpa [hj] using h.nodup j
  one := by
    intro x k l hk hl
    have hmem (m : ι) (hm : x ∈ update r.queues i (r.queues i ++ [a]) m) :
        x ∈ r.queues m ∨ (x = a ∧ m = i) := by
      by_cases hmi : m = i
      · subst hmi
        simpa using hm
      · left
        simpa [hmi] using hm
    rcases hmem k hk with hk' | ⟨hx, hki⟩
    · rcases hmem l hl with hl' | ⟨hy, -⟩
      · exact h.one x k l hk' hl'
      · exact absurd (hy ▸ hk') (hout k)
    · rcases hmem l hl with hl' | ⟨-, hli⟩
      · exact absurd (hx ▸ hl') (hout l)
      · rw [hki, hli]

variable {e : Event ι α} {n : ℕ}

lemma single_step (h : Single r) (hs : apply budget r e = some r') : Single r' := by
  cases e with
  | append i a =>
    obtain ⟨hout, rfl⟩ := apply_append_some hs
    exact h.append hout
  | take i a =>
    obtain ⟨rest, hrest, rfl⟩ := apply_take_some hs
    exact h.sublist (update_sublist (by rw [hrest]; exact sublist_cons_self a rest))
  | drop i a =>
    cases hs
    exact h.sublist (update_sublist filter_sublist)
  | keep a =>
    obtain ⟨-, -, rfl⟩ := apply_keep_some hs
    exact h.sublist fun _ => List.Sublist.refl _

/-- It waits nowhere and, as the owner, has paid `n` out of `b`. -/
structure Paid (r : Table ι α) (a : α) (n : ℕ) (b : ℤ) : Prop where
  out : ∀ j, a ∉ r.queues j
  within : (n : ℤ) ≤ b
  left : r.owner = some a → n + r.left ≤ b

omit [DecidableEq ι] [DecidableEq α] in
lemma Paid.queues {b : ℤ} (h : Paid r a n b) {q : ι → List α} (hq : ∀ j, a ∉ q j) :
    Paid { r with queues := q } a n b := ⟨hq, h.within, h.left⟩

lemma Paid.step {b : ℤ} (h : Paid r a n b) (hs : apply budget r e = some r')
    (he : ∀ j, e ≠ .append j a) : Paid r' a (n + if e = .keep a then 1 else 0) b := by
  cases e with
  | append i x =>
    obtain ⟨-, rfl⟩ := apply_append_some hs
    refine h.queues fun j hj => ?_
    have hne : a ≠ x := by
      rintro rfl
      exact he i rfl
    by_cases hji : j = i
    · subst hji
      have hmem : a ∈ r.queues j := by simpa [hne] using hj
      exact h.out j hmem
    · exact h.out j (by simpa [hji] using hj)
  | take i x =>
    obtain ⟨rest, hrest, rfl⟩ := apply_take_some hs
    have hne : x ≠ a := by
      rintro rfl
      exact h.out i (by simp [hrest])
    refine ⟨fun j hj => h.out j ?_, h.within, fun ho => absurd (some.inj ho) hne⟩
    have hsub : rest.Sublist (r.queues i) := by
      rw [hrest]
      exact sublist_cons_self x rest
    exact (update_sublist hsub j).subset hj
  | drop i x =>
    cases hs
    exact h.queues fun j hj => h.out j ((update_sublist filter_sublist j).subset hj)
  | keep x =>
    obtain ⟨ho, hl, rfl⟩ := apply_keep_some hs
    by_cases hx : x = a
    · subst hx
      have hleft := h.left ho
      refine ⟨h.out, ?_, fun _ => ?_⟩
      · simp only [if_pos]
        omega
      · simp only [if_pos]
        omega
    · rw [if_neg (by simp [hx])]
      exact ⟨h.out, h.within, fun ha => absurd (some.inj (ho.symm.trans ha)) hx⟩

lemma Paid.run {b : ℤ} {log : List (Event ι α)} (h : Paid r a n b)
    (hs : exec (apply budget) r log = some r') (hlog : ∀ j, .append j a ∉ log) :
    ((n + log.count (.keep a) : ℕ) : ℤ) ≤ b := by
  induction log generalizing r n with
  | nil => simpa using h.within
  | cons e log ih =>
    obtain ⟨r1, hr1, hs⟩ := exec_cons_some.1 hs
    have hstep := h.step hr1 fun j hj => hlog j (by simp [hj])
    have hrest := ih hstep hs fun j hj => hlog j (mem_cons_of_mem e hj)
    have hcount : n + (e :: log).count (.keep a) =
        n + (if e = .keep a then 1 else 0) + log.count (.keep a) := by
      rw [count_cons]
      simp only [beq_iff_eq]
      omega
    rwa [hcount]

/-- From its turn to its next wait an item pays at most the budget of its queue. -/
lemma keep_le_budget {before between after : List (Event ι α)} (h : Single r)
    (hs : exec (apply budget) r (before ++ .take i a :: between ++ after) = some r')
    (hm : ∀ j, .append j a ∉ between) (hb : 0 ≤ budget i) :
    (between.count (.keep a) : ℤ) ≤ budget i := by
  rw [append_assoc, exec_append] at hs
  obtain ⟨r1, hr1, hs⟩ := bind_eq_some_iff.1 hs
  rw [cons_append] at hs
  obtain ⟨r2, hr2, hs⟩ := exec_cons_some.1 hs
  rw [exec_append] at hs
  obtain ⟨r3, hr3, -⟩ := bind_eq_some_iff.1 hs
  have h1 : Single r1 :=
    (always_of_step (fun _ _ _ hi ht => single_step hi ht) h before).last hr1
  obtain ⟨rest, hrest, rfl⟩ := apply_take_some hr2
  have hpaid : Paid ⟨update r1.queues i rest, some a, budget i⟩ a 0 (budget i) := by
    refine ⟨fun j hj => ?_, by simpa using hb, fun _ => by simp⟩
    have hnodup := h1.nodup i
    rw [hrest, nodup_cons] at hnodup
    by_cases hji : j = i
    · subst hji
      exact hnodup.1 (by simpa using hj)
    · have hmem : a ∈ r1.queues j := by simpa [hji] using hj
      exact hji (h1.one a j i hmem (by simp [hrest]))
  simpa using hpaid.run hr3 hm

/-- `b` stands in the queue and `a` does not stand before it. -/
def Ahead (b a : α) (l : List α) : Prop := ∃ l₁ l₂, l = l₁ ++ b :: l₂ ∧ a ∉ l₁

lemma Ahead.step (h : Ahead b a (r.queues i)) (hs : apply budget r e = some r')
    (htake : e ≠ .take i b) (hdrop : e ≠ .drop i b) : Ahead b a (r'.queues i) := by
  obtain ⟨l1, l2, hl, ha⟩ := h
  cases e with
  | append j x =>
    obtain ⟨-, rfl⟩ := apply_append_some hs
    by_cases hji : i = j
    · subst hji
      exact ⟨l1, l2 ++ [x], by simp [hl], ha⟩
    · exact ⟨l1, l2, by simp [hji, hl], ha⟩
  | take j x =>
    obtain ⟨rest, hrest, rfl⟩ := apply_take_some hs
    by_cases hji : i = j
    · subst hji
      -- the head is not `b`, so something stands before it
      cases l1 with
      | nil =>
        obtain rfl : b = x := by
          rw [hl] at hrest
          exact (cons.inj hrest).1
        exact absurd rfl htake
      | cons y l1 =>
        rw [hl] at hrest
        refine ⟨l1, l2, ?_, fun hmem => ha (mem_cons_of_mem y hmem)⟩
        simpa using (cons.inj hrest).2.symm
    · exact ⟨l1, l2, by simp [hji, hl], ha⟩
  | drop j x =>
    cases hs
    by_cases hji : i = j
    · subst hji
      have hbx : b ≠ x := by
        rintro rfl
        exact hdrop rfl
      exact ⟨l1.filter (· ≠ x), l2.filter (· ≠ x), by simp [hl, hbx],
        fun hmem => ha (mem_of_mem_filter hmem)⟩
    · exact ⟨l1, l2, by simp [hji, hl], ha⟩
  | keep x =>
    obtain ⟨-, -, rfl⟩ := apply_keep_some hs
    exact ⟨l1, l2, hl, ha⟩

/-- Who waits first is taken or dropped first. -/
lemma no_overtaking {between after : List (Event ι α)}
    (hs : exec (apply budget) r (.append i a :: between ++ .take i a :: after) = some r')
    (hb : b ∈ r.queues i) : .take i b ∈ between ∨ .drop i b ∈ between := by
  rw [cons_append] at hs
  obtain ⟨r1, hr1, hs⟩ := exec_cons_some.1 hs
  obtain ⟨hout, rfl⟩ := apply_append_some hr1
  rw [exec_append] at hs
  obtain ⟨r2, hr2, hs⟩ := bind_eq_some_iff.1 hs
  obtain ⟨r3, hr3, -⟩ := exec_cons_some.1 hs
  obtain ⟨rest, hrest, -⟩ := apply_take_some hr3
  have hab : b ≠ a := by
    rintro rfl
    exact hout i hb
  by_contra hnone
  rw [not_or] at hnone
  obtain ⟨l1, l2, hl⟩ := append_of_mem hb
  have hfirst : Ahead b a ((update r.queues i (r.queues i ++ [a])) i) := by
    refine ⟨l1, l2 ++ [a], by simp [hl], fun hmem => hout i ?_⟩
    rw [hl]
    exact mem_append_left _ hmem
  have hmeets : Meets (apply budget) (fun _ e => e ≠ .take i b ∧ e ≠ .drop i b)
      { r with queues := update r.queues i (r.queues i ++ [a]) } between := by
    intro pre e hpre t _
    have hmem : e ∈ between := hpre.subset (by simp)
    constructor
    · rintro rfl
      exact hnone.1 hmem
    · rintro rfl
      exact hnone.2 hmem
  have hlast : Ahead b a (r2.queues i) :=
    (always_of_meets (I := fun t => Ahead b a (t.queues i))
      (fun _ _ _ ht hg hstep => ht.step hstep hg.1 hg.2) hfirst hmeets).last hr2
  -- the head of the queue is `a`, which cannot stand before `b`
  obtain ⟨m1, m2, hm, ha⟩ := hlast
  rw [hm] at hrest
  cases m1 with
  | nil => exact hab (cons.inj hrest).1
  | cons x m1 =>
    obtain rfl : x = a := (cons.inj hrest).1
    exact ha (by simp)

end GzOS.Rotation
