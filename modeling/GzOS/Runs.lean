import Mathlib.Data.List.Infix

/-!
# Runs of a partial step function

A run is a list of labels. `Always` speaks about every state a run visits and `Meets`
about the state in which each of its labels is taken, so that a guard on single steps
becomes a condition on runs.
-/
namespace GzOS.Runs
open List Option

variable {σ α : Type*}

/-- Take the labels one after another; `none` if one of them is stuck. -/
def exec (step : σ → α → Option σ) : σ → List α → Option σ
  | s, [] => some s
  | s, a :: as => (step s a).bind fun t => exec step t as

@[simp] lemma exec_nil (step : σ → α → Option σ) (s : σ) : exec step s [] = some s := rfl

@[simp] lemma exec_cons (step : σ → α → Option σ) (s : σ) (a : α) (as : List α) :
    exec step s (a :: as) = (step s a).bind fun t => exec step t as := rfl

variable {step : σ → α → Option σ} {s : σ} {a : α} {as : List α} {P I : σ → Prop} {G : σ → α → Prop}

lemma exec_cons_some {u : σ} :
    exec step s (a :: as) = some u ↔ ∃ t, step s a = some t ∧ exec step t as = some u := by
  simp [bind_eq_some_iff]

lemma exec_append (step : σ → α → Option σ) (s : σ) (as bs : List α) :
    exec step s (as ++ bs) = (exec step s as).bind fun t => exec step t bs := by
  induction as generalizing s with
  | nil => rfl
  | cons a as ih => simp only [cons_append, exec_cons, bind_assoc, ih]

lemma exec_concat {t u : σ} (ht : exec step s as = some t) (hu : step t a = some u) :
    exec step s (as ++ [a]) = some u := by
  rw [exec_append, ht, bind_some, exec_cons, hu]
  rfl

/-- Every state that the run visits satisfies `P`. -/
def Always (step : σ → α → Option σ) (P : σ → Prop) (s : σ) (as : List α) : Prop :=
  ∀ pre, pre <+: as → ∀ t, exec step s pre = some t → P t

/-- Every label of the run is taken in a state that meets the guard `G`. -/
def Meets (step : σ → α → Option σ) (G : σ → α → Prop) (s : σ) (as : List α) : Prop :=
  ∀ pre a, pre ++ [a] <+: as → ∀ t, exec step s pre = some t → G t a

lemma Always.head (h : Always step P s as) : P s := h [] nil_prefix s rfl

lemma Always.last {t : σ} (h : Always step P s as) (ht : exec step s as = some t) : P t :=
  h as prefix_rfl t ht

lemma always_cons :
    Always step P s (a :: as) ↔ P s ∧ ∀ t, step s a = some t → Always step P t as := by
  constructor
  · intro h
    refine ⟨h.head, fun t ht pre hp u hu => h (a :: pre) (cons_prefix_cons.2 ⟨rfl, hp⟩) u ?_⟩
    exact exec_cons_some.2 ⟨t, ht, hu⟩
  · rintro ⟨hs, h⟩ pre hp u hu
    cases pre with
    | nil =>
      have he : s = u := by simpa using hu
      exact he ▸ hs
    | cons b pre =>
      obtain ⟨rfl, hpre⟩ := cons_prefix_cons.1 hp
      obtain ⟨t, ht, hu⟩ := exec_cons_some.1 hu
      exact h t ht pre hpre u hu

lemma meets_cons :
    Meets step G s (a :: as) ↔ G s a ∧ ∀ t, step s a = some t → Meets step G t as := by
  constructor
  · intro h
    refine ⟨h [] a (by simp) s rfl, fun t ht pre b hp u hu => ?_⟩
    exact h (a :: pre) b (by simpa using hp) u (exec_cons_some.2 ⟨t, ht, hu⟩)
  · rintro ⟨hs, h⟩ pre b hp u hu
    cases pre with
    | nil =>
      have he : s = u := by simpa using hu
      have hb : b = a := by simpa using hp
      exact he ▸ hb ▸ hs
    | cons c pre =>
      obtain ⟨rfl, hpre⟩ := cons_prefix_cons.1 hp
      obtain ⟨t, ht, hu⟩ := exec_cons_some.1 hu
      exact h t ht pre b hpre u hu

lemma meets_nil (step : σ → α → Option σ) (G : σ → α → Prop) (s : σ) : Meets step G s [] := by
  intro pre a h
  simp at h

lemma meets_append {bs : List α} :
    Meets step G s (as ++ bs) ↔
      Meets step G s as ∧ ∀ t, exec step s as = some t → Meets step G t bs := by
  induction as generalizing s with
  | nil => simp [meets_nil]
  | cons a as ih =>
    rw [cons_append, meets_cons, meets_cons, and_assoc]
    refine and_congr_right fun _ => ?_
    simp only [ih, exec_cons_some, forall_and]
    refine and_congr_right fun _ => ⟨?_, ?_⟩
    · rintro h u ⟨t, ht, hu⟩
      exact h t ht u hu
    · intro h t ht u hu
      exact h u ⟨t, ht, hu⟩

lemma meets_singleton : Meets step G s [a] ↔ G s a := by
  rw [meets_cons]
  exact and_iff_left fun _ _ => meets_nil _ _ _

/-- The invariant rule: what every guarded step preserves holds in every state
of a run whose steps meet the guard. -/
lemma always_of_meets (hstep : ∀ s a t, I s → G s a → step s a = some t → I t) (hs : I s)
    (hG : Meets step G s as) : Always step I s as := by
  induction as generalizing s with
  | nil =>
    intro pre hp t ht
    obtain rfl : pre = [] := prefix_nil.1 hp
    have he : s = t := by simpa using ht
    exact he ▸ hs
  | cons a as ih =>
    obtain ⟨hg, hrest⟩ := meets_cons.1 hG
    exact always_cons.2 ⟨hs, fun t ht => ih (hstep s a t hs hg ht) (hrest t ht)⟩

/-- The same for guarded steps that are never stuck. -/
lemma always_of_progress (hstep : ∀ s a, I s → G s a → ∃ t, step s a = some t ∧ I t) (hs : I s)
    (hG : Meets step G s as) : Always step I s as := by
  refine always_of_meets (fun s a t hs hg ht => ?_) hs hG
  obtain ⟨t', ht', hi⟩ := hstep s a hs hg
  exact some.inj (ht.symm.trans ht') ▸ hi

/-- The progress rule: if no guarded step is stuck, no run of guarded steps is. -/
lemma exec_of_meets (hstep : ∀ s a, I s → G s a → ∃ t, step s a = some t ∧ I t) (hs : I s)
    (hG : Meets step G s as) : ∃ t, exec step s as = some t := by
  induction as generalizing s with
  | nil => exact ⟨s, rfl⟩
  | cons a as ih =>
    obtain ⟨hg, hrest⟩ := meets_cons.1 hG
    obtain ⟨t, ht, hi⟩ := hstep s a hs hg
    obtain ⟨u, hu⟩ := ih hi (hrest t ht)
    exact ⟨u, exec_cons_some.2 ⟨t, ht, hu⟩⟩

/-- The invariant rule without a guard. -/
lemma always_of_step (hstep : ∀ s a t, I s → step s a = some t → I t) (hs : I s) (as : List α) :
    Always step I s as :=
  always_of_meets (G := fun _ _ => True) (fun s a t hi _ ht => hstep s a t hi ht) hs
    (fun _ _ _ _ _ => trivial)

/-- The rule for an exact guard: a step keeps the invariant if it meets the guard,
and leaves the property if it does not. -/
lemma always_iff_meets (hP : ∀ s, I s → P s)
    (hstep : ∀ s a t, I s → step s a = some t → (G s a → I t) ∧ (P t → G s a)) {u : σ} (hs : I s)
    (hrun : exec step s as = some u) : Always step P s as ↔ Meets step G s as := by
  constructor
  · intro h
    induction as generalizing s with
    | nil => exact meets_nil step G s
    | cons a as ih =>
      obtain ⟨t, ht, hrun⟩ := exec_cons_some.1 hrun
      have hrest := (always_cons.1 h).2 t ht
      have hg := (hstep s a t hs ht).2 hrest.head
      refine meets_cons.2 ⟨hg, fun t' ht' => ?_⟩
      obtain rfl : t = t' := some.inj (ht.symm.trans ht')
      exact ih ((hstep s a t hs ht).1 hg) hrun hrest
  · intro h
    have hinv : Always step I s as :=
      always_of_meets (fun s a t hi hg ht => (hstep s a t hi ht).1 hg) hs h
    exact fun pre hp t ht => hP t (hinv pre hp t ht)

lemma Always.mono {Q : σ → Prop} (h : Always step P s as) (hPQ : ∀ t, P t → Q t) :
    Always step Q s as :=
  fun pre hp t ht => hPQ t (h pre hp t ht)

lemma Meets.mono {H : σ → α → Prop} (hG : Meets step G s as) (hP : Always step P s as)
    (h : ∀ t a, P t → G t a → H t a) : Meets step H s as := by
  intro pre a hp t ht
  exact h t a (hP pre ((prefix_append _ _).trans hp) t ht) (hG pre a hp t ht)

def checkMeets (step : σ → α → Option σ) (G : σ → α → Prop) [∀ s a, Decidable (G s a)] :
    σ → List α → Bool
  | _, [] => true
  | s, a :: as => decide (G s a) && match step s a with
    | none => true
    | some t => checkMeets step G t as

lemma meets_of_check [∀ s a, Decidable (G s a)] (h : checkMeets step G s as) :
    Meets step G s as := by
  induction as generalizing s with
  | nil => exact meets_nil step G s
  | cons a as ih =>
    rw [checkMeets, Bool.and_eq_true, decide_eq_true_eq] at h
    refine meets_cons.2 ⟨h.1, fun t ht => ih ?_⟩
    simpa only [ht] using h.2

lemma not_meets_of_check [∀ s a, Decidable (G s a)] (h : checkMeets step G s as = false) :
    ¬Meets step G s as := by
  intro hm
  induction as generalizing s with
  | nil => cases h
  | cons a as ih =>
    obtain ⟨hg, hrest⟩ := meets_cons.1 hm
    simp only [checkMeets, hg] at h
    split at h
    case h_1 => cases h
    case h_2 t ht => exact ih h (hrest t ht)

lemma bind_ok {ε α β : Type} {x : Except ε α} {f : α → Except ε β} {r : β} :
    (x >>= f) = .ok r ↔ ∃ a, x = .ok a ∧ f a = .ok r := by
  cases x <;> simp [bind, Except.bind]

lemma toOption_eq_some {ε α : Type} {x : Except ε α} {a : α} :
    x.toOption = some a ↔ x = .ok a := by
  cases x <;> simp [Except.toOption]

end GzOS.Runs
