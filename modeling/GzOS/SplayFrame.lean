import GzOS.SplayOrder

/-!
# Where a splay writes

A set of nodes is closed if the links of its nodes lead to its nodes. A splay that
starts in a closed set with the header in it stays in the set. Trees that share the
memory but not the nodes are therefore left alone.
-/
namespace GzOS.SplayTree
open Option List

variable {α : Type} {S T : Set α} {mem mem₀ : Links α}

/-- The links in `T` lead into `S`, and those outside `S` are as before. -/
structure Keeps (T S : Set α) (mem₀ mem : Links α) : Prop where
  closed : ∀ a ∈ T, ∀ s b, mem a s = some b → b ∈ S
  outside : ∀ a, a ∉ S → mem a = mem₀ a

lemma Keeps.mono {T' : Set α} (h : Keeps T S mem₀ mem) (hT : T' ⊆ T) : Keeps T' S mem₀ mem :=
  ⟨fun a ha => h.closed a (hT ha), h.outside⟩

variable {s : Side} {p : Option α} {l : List α}

lemma InOrder.closed (h : InOrder mem s p l) :
    (∀ b, p = some b → b ∈ l) ∧ ∀ a ∈ l, ∀ t b, mem a t = some b → b ∈ l := by
  induction h with
  | null => exact ⟨fun b hb => absurd hb (by simp), fun a ha => absurd ha not_mem_nil⟩
  | @node c k l hk hl ihk ihl =>
    refine ⟨fun b hb => by simp [← some.inj hb], fun a ha t b hb => ?_⟩
    rcases mem_append.1 ha with ha | ha
    · exact mem_append_left _ (ihk.2 a ha t b hb)
    rcases mem_cons.1 ha with rfl | ha
    · rcases eq_or_ne t s with rfl | hts
      · exact mem_append_left _ (ihk.1 b hb)
      · obtain rfl : t = s.opp := by
          revert hts
          cases t <;> cases s <;> simp [Side.opp]
        exact mem_append_right _ (mem_cons_of_mem _ (ihl.1 b hb))
    · exact mem_append_right _ (mem_cons_of_mem _ (ihl.2 a ha t b hb))

lemma InOrder.parent (h : InOrder mem s p l) (hn : l.Nodup) {b : α} (hb : b ∈ l) :
    p = some b ∨ ∃ a ∈ l, a ≠ b ∧ ∃ t, mem a t = some b := by
  induction h with
  | null => exact absurd hb not_mem_nil
  | @node c k l hk hl ihk ihl =>
    rw [nodup_append, nodup_cons] at hn
    obtain ⟨hnk, ⟨hcl, hnl⟩, hkl⟩ := hn
    have hck : c ∉ k := fun hc => hkl c hc c mem_cons_self rfl
    rcases mem_append.1 hb with hb | hb
    · right
      rcases ihk hnk hb with hroot | ⟨a, ha, hab⟩
      · exact ⟨c, by simp, (ne_of_mem_of_not_mem hb hck).symm, s, hroot⟩
      · exact ⟨a, by simp [ha], hab⟩
    · rcases mem_cons.1 hb with rfl | hb
      · exact .inl rfl
      right
      rcases ihl hnl hb with hroot | ⟨a, ha, hab⟩
      · exact ⟨c, by simp, (ne_of_mem_of_not_mem hb hcl).symm, s.opp, hroot⟩
      · exact ⟨a, by simp [ha], hab⟩

variable [DecidableEq α] {w w' : Walk α} {node : α} {cut : α → Ordering} {fuel : ℕ}

lemma Keeps.setLink (h : Keeps T S mem₀ mem) {a : α} (ha : a ∈ S) (s : Side) {v : Option α}
    (hv : ∀ b, v = some b → b ∈ S) : Keeps T S mem₀ (setLink mem a s v) := by
  constructor
  · intro c hc t b hb
    unfold SplayTree.setLink at hb
    split_ifs at hb
    · exact hv b hb
    · exact h.closed c hc t b hb
  · intro c hc
    funext t
    have hne : c ≠ a := fun he => hc (he ▸ ha)
    rw [setLink_of_ne hne, h.outside c hc]

lemma Keeps.clearHeader (h : Keeps (S \ {node}) S mem₀ mem) (hn : node ∈ S) :
    Keeps S S mem₀
      (SplayTree.setLink (SplayTree.setLink mem node .right none) node .left none) := by
  have hclear : Keeps (S \ {node}) S mem₀
      (SplayTree.setLink (SplayTree.setLink mem node .right none) node .left none) := by
    refine (h.setLink hn _ fun b hb => ?_).setLink hn _ fun b hb => ?_
    · cases hb
    · cases hb
  refine ⟨fun a ha s b hb => ?_, hclear.outside⟩
  by_cases hne : a = node
  · subst hne
    cases s <;> simp [SplayTree.setLink] at hb
  · exact hclear.closed a ⟨ha, hne⟩ s b hb

structure Within (S : Set α) (mem₀ : Links α) (w : Walk α) : Prop where
  keeps : Keeps S S mem₀ w.mem
  root : w.root ∈ S
  ends : ∀ s, w.ends s ∈ S

lemma Within.rotate (h : Within S mem₀ w) {tmp : α}
    (ht : w.mem w.root s = some tmp) : Within S mem₀ (w.rotate s tmp) := by
  have htmp : tmp ∈ S := h.keeps.closed w.root h.root s tmp ht
  refine ⟨?_, htmp, h.ends⟩
  refine (h.keeps.setLink h.root s fun b hb => ?_).setLink htmp s.opp fun b hb => ?_
  · exact h.keeps.closed tmp htmp _ b hb
  · exact some.inj hb ▸ h.root

lemma Within.link (h : Within S mem₀ w) (hw : w.link s = some w') : Within S mem₀ w' := by
  obtain ⟨root, hroot, rfl⟩ := map_eq_some_iff.1 hw
  have hkeeps := h.keeps.setLink (h.ends s) s fun b hb => some.inj hb ▸ h.root
  refine ⟨hkeeps, hkeeps.closed w.root h.root s root hroot, fun t => ?_⟩
  by_cases ht : t = s
  · subst ht
    simpa using h.root
  · simpa [ht] using h.ends t

lemma Within.splayLoop (h : Within S mem₀ w) (hw : splayLoop cut fuel w = some w') :
    Within S mem₀ w' := by
  induction fuel generalizing w with
  | zero => cases hw
  | succ fuel ih =>
    unfold SplayTree.splayLoop at hw
    have hlink : ∀ {w s}, Within S mem₀ w →
        (w.link s).bind (SplayTree.splayLoop cut fuel) = some w' → Within S mem₀ w' := by
      intro w s h hw
      obtain ⟨w1, hl, hrest⟩ := bind_eq_some_iff.1 hw
      exact ih (h.link hl) hrest
    cases ht : toward (cut w.root) with
    | none =>
      simp only [ht] at hw
      exact some.inj hw ▸ h
    | some s =>
      simp only [ht] at hw
      cases hm : w.mem w.root s with
      | none =>
        simp only [hm] at hw
        exact some.inj hw ▸ h
      | some tmp =>
        simp only [hm] at hw
        split_ifs at hw
        · exact some.inj hw ▸ h.rotate hm
        · exact hlink (h.rotate hm) hw
        · exact hlink h hw

lemma Within.assemble (h : Within S mem₀ w) (hn : node ∈ S) :
    Keeps S S mem₀ (assemble node w) := by
  have h1 := h.keeps.setLink (h.ends .right) .right (h.keeps.closed w.root h.root .left)
  have h2 := h1.setLink (h.ends .left) .left (h1.closed w.root h.root .right)
  have h3 := h2.setLink h.root .left (h2.closed node hn .right)
  exact h3.setLink h.root .right (h3.closed node hn .left)

section Operations

variable {cmp : α → α → Ordering} {t t' : SplayHead α} {elm : α} {root root' : α}

lemma splay_keeps {mem' : Links α} (h : Keeps (S \ {node}) S mem₀ mem) (hn : node ∈ S)
    (hr : root ∈ S) (hs : splay node cut fuel mem root = some (mem', root')) :
    Keeps S S mem₀ mem' ∧ root' ∈ S := by
  obtain ⟨w, hw, he⟩ := map_eq_some_iff.1 hs
  obtain ⟨rfl, rfl⟩ := Prod.mk.inj he
  have hstart : Within S mem₀
      ⟨setLink (setLink mem node .right none) node .left none, root, fun _ => node⟩ :=
    ⟨h.clearHeader hn, hr, fun _ => hn⟩
  have hend := hstart.splayLoop hw
  exact ⟨hend.assemble hn, hend.root⟩

lemma splayInsert_keeps {same : Option α} (h : Keeps (S \ {node}) S mem₀ t.mem) (hn : node ∈ S)
    (he : elm ∈ S) (hr : ∀ a, t.root = some a → a ∈ S)
    (hs : splayInsert node cmp fuel t elm = some (t', same)) :
    Keeps (S \ {node}) S mem₀ t'.mem ∧ ∀ a, t'.root = some a → a ∈ S := by
  unfold splayInsert at hs
  split at hs
  · obtain ⟨rfl, -⟩ := Prod.mk.inj (some.inj hs)
    refine ⟨(h.setLink he _ fun b hb => ?_).setLink he _ fun b hb => ?_, fun a ha => ?_⟩
    · cases hb
    · cases hb
    · exact some.inj ha ▸ he
  · next root hroot =>
    obtain ⟨⟨mem', root'⟩, hsplay, hs⟩ := bind_eq_some_iff.1 hs
    obtain ⟨hk, hroot'⟩ := splay_keeps h hn (hr root hroot) hsplay
    dsimp only at hs
    split at hs
    · obtain ⟨rfl, -⟩ := Prod.mk.inj (some.inj hs)
      exact ⟨hk.mono Set.sdiff_subset, fun a ha => some.inj ha ▸ hroot'⟩
    next s _ =>
    obtain ⟨rfl, -⟩ := Prod.mk.inj (some.inj hs)
    refine ⟨?_, fun a ha => some.inj ha ▸ he⟩
    have h1 := hk.setLink he s (hk.closed root' hroot' s)
    have h2 := h1.setLink he s.opp fun b hb => some.inj hb ▸ hroot'
    exact (h2.setLink hroot' s fun b hb => by cases hb).mono Set.sdiff_subset

lemma splayNext_keeps {next : Option α} (h : Keeps (S \ {node}) S mem₀ t.mem) (hn : node ∈ S)
    (hr : ∀ a, t.root = some a → a ∈ S)
    (hs : splayNext node cmp fuel t elm = some (t', next)) : Keeps S S mem₀ t'.mem := by
  obtain ⟨root, hroot, hs⟩ := bind_eq_some_iff.1 hs
  obtain ⟨⟨mem', root'⟩, hsplay, hs⟩ := bind_eq_some_iff.1 hs
  obtain ⟨hk, -⟩ := splay_keeps h hn (hr root hroot) hsplay
  dsimp only at hs
  split at hs
  · obtain ⟨rfl, -⟩ := Prod.mk.inj (some.inj hs)
    exact hk
  · obtain ⟨a, -, hs⟩ := bind_eq_some_iff.1 hs
    obtain ⟨rfl, -⟩ := Prod.mk.inj (some.inj hs)
    exact hk

lemma splayInsert_found {total : List α} {b : α} (h : InOrder t.mem .left t.root total)
    (hn : (node :: total).Nodup) (hc : Grows (cmp elm) total) (hb : b ∈ total)
    (hbe : cmp elm b = .eq) (hf : total.length ≤ fuel) :
    ∃ mem', splayInsert node cmp fuel t elm = some (⟨mem', some b⟩, some b) ∧
      InOrder mem' .left (some b) total := by
  cases hr : t.root with
  | none =>
    rw [hr] at h
    exact absurd hb (by simp [h.eq_nil])
  | some root =>
    rw [hr] at h
    obtain ⟨mem', root', k, l, hs, rfl, hk, hl, hkc, hlc⟩ := splay_spec h hn hc hf
    obtain rfl : b = root' := by
      rcases mem_append.1 hb with hb | hb
      · exact absurd (hkc b hb) (by simp [hbe])
      · rcases mem_cons.1 hb with hb | hb
        · exact hb
        · exact absurd (hlc b hb) (by simp [hbe])
    refine ⟨mem', ?_, .node hk hl⟩
    simp [splayInsert, hr, hs, hbe, toward]

end Operations

end GzOS.SplayTree
