import GzOS.SplayTree

/-!
# What a splay does to the order of the nodes

For a comparison that grows along the sequence of the nodes, the loop ends within as
many turns as there are nodes and never changes the sequence. At the end the root
separates the nodes below the key from those above it, which gives the place of a new
node and the next node in order.
-/
namespace GzOS.SplayTree
open List Option

variable {α : Type}

/-! ## The walk -/

variable {a b : α} {k l : List α}

section
variable {node : α} {cut : α → Ordering} {s : Side} {w w' : Walk α}
  {near m far total : List α} {tmp : α}

structure Walking (node : α) (cut : α → Ordering) (s : Side) (w : Walk α)
    (near m far : List α) : Prop where
  tree : InOrder w.mem s (some w.root) m
  spine : Spine w.mem node s (w.ends s) far
  spineOpp : Spine w.mem node s.opp (w.ends s.opp) near
  nodup : (node :: (near.reverse ++ m ++ far)).Nodup
  cuts : (near.reverse ++ m ++ far).Pairwise fun a b => cut a = s.opp.ord ∨ cut b = s.ord
  farCut : ∀ b ∈ far, cut b = s.ord
  nearCut : ∀ b ∈ near, cut b = s.opp.ord

lemma Walking.flip (h : Walking node cut s w near m far) :
    Walking node cut s.opp w far m.reverse near where
  tree := h.tree.flip
  spine := h.spineOpp
  spineOpp := by simpa using h.spine
  nodup := by
    have := h.nodup
    simp only [nodup_cons, nodup_append,  nodup_reverse] at this ⊢
    grind
  cuts := by
    have := pairwise_reverse.2 h.cuts
    simpa [or_comm] using this
  farCut := h.nearCut
  nearCut := by simpa using h.farCut

lemma Walking.nodup_spine (h : Walking node cut s w near m far) : (node :: far).Nodup :=
  h.nodup.sublist ((sublist_append_right _ _).cons_cons _)

lemma Walking.ne_of_mem (h : Walking node cut s w near m far) {a b : α} (ha : a ∈ m)
    (hb : b ∈ node :: far) : a ≠ b := by
  rintro rfl
  have := h.nodup
  simp only [nodup_cons, nodup_append] at this hb
  grind

lemma Walking.ne_ends (h : Walking node cut s w near m far) (hb : b ∈ m) (t : Side) :
    b ≠ w.ends t := by
  rcases eq_or_ne t s with rfl | ht
  · exact h.ne_of_mem hb h.spine.end_mem
  · obtain rfl : t = s.opp := by cases t <;> cases s <;> simp_all [Side.opp]
    exact h.flip.ne_of_mem (by simpa) h.spineOpp.end_mem

lemma Walking.separated (h : Walking node cut s w near m far) (hm : m = k ++ w.root :: l) :
    (cut w.root ≠ s.ord → ∀ b ∈ k, cut b = s.opp.ord) ∧
      (cut w.root ≠ s.opp.ord → ∀ b ∈ l, cut b = s.ord) := by
  subst hm
  have := h.cuts
  simp only [pairwise_append, pairwise_cons] at this
  grind

def Ended (node : α) (cut : α → Ordering) (s : Side) (w : Walk α) (total : List α) : Prop :=
  ∃ near k l far, Walking node cut s w near (k ++ w.root :: l) far ∧
    InOrder w.mem s (w.mem w.root s) k ∧ InOrder w.mem s (w.mem w.root s.opp) l ∧
    (∀ b ∈ k, cut b = s.opp.ord) ∧ (∀ b ∈ l, cut b = s.ord) ∧
    near.reverse ++ (k ++ w.root :: l) ++ far = total

lemma Ended.flip (h : Ended node cut s w total) : Ended node cut s.opp w total.reverse := by
  obtain ⟨near, k, l, far, hw, hk, hl, hkc, hlc, rfl⟩ := h
  refine ⟨far, l.reverse, k.reverse, near, by simpa using hw.flip, hl.flip, by simpa using hk.flip,
    by simpa using hlc, by simpa using hkc, by simp⟩

lemma Walking.ended (h : Walking node cut s w near m far) (hc : cut w.root ≠ s.opp.ord)
    (hs : cut w.root ≠ s.ord ∨ w.mem w.root s = none) :
    Ended node cut s w (near.reverse ++ m ++ far) := by
  obtain ⟨k, l, rfl, hk, hl⟩ := h.tree.cases_some
  refine ⟨near, k, l, far, h, hk, hl, ?_, (h.separated rfl).2 hc, rfl⟩
  rcases hs with hs | hs
  · exact (h.separated rfl).1 hs
  · rw [hs] at hk
    simp [hk.eq_nil]

variable [DecidableEq α]

lemma Walk.rotate_of_ne (w : Walk α) (s : Side) (h1 : b ≠ w.root) (h2 : b ≠ tmp) :
    (w.rotate s tmp).mem b = w.mem b := by
  funext t
  simp [Walk.rotate, setLink, h1, h2]

lemma InOrder.rotate (h : InOrder w.mem s (some w.root) m) (hn : m.Nodup)
    (hc : w.mem w.root s = some tmp) : InOrder (w.rotate s tmp).mem s (some tmp) m := by
  obtain ⟨k, l, rfl, hk, hl⟩ := h.cases_some
  rw [hc] at hk
  obtain ⟨k1, k2, rfl, hk1, hk2⟩ := hk.cases_some
  simp only [nodup_append, mem_append, mem_cons] at hn
  have hne : tmp ≠ w.root := by grind
  have hsub : ∀ {p q}, InOrder w.mem s p q → w.root ∉ q → tmp ∉ q →
      InOrder (w.rotate s tmp).mem s p q := fun hq h1 h2 =>
    hq.congr fun b hb =>
      w.rotate_of_ne s (ne_of_mem_of_not_mem hb h1) (ne_of_mem_of_not_mem hb h2)
  have hroot : InOrder (w.rotate s tmp).mem s (some w.root) (k2 ++ w.root :: l) := by
    refine .node ?_ ?_
    · have : (w.rotate s tmp).mem w.root s = w.mem tmp s.opp := by simp [Walk.rotate, setLink]
      exact this ▸ hsub hk2 (by grind) (by grind)
    · have : (w.rotate s tmp).mem w.root s.opp = w.mem w.root s.opp := by
        simp [Walk.rotate, setLink, hne.symm]
      exact this ▸ hsub hl (by grind) (by grind)
  have htmp : InOrder (w.rotate s tmp).mem s (some tmp) (k1 ++ tmp :: (k2 ++ w.root :: l)) := by
    refine .node ?_ ?_
    · have : (w.rotate s tmp).mem tmp s = w.mem tmp s := by simp [Walk.rotate, setLink, hne]
      exact this ▸ hsub hk1 (by grind) (by grind)
    · have : (w.rotate s tmp).mem tmp s.opp = some w.root := by simp [Walk.rotate, setLink]
      exact this ▸ hroot
  simpa using htmp

lemma Spine.rotate {u : Side} {e : α} (h : Spine w.mem node u e l) (hn : (node :: l).Nodup)
    (h1 : w.root ∉ node :: l) (h2 : tmp ∉ node :: l) : Spine (w.rotate s tmp).mem node u e l :=
  h.congr hn fun b hb t _ _ => by
    rw [w.rotate_of_ne s (ne_of_mem_of_not_mem hb h1) (ne_of_mem_of_not_mem hb h2)]

lemma Walking.rotate (h : Walking node cut s w near m far) (hc : w.mem w.root s = some tmp) :
    Walking node cut s (w.rotate s tmp) near m far := by
  have hn : m.Nodup :=
    h.nodup.of_cons.sublist ((sublist_append_right _ _).trans (sublist_append_left _ _))
  have hr := h.tree.root_mem
  have ht := (h.tree.rotate hn hc).root_mem
  refine ⟨h.tree.rotate hn hc, ?_, ?_, h.nodup, h.cuts, h.farCut, h.nearCut⟩
  · exact h.spine.rotate h.nodup_spine (fun e => h.ne_of_mem hr e rfl)
      fun e => h.ne_of_mem ht e rfl
  · exact h.spineOpp.rotate h.flip.nodup_spine (fun e => h.flip.ne_of_mem (by simpa) e rfl)
      fun e => h.flip.ne_of_mem (by simpa) e rfl

lemma Walking.spineOpp_setLink (h : Walking node cut s w near m far) (v : Option α) :
    Spine (setLink w.mem (w.ends s) s v) node s.opp (w.ends s.opp) near := by
  refine h.spineOpp.congr h.flip.nodup_spine fun b hb t _ ht => ?_
  simp only [setLink, ite_eq_right_iff, and_imp]
  rintro rfl rfl
  refine absurd ⟨?_, by simp⟩ ht
  have hs := h.spine.end_mem
  have hn := h.nodup
  simp only [nodup_cons, nodup_append, mem_cons] at hn hs hb
  grind

lemma Walking.link (h : Walking node cut s w near m far) (hcut : cut w.root = s.ord)
    (hc : w.mem w.root s ≠ none) :
    ∃ w' m' far', w.link s = some w' ∧ Walking node cut s w' near m' far' ∧
      m' ++ far' = m ++ far ∧ m'.length < m.length := by
  obtain ⟨k, l, rfl, hk, hl⟩ := h.tree.cases_some
  obtain ⟨r, hr⟩ := ne_none_iff_exists'.1 hc
  have hends : w.root ≠ w.ends s := h.ne_of_mem (by simp) h.spine.end_mem
  have hnk : w.ends s ∉ k := fun hm => h.ne_of_mem (by simp [hm]) h.spine.end_mem rfl
  have hnl : w.ends s ∉ l := fun hm => h.ne_of_mem (by simp [hm]) h.spine.end_mem rfl
  have hroot : setLink w.mem (w.ends s) s (some w.root) w.root s = some r := by
    rw [setLink_of_ne hends, hr]
  have hlist : near.reverse ++ k ++ w.root :: (l ++ far) =
      near.reverse ++ (k ++ w.root :: l) ++ far := by simp
  refine ⟨⟨_, r, _⟩, k, w.root :: (l ++ far), by rw [Walk.link, hroot]; rfl,
    ⟨?_, ?_, ?_, hlist ▸ h.nodup, hlist ▸ h.cuts, ?_, h.nearCut⟩, by simp, by simp⟩
  · exact (hr ▸ hk).write hnk _ _
  · simp only [Function.update_self]
    refine .grow ?_ (setLink_self ..) ?_
    · refine h.spine.congr h.nodup_spine fun b _ t hb _ => ?_
      simp [setLink, hb]
    · rw [setLink_of_side_ne (Side.opp_ne s)]
      exact hl.write hnl _ _
  · simp only [Function.update_of_ne (Side.opp_ne s)]
    exact h.spineOpp_setLink _
  · have := (h.separated rfl).2 (by rw [hcut]; exact s.ord_opp_ne.symm)
    have := h.farCut
    grind

lemma splayLoop_turn (fuel : ℕ) (h : Walking node cut s w near m far)
    (hcut : cut w.root = s.ord) (hf : m.length ≤ fuel + 1)
    (ih : ∀ {w near m far}, Walking node cut s w near m far → m.length ≤ fuel →
      ∃ w', splayLoop cut fuel w = some w' ∧ Ended node cut s w' (near.reverse ++ m ++ far)) :
    ∃ w', splayLoop cut (fuel + 1) w = some w' ∧
      Ended node cut s w' (near.reverse ++ m ++ far) := by
  have hopp : s.ord ≠ s.opp.ord := s.ord_opp_ne.symm
  -- both ways around the loop end in a link
  have hlink : ∀ {w}, Walking node cut s w near m far → cut w.root = s.ord →
      w.mem w.root s ≠ none → ∃ w', (w.link s).bind (splayLoop cut fuel) = some w' ∧
        Ended node cut s w' (near.reverse ++ m ++ far) := by
    intro w hw hcut hc
    obtain ⟨w', m', far', hl, hw', he, hlt⟩ := hw.link hcut hc
    obtain ⟨w'', hr, hend⟩ := ih hw' (by omega)
    refine ⟨w'', by rw [hl]; exact hr, ?_⟩
    rwa [append_assoc, he, ← append_assoc] at hend
  unfold splayLoop
  rw [toward_eq_some.2 hcut]
  cases hc : w.mem w.root s with
  | none => exact ⟨w, by simp [hc], h.ended (hcut ▸ hopp) (.inr hc)⟩
  | some tmp =>
    simp only [hc]
    by_cases ht : toward (cut tmp) = some s
    · rw [if_pos ht]
      have hw := h.rotate hc
      have hcut' : cut (w.rotate s tmp).root = s.ord := toward_eq_some.1 ht
      by_cases hn : (w.rotate s tmp).mem (w.rotate s tmp).root s = none
      · exact ⟨_, by rw [if_pos hn], hw.ended (hcut' ▸ hopp) (.inr hn)⟩
      · rw [if_neg hn]
        exact hlink hw hcut' hn
    · rw [if_neg ht]
      exact hlink h hcut (by simp [hc])

lemma splayLoop_ended (fuel : ℕ) (h : Walking node cut s w near m far) (hf : m.length ≤ fuel) :
    ∃ w', splayLoop cut fuel w = some w' ∧ Ended node cut s w' (near.reverse ++ m ++ far) := by
  induction fuel generalizing s w near m far with
  | zero =>
    have := length_pos_of_mem h.tree.root_mem
    omega
  | succ fuel ih =>
    by_cases hs : cut w.root = s.ord
    · exact splayLoop_turn fuel h hs hf ih
    by_cases ho : cut w.root = s.opp.ord
    · -- the key lies on the other side: read everything from there
      obtain ⟨w', hr, hend⟩ := splayLoop_turn fuel h.flip ho (by simpa using hf) ih
      refine ⟨w', hr, ?_⟩
      simpa using hend.flip
    · have ht : toward (cut w.root) = none := by
        revert hs ho
        cases cut w.root <;> cases s <;> simp [toward, Side.ord, Side.opp]
      exact ⟨w, by simp [splayLoop, ht], h.ended ho (.inl hs)⟩

def attached (w : Walk α) : Links α :=
  fun b t => if b = w.ends t then w.mem w.root t.opp else w.mem b t

lemma Walking.attach (h : Walking node cut s w near m far)
    (hl : InOrder w.mem s (w.mem w.root s.opp) l) (hlm : l ⊆ m) :
    InOrder (attached w) s (attached w node s) (l ++ far) := by
  have hs : Spine (attached w) node s (w.ends s) far := by
    refine h.spine.congr h.nodup_spine fun b hb t h1 h2 => if_neg ?_
    rintro rfl
    obtain rfl : t = s.opp := by cases t <;> cases s <;> simp_all [Side.opp]
    have ho := h.spineOpp.end_mem
    have hn := h.nodup
    simp only [nodup_cons, nodup_append, mem_append,  mem_reverse] at hn hb ho
    grind
  refine hs.fill ?_
  rw [attached, if_pos rfl]
  exact hl.congr fun b hb => funext fun t => if_neg (h.ne_ends (hlm hb) t)

lemma assemble_eq (hr : ∀ t, w.root ≠ w.ends t) (hn : node ≠ w.root) :
    assemble node w = fun b t => if b = w.root then attached w node t.opp else attached w b t := by
  funext b t
  cases t <;> simp only [assemble, attached, setLink, Side.opp] <;> grind

lemma assemble_spec (h : Ended node cut .left w total) :
    ∃ k l, total = k ++ w.root :: l ∧
      InOrder (assemble node w) .left (assemble node w w.root .left) k ∧
      InOrder (assemble node w) .left (assemble node w w.root .right) l ∧
      (∀ b ∈ k, cut b = .gt) ∧ (∀ b ∈ l, cut b = .lt) := by
  obtain ⟨near, k, l, far, hw, hk, hl, hkc, hlc, rfl⟩ := h
  have hn := hw.nodup
  simp only [nodup_cons, nodup_append, mem_append, mem_cons] at hn
  have heq : assemble node w = _ := assemble_eq (fun t => hw.ne_ends (by simp) t) (by grind)
  have hsub : ∀ {p q}, InOrder (attached w) .left p q → w.root ∉ q →
      InOrder (assemble node w) .left p q := fun hq hr =>
    hq.congr fun b hb => by rw [heq]; funext t; exact if_neg (ne_of_mem_of_not_mem hb hr)
  have hroot : ∀ t, assemble node w w.root t = attached w node t.opp := fun t => by simp [heq]
  have hkl := (hw.flip.attach (by simpa using hk.flip) (by intro b; simp; tauto)).flip
  refine ⟨near.reverse ++ k, l ++ far, by simp, ?_, ?_, ?_, ?_⟩
  · rw [hroot]
    exact hsub (by simpa [Side.opp] using hkl) (by simp; grind)
  · rw [hroot]
    exact hsub (hw.attach hl (by intro b; simp; tauto)) (by simp; grind)
  · have := hw.nearCut
    simp only [mem_append, mem_reverse]
    rintro b (hb | hb)
    · exact this b hb
    · exact hkc b hb
  · have := hw.farCut
    simp only [mem_append]
    rintro b (hb | hb)
    · exact hlc b hb
    · exact this b hb

variable {mem : Links α} {root : α}

def Grows (cut : α → Ordering) (l : List α) : Prop :=
  l.Pairwise fun a b => cut a = .gt ∨ cut b = .lt

lemma splay_spec (h : InOrder mem .left (some root) total) (hn : (node :: total).Nodup)
    (hc : Grows cut total) {fuel : ℕ} (hf : total.length ≤ fuel) :
    ∃ mem' root' k l, splay node cut fuel mem root = some (mem', root') ∧
      total = k ++ root' :: l ∧ InOrder mem' .left (mem' root' .left) k ∧
      InOrder mem' .left (mem' root' .right) l ∧
      (∀ b ∈ k, cut b = .gt) ∧ (∀ b ∈ l, cut b = .lt) := by
  have hnode : node ∉ total := (nodup_cons.1 hn).1
  have hw : Walking node cut .left
      ⟨setLink (setLink mem node .right none) node .left none, root, fun _ => node⟩ [] total [] :=
    ⟨(h.write hnode _ _).write hnode _ _, .start, .start, by simpa using hn,
      by simpa [Side.ord, Side.opp] using List.Pairwise.imp id hc, by simp, by simp⟩
  obtain ⟨w, hr, hend⟩ := splayLoop_ended fuel hw hf
  obtain ⟨k, l, ht, hk⟩ := assemble_spec hend
  exact ⟨_, _, k, l, by simp [splay, hr], by simpa using ht, hk⟩

variable {cmp : α → α → Ordering} {t : SplayHead α} {elm : α} {fuel : ℕ}

lemma InOrder.insertAbove (hk : InOrder mem s (mem root s) k)
    (hl : InOrder mem s (mem root s.opp) l) (hn : (elm :: (k ++ root :: l)).Nodup) :
    InOrder (setLink (setLink (setLink mem elm s (mem root s)) elm s.opp (some root)) root s none)
      s (some elm) (k ++ elm :: root :: l) := by
  simp only [nodup_cons, nodup_append, mem_append] at hn
  have hre : root ≠ elm := by grind
  have hsub : ∀ {p q}, InOrder mem s p q → elm ∉ q → root ∉ q → InOrder (setLink (setLink
      (setLink mem elm s (mem root s)) elm s.opp (some root)) root s none) s p q :=
    fun hq h1 h2 => ((hq.write h1 _ _).write h1 _ _).write h2 _ _
  refine .node ?_ ?_
  · have : setLink (setLink (setLink mem elm s (mem root s)) elm s.opp (some root)) root s none
        elm s = mem root s := by simp [setLink, hre.symm]
    rw [this]
    exact hsub hk (by grind) (by grind)
  · have : setLink (setLink (setLink mem elm s (mem root s)) elm s.opp (some root)) root s none
        elm s.opp = some root := by simp [setLink]
    rw [this]
    refine .node (k := []) ?_ ?_
    · simpa [setLink] using InOrder.null
    have : setLink (setLink (setLink mem elm s (mem root s)) elm s.opp (some root)) root s none
        root s.opp = mem root s.opp := by simp [setLink, hre]
    rw [this]
    exact hsub hl (by grind) (by grind)

/-- The element splits the order into what is below and what is above it. -/
lemma splayInsert_spec (h : InOrder t.mem .left t.root total) (hn : (node :: elm :: total).Nodup)
    (hc : Grows (cmp elm) total) (hne : ∀ b ∈ total, cmp elm b ≠ .eq)
    (hf : total.length ≤ fuel) :
    ∃ mem' k l, splayInsert node cmp fuel t elm = some (⟨mem', some elm⟩, none) ∧ total = k ++ l ∧
      (∀ b ∈ k, cmp elm b = .gt) ∧ (∀ b ∈ l, cmp elm b = .lt) ∧
      InOrder mem' .left (some elm) (k ++ elm :: l) := by
  unfold splayInsert
  cases hr : t.root with
  | none =>
    rw [hr] at h
    obtain rfl := h.eq_nil
    refine ⟨_, [], [], rfl, rfl, by simp, by simp, .node ?_ ?_⟩ <;>
      simpa [setLink, Side.opp] using InOrder.null
  | some root =>
    rw [hr] at h
    have hn' : (node :: total).Nodup := hn.sublist ((sublist_cons_self _ _).cons_cons _)
    obtain ⟨mem', root', k, l, hs, rfl, hk, hl, hkc, hlc⟩ := splay_spec h hn' hc hf
    simp only [hs, Option.bind_eq_bind, Option.bind_some]
    cases hcmp : cmp elm root' with
    | eq => exact absurd hcmp (hne root' (by simp))
    | lt =>
      exact ⟨_, k, root' :: l, rfl, rfl, hkc, by simpa [hcmp] using hlc,
        hk.insertAbove hl hn.of_cons⟩
    | gt =>
      refine ⟨_, k ++ [root'], l, rfl, by simp,
        by simpa [hcmp, or_imp, forall_and] using hkc, hlc, ?_⟩
      have hn'' : (elm :: (l.reverse ++ root' :: k.reverse)).Nodup := by
        have := hn.of_cons
        rw [nodup_cons, ← nodup_reverse] at this
        simp only [reverse_append, reverse_cons, append_assoc] at this
        exact nodup_cons.2
          ⟨by simpa [and_comm, and_left_comm, and_assoc] using this.1, this.2⟩
      have := (hl.flip.insertAbove hk.flip hn'').flip
      simpa [Side.opp] using this

lemma leftmost_eq (h : InOrder mem .left (some a) l) (hf : l.length ≤ fuel) :
    leftmost mem fuel a = l.head? := by
  induction fuel generalizing a l with
  | zero =>
    have := length_pos_of_mem h.root_mem
    omega
  | succ fuel ih =>
    obtain ⟨k, m, rfl, hk, -⟩ := h.cases_some
    unfold leftmost
    cases ha : mem a .left with
    | none =>
      rw [ha] at hk
      simp [hk.eq_nil]
    | some b =>
      rw [ha] at hk
      simp only [length_append, length_cons] at hf
      simp only [ih hk (by omega)]
      cases k with
      | nil => exact absurd hk.root_mem (by simp)
      | cons => simp

lemma splayNext_spec (h : InOrder t.mem .left t.root (k ++ elm :: l))
    (hn : (node :: (k ++ elm :: l)).Nodup) (hc : Grows (cmp elm) (k ++ elm :: l))
    (he : cmp elm elm = .eq) (hf : (k ++ elm :: l).length ≤ fuel) :
    ∃ t', splayNext node cmp fuel t elm = some (t', l.head?) ∧
      InOrder t'.mem .left t'.root (k ++ elm :: l) := by
  cases hr : t.root with
  | none => rw [hr] at h; simpa using h.eq_nil
  | some root =>
    rw [hr] at h
    obtain ⟨mem', root', k', l', hs, ht, hk, hl, hkc, hlc⟩ := splay_spec h hn hc hf
    have hk' : elm ∉ k' := fun hm => by simpa [he] using hkc elm hm
    have hl' : elm ∉ l' := fun hm => by simpa [he] using hlc elm hm
    obtain ⟨rfl, rfl, rfl⟩ := (append_cons_inj_of_notMem hk' hl').1 ht.symm
    refine ⟨⟨mem', some root'⟩, ?_, .node hk hl⟩
    simp only [splayNext, hr, hs, Option.bind_eq_bind, Option.bind_some]
    cases hm : mem' root' .right with
    | none =>
      rw [hm] at hl
      simp [hl.eq_nil]
    | some a =>
      rw [hm] at hl
      simp only [length_append, length_cons] at hf
      have := leftmost_eq hl (by omega : l'.length ≤ fuel)
      cases l' with
      | nil => exact absurd hl.root_mem (by simp)
      | cons b l' => simp [this]

/-! More fuel does not change a result. -/

omit [DecidableEq α] in
lemma bind_mono {β γ : Type} {o : Option β} {f g : β → Option γ} {r : γ}
    (hfg : ∀ x y, f x = some y → g x = some y) (h : o.bind f = some r) : o.bind g = some r := by
  obtain ⟨x, hx, hf⟩ := Option.bind_eq_some_iff.1 h
  exact Option.bind_eq_some_iff.2 ⟨x, hx, hfg x r hf⟩

lemma splayLoop_mono (n : ℕ) (h : splayLoop cut fuel w = some w') :
    splayLoop cut (fuel + n) w = some w' := by
  induction fuel generalizing w w' with
  | zero => cases h
  | succ fuel ih =>
    rw [Nat.add_right_comm]
    unfold splayLoop at h ⊢
    split at h
    · exact h
    split at h
    · simp only [*]
    · simp only [*]
      dsimp only at h
      split_ifs at h ⊢
      · exact h
      · exact bind_mono (fun _ _ hx => ih hx) h
      · exact bind_mono (fun _ _ hx => ih hx) h

lemma splay_mono (n : ℕ) {r : Links α × α} (h : splay node cut fuel mem root = some r) :
    splay node cut (fuel + n) mem root = some r := by
  obtain ⟨w, hw, rfl⟩ := map_eq_some_iff.1 h
  simp [splay, splayLoop_mono n hw]

lemma splayInsert_mono (n : ℕ) {r : SplayHead α × Option α}
    (h : splayInsert node cmp fuel t elm = some r) :
    splayInsert node cmp (fuel + n) t elm = some r := by
  unfold splayInsert at h ⊢
  split at h
  · exact h
  · obtain ⟨x, hx, hr⟩ := bind_eq_some_iff.1 h
    simp only [splay_mono n hx]
    exact hr

omit [DecidableEq α] in
lemma leftmost_mono (n : ℕ) (h : leftmost mem fuel a = some b) :
    leftmost mem (fuel + n) a = some b := by
  induction fuel generalizing a with
  | zero => cases h
  | succ fuel ih =>
    rw [Nat.add_right_comm]
    unfold leftmost at h ⊢
    split at h
    · simp only [*]
    · simp only [ih h, *]

lemma splayNext_mono (n : ℕ) {r : SplayHead α × Option α}
    (h : splayNext node cmp fuel t elm = some r) :
    splayNext node cmp (fuel + n) t elm = some r := by
  refine bind_mono (fun root r hr => ?_) h
  obtain ⟨⟨mem', root'⟩, hx, hr⟩ := bind_eq_some_iff.1 hr
  simp only [splay_mono n hx, bind_eq_bind, bind_some]
  dsimp only at hr
  cases hm : mem' elm .right with
  | none =>
    rw [hm] at hr
    exact hr
  | some a =>
    rw [hm] at hr
    obtain ⟨b, hb, hr⟩ := bind_eq_some_iff.1 hr
    simp only [leftmost_mono n hb]
    exact hr

end

end GzOS.SplayTree
