import GzOS.DyadicTiling
import Mathlib.Data.Set.Basic

/-!
# Decomposition into maximal blocks

A set of positions has at most one decomposition into maximal aligned blocks of
power-of-two size. The tiles of one kind are that decomposition of the positions
they own as soon as no two of them are the halves of an aligned block.
-/
namespace GzOS.DyadicTiling
open Option

/-! ## Aligned blocks -/

/-- The `2 ^ k` positions from `p` on. -/
def block (p k : ℕ) : Set ℕ := {q | p ≤ q ∧ q < p + 2 ^ k}

variable {p p' q k k' : ℕ}

@[simp] lemma mem_block : q ∈ block p k ↔ p ≤ q ∧ q < p + 2 ^ k := Iff.rfl

instance : Decidable (q ∈ block p k) := inferInstanceAs (Decidable (_ ∧ _))

lemma head_mem_block (p k : ℕ) : p ∈ block p k :=
  ⟨le_rfl, Nat.lt_add_of_pos_right (Nat.two_pow_pos k)⟩

lemma mem_block_iff_div (hp : 2 ^ k ∣ p) : q ∈ block p k ↔ q / 2 ^ k = p / 2 ^ k := by
  have hpos := Nat.two_pow_pos k
  obtain ⟨c, rfl⟩ := hp
  rw [mem_block, Nat.mul_div_cancel_left c hpos, Nat.div_eq_iff hpos]
  rw [Nat.mul_comm c]
  omega

lemma div_eq_of_mem_block (hp : 2 ^ k ∣ p) (hk : k ≤ k') (hq : q ∈ block p k) :
    q / 2 ^ k' = p / 2 ^ k' := by
  rw [mem_block_iff_div hp] at hq
  rw [← Nat.add_sub_cancel' hk, pow_add, ← Nat.div_div_eq_div_mul, ← Nat.div_div_eq_div_mul, hq]

lemma block_subset (hp : 2 ^ k ∣ p) (hp' : 2 ^ k' ∣ p') (hk : k ≤ k') (hq : q ∈ block p k)
    (hq' : q ∈ block p' k') : block p k ⊆ block p' k' := by
  intro r hr
  rw [mem_block_iff_div hp'] at hq' ⊢
  rw [← hq', div_eq_of_mem_block hp hk hr, div_eq_of_mem_block hp hk hq]

lemma block_injective (h : block p k = block p' k') : p = p' ∧ k = k' := by
  have hpos := Nat.two_pow_pos k
  have hmem := fun q => Set.ext_iff.1 h q
  simp only [mem_block] at hmem
  have hp : p = p' := by
    have h1 := hmem p
    have h2 := hmem p'
    omega
  subst hp
  have hsize : 2 ^ k = 2 ^ k' := by
    have h1 := hmem (p + 2 ^ k - 1)
    have h2 := hmem (p + 2 ^ k' - 1)
    omega
  exact ⟨rfl, Nat.pow_right_injective le_rfl hsize⟩

lemma mem_block_succ : q ∈ block p (k + 1) ↔ q ∈ block p k ∨ q ∈ block (p + 2 ^ k) k := by
  simp only [mem_block]
  omega

/-- No aligned block inside `F` is a larger one. -/
structure MaximalBlock (F : Set ℕ) (p k : ℕ) : Prop where
  aligned : 2 ^ k ∣ p
  inside : block p k ⊆ F
  maximal : ∀ p' k', 2 ^ k' ∣ p' → block p' k' ⊆ F → block p k ⊆ block p' k' →
    block p' k' = block p k

/-! ## Tilings given by their blocks -/

section OfBlocks

/-- Aligned blocks, `B k p` of order `k` at `p`, that do not meet and lie below `n`. -/
structure BlockSet (n : ℕ) (B : ℕ → ℕ → Prop) : Prop where
  unique : ∀ q, ∀ b c : ℕ × ℕ, B b.1 b.2 → q ∈ block b.2 b.1 → B c.1 c.2 → q ∈ block c.2 c.1 → b = c
  aligned : ∀ k p, B k p → 2 ^ k ∣ p
  inside : ∀ k p, B k p → p + 2 ^ k ≤ n

variable {κ : Type} {n : ℕ} {B : ℕ → ℕ → Prop}

open Classical in
noncomputable def blockAt (B : ℕ → ℕ → Prop) (q : ℕ) : Option (ℕ × ℕ) :=
  if h : ∃ b : ℕ × ℕ, B b.1 b.2 ∧ q ∈ block b.2 b.1 then some h.choose else none

lemma blockAt_eq_some (h : BlockSet n B) {b : ℕ × ℕ} :
    blockAt B q = some b ↔ B b.1 b.2 ∧ q ∈ block b.2 b.1 := by
  unfold blockAt
  split_ifs with hq
  · obtain ⟨hB, hin⟩ := hq.choose_spec
    rw [some.injEq]
    constructor
    · rintro rfl
      exact ⟨hB, hin⟩
    · exact fun hb => h.unique q _ _ hB hin hb.1 hb.2
  · simp only [false_iff]
    exact fun hb => hq ⟨b, hb⟩

lemma blockAt_map_eq_some (h : BlockSet n B) {kind : κ} {t : Tile κ} :
    (blockAt B q).map (fun b => (⟨kind, b.2, b.1⟩ : Tile κ)) = some t ↔
      t.kind = kind ∧ B t.order t.head ∧ q ∈ block t.head t.order := by
  obtain ⟨kind', p, k⟩ := t
  simp only [map_eq_some_iff, blockAt_eq_some h, Tile.mk.injEq]
  constructor
  · rintro ⟨b, hb, rfl, rfl, rfl⟩
    exact ⟨rfl, hb⟩
  · rintro ⟨rfl, hb⟩
    exact ⟨(k, p), hb, rfl, rfl, rfl⟩

noncomputable def Tiling.ofBlocks (kind : κ) (h : BlockSet n B) : Tiling κ n where
  owner q := (blockAt B q).map fun b => ⟨kind, b.2, b.1⟩
  covers ht := ((blockAt_map_eq_some h).1 ht).2.2
  whole ht r hr := by
    obtain ⟨hkind, hB, -⟩ := (blockAt_map_eq_some h).1 ht
    exact (blockAt_map_eq_some h).2 ⟨hkind, hB, hr⟩
  aligned ht := h.aligned _ _ ((blockAt_map_eq_some h).1 ht).2.1
  inside ht := h.inside _ _ ((blockAt_map_eq_some h).1 ht).2.1

lemma Tiling.ofBlocks_owner (kind : κ) (h : BlockSet n B) {t : Tile κ} :
    (Tiling.ofBlocks kind h).owner q = some t ↔
      t.kind = kind ∧ B t.order t.head ∧ q ∈ block t.head t.order :=
  blockAt_map_eq_some h

end OfBlocks

/-! ## Tiles of one kind -/

variable {κ : Type} {n : ℕ} {T : Tiling κ n} {kind : κ}

/-- Of two such tiles that are the halves of an aligned block, one is among the exceptions.
-/
def Tiling.Coalesced (T : Tiling κ n) (kind : κ) (except : ℕ → ℕ → Prop) : Prop :=
  ∀ p k, 2 ^ (k + 1) ∣ p → T.owner p = some ⟨kind, p, k⟩ →
    T.owner (p + 2 ^ k) = some ⟨kind, p + 2 ^ k, k⟩ → except p k ∨ except (p + 2 ^ k) k

def Tiling.Canonical (T : Tiling κ n) (kind : κ) : Prop := T.Coalesced kind fun _ _ => False

variable {R R' : ℕ → ℕ → Prop}

lemma Tiling.Coalesced.mono (h : T.Coalesced kind R)
    (hR : ∀ p k, T.owner p = some ⟨kind, p, k⟩ → R p k → R' p k) : T.Coalesced kind R' :=
  fun p k hp h1 h2 => (h p k hp h1 h2).imp (hR p k h1) (hR _ k h2)

lemma Tiling.Coalesced.of_subset {T' : Tiling κ n} (h : T.Coalesced kind R)
    (hsub : ∀ p k, T'.owner p = some ⟨kind, p, k⟩ → T.owner p = some ⟨kind, p, k⟩) :
    T'.Coalesced kind R :=
  fun p k hp h1 h2 => h p k hp (hsub p k h1) (hsub _ k h2)

lemma upper_not_aligned (hp : 2 ^ (k + 1) ∣ p) (hp' : 2 ^ (k + 1) ∣ p') : p' ≠ p + 2 ^ k := by
  rintro rfl
  have hdvd : 2 ^ (k + 1) ∣ 2 ^ k := (Nat.dvd_add_right hp).1 hp'
  have hle := Nat.le_of_dvd (Nat.two_pow_pos k) hdvd
  exact absurd (Nat.pow_lt_pow_right (by norm_num) (Nat.lt_succ_self k)) (not_lt.2 hle)

lemma Tiling.Coalesced.split (h : T.Coalesced kind R)
    (ht : T.owner p = some ⟨kind, p, k + 1⟩) (hnew : R' p k ∨ R' (p + 2 ^ k) k)
    (hold : ∀ q j, ¬Tile.Covers (⟨kind, p, k + 1⟩ : Tile κ) q → R q j → R' q j) :
    (T.split ht).Coalesced kind R' := by
  have hal : 2 ^ (k + 1) ∣ p := T.aligned ht
  -- a tile of the new tiling is a half or an old tile elsewhere
  have hcases : ∀ q j, (T.split ht).owner q = some ⟨kind, q, j⟩ → (j = k ∧ q = p) ∨
      (j = k ∧ q = p + 2 ^ k) ∨
      ¬Tile.Covers (⟨kind, p, k + 1⟩ : Tile κ) q ∧ T.owner q = some ⟨kind, q, j⟩ := by
    intro q j hq
    by_cases hc : Tile.Covers (⟨kind, p, k + 1⟩ : Tile κ) q
    · obtain ⟨head, howner, hhead⟩ := T.split_owner_half ht hc
      cases howner.symm.trans hq
      exact (hhead.1 rfl).imp (fun he => ⟨rfl, he⟩) fun he => .inl ⟨rfl, he⟩
    · rw [split_owner, if_neg hc] at hq
      exact .inr (.inr ⟨hc, hq⟩)
  intro q j hq h1 h2
  rcases hcases q j h1 with ⟨rfl, rfl⟩ | ⟨rfl, rfl⟩ | ⟨hc, ho⟩
  · exact hnew
  · exact absurd rfl (upper_not_aligned hal hq)
  rcases hcases _ j h2 with ⟨rfl, he⟩ | ⟨rfl, he⟩ | ⟨hc', ho'⟩
  · exact absurd he.symm (upper_not_aligned hq hal)
  · obtain rfl : q = p := by omega
    exact absurd (Tile.covers_head _) hc
  · exact (h q j hq ho ho').imp (hold q j hc) (hold _ j hc')

lemma Tiling.Coalesced.assign (h : T.Coalesced kind R) {t : Tile κ}
    (ht : T.owner t.head = some t) {kind' : Option κ} (hne : kind' ≠ some kind)
    (hold : ∀ q j, ¬t.Covers q → R q j → R' q j) : (T.assign t ht kind').Coalesced kind R' := by
  have hcases : ∀ q j, (T.assign t ht kind').owner q = some ⟨kind, q, j⟩ →
      ¬t.Covers q ∧ T.owner q = some ⟨kind, q, j⟩ := by
    intro q j hq
    rw [assign_owner] at hq
    split_ifs at hq with hc
    · obtain ⟨kind0, hk, he⟩ := map_eq_some_iff.1 hq
      obtain rfl : kind0 = kind := congrArg Tile.kind he
      exact absurd hk hne
    · exact ⟨hc, hq⟩
  intro q j hq h1 h2
  obtain ⟨hc, ho⟩ := hcases q j h1
  obtain ⟨hc', ho'⟩ := hcases _ j h2
  exact (h q j hq ho ho').imp (hold q j hc) (hold _ j hc')

lemma Tiling.Canonical.fill {kind' : κ} (h : T.Canonical kind) (ht : T.owner p = some ⟨kind', p, k⟩)
    (hlow : 2 ^ (k + 1) ∣ p → T.owner (p + 2 ^ k) ≠ some ⟨kind, p + 2 ^ k, k⟩)
    (hup : ∀ l, 2 ^ (k + 1) ∣ l → p = l + 2 ^ k → T.owner l ≠ some ⟨kind, l, k⟩) :
    (T.assign ⟨kind', p, k⟩ ht (some kind)).Canonical kind := by
  have hcases : ∀ q j, (T.assign ⟨kind', p, k⟩ ht (some kind)).owner q = some ⟨kind, q, j⟩ →
      (q = p ∧ j = k) ∨ T.owner q = some ⟨kind, q, j⟩ := by
    intro q j hq
    rw [assign_owner] at hq
    split_ifs at hq with hc
    · obtain ⟨-, rfl, rfl⟩ := Tile.mk.injEq .. ▸ some.inj hq
      exact .inl ⟨rfl, rfl⟩
    · exact .inr hq
  intro q j hq h1 h2
  rcases hcases q j h1 with ⟨rfl, rfl⟩ | ho
  · rcases hcases _ j h2 with ⟨he, -⟩ | ho'
    · omega
    · exact absurd ho' (hlow hq)
  · rcases hcases _ j h2 with ⟨he, rfl⟩ | ho'
    · exact absurd ho (hup q hq he.symm)
    · exact h q j hq ho ho'

/-- In a canonical tiling a free dyadic block lies inside one tile. -/
lemma Tiling.Canonical.tile_of_block (hT : T.Canonical kind) (hp : 2 ^ k ∣ p)
    (hF : ∀ q ∈ block p k, T.kindAt q = some kind) :
    ∃ t, T.owner p = some t ∧ t.kind = kind ∧ block p k ⊆ block t.head t.order := by
  induction k generalizing p with
  | zero =>
    obtain ⟨t, ht, hkind⟩ := T.kindAt_eq_some.1 (hF p (head_mem_block p 0))
    refine ⟨t, ht, hkind, fun q hq => ?_⟩
    obtain rfl : q = p := by
      simp only [mem_block] at hq
      omega
    exact T.covers ht
  | succ k ih =>
    have hlow : 2 ^ k ∣ p := dvd_trans (pow_dvd_pow 2 (Nat.le_succ k)) hp
    obtain ⟨t, ht, hkind, hsub⟩ := ih hlow fun q hq => hF q (mem_block_succ.2 (.inl hq))
    obtain ⟨u, hu, hkind', hsub'⟩ := ih (Nat.dvd_add hlow dvd_rfl) fun q hq =>
      hF q (mem_block_succ.2 (.inr hq))
    by_cases hk : k < t.order
    · exact ⟨t, ht, hkind, block_subset hp (T.aligned ht) hk (head_mem_block p _) (T.covers ht)⟩
    by_cases hk' : k < u.order
    · -- the upper tile is large enough to cover the lower half as well
      have hin := block_subset hp (T.aligned hu) hk'
          (mem_block_succ.2 (.inr (head_mem_block _ k))) (T.covers hu)
      exact ⟨u, T.whole hu p (hin (head_mem_block p _)), hkind', hin⟩
    · -- the halves are tiles of their own
      have htile : ∀ {r} {v : Tile κ}, 2 ^ k ∣ r → T.owner r = some v → v.kind = kind →
          block r k ⊆ block v.head v.order → ¬k < v.order → T.owner r = some ⟨kind, r, k⟩ := by
        intro r v hr hv hvk hvsub hle
        have hback := block_subset (T.aligned hv) hr (by omega) (T.covers hv) (head_mem_block r k)
        obtain ⟨hhead, horder⟩ := block_injective (Set.Subset.antisymm hvsub hback)
        rw [hv, ← hvk]
        exact congrArg some (by rw [Tile.mk.injEq]; exact ⟨rfl, hhead.symm, horder.symm⟩)
      have hno := hT p k hp (htile hlow ht hkind hsub hk)
        (htile (Nat.dvd_add hlow dvd_rfl) hu hkind' hsub' hk')
      exact (hno.elim id id).elim

lemma Tiling.Canonical.owner_iff (hT : T.Canonical kind) :
    T.owner p = some ⟨kind, p, k⟩ ↔ MaximalBlock {q | T.kindAt q = some kind} p k := by
  constructor
  · intro h
    refine ⟨T.aligned h, fun q hq => T.kindAt_of_owner (T.whole h q hq),
      fun p' k' hp' hF hsub => ?_⟩
    obtain ⟨t, ht, -, hin⟩ := hT.tile_of_block hp' hF
    have hp : p ∈ block t.head t.order := hin (hsub (head_mem_block p k))
    obtain rfl : (⟨kind, p, k⟩ : Tile κ) = t :=
      some.inj (h.symm.trans (T.whole ht p hp))
    exact Set.Subset.antisymm hin hsub
  · intro h
    obtain ⟨t, ht, hkind, hin⟩ := hT.tile_of_block h.aligned h.inside
    have hF : block t.head t.order ⊆ {q | T.kindAt q = some kind} := fun q hq =>
      hkind ▸ T.kindAt_of_owner (T.whole ht q hq)
    obtain ⟨hhead, horder⟩ := block_injective (h.maximal _ _ (T.aligned ht) hF hin)
    rw [ht, ← hkind, ← hhead, ← horder]

end GzOS.DyadicTiling
