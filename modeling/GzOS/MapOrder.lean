import GzOS.Findspace
import GzOS.SplayOrder
import GzOS.VmMapSpec

/-!
# Maps in order

The list goes from low to high addresses without overlaps and, as long as no entry has
been removed, the splay tree reads as the list. A new entry in a free place, a removal
and a resize keep a map so, and the gap that the search finds in it is free.
-/
namespace GzOS.Vm
open SplayTree List VmMap Function Option

structure InPlace (map : VmMap) : Prop where
  order : map.list.Pairwise fun p q => map.stop p ≤ map.start q
  proper : ∀ p ∈ map.list, map.start p < map.stop p ∧ map.stop p ≤ pmapEnd
  notNull : 0 ∉ map.list
  tree : map.removed = false → InOrder map.tree.mem .left map.tree.root map.list

section
variable {map map' : VmMap} {fuel entry : ℕ} {k l : List ℕ}

lemma InPlace.nodup (h : InPlace map) : map.list.Nodup :=
  h.order.imp_of_mem fun hp _ hpq => by
    rintro rfl
    have := (h.proper _ hp).1
    omega

lemma pairwise_insert {R : ℕ → ℕ → Prop} (h : (k ++ l).Pairwise R) (hk : ∀ p ∈ k, R p entry)
    (hl : ∀ q ∈ l, R entry q) : (k ++ entry :: l).Pairwise R := by
  obtain ⟨hkk, hll, hkl⟩ := pairwise_append.1 h
  refine pairwise_append.2 ⟨hkk, pairwise_cons.2 ⟨hl, hll⟩, fun p hp q hq => ?_⟩
  rcases mem_cons.1 hq with rfl | hq
  · exact hk p hp
  · exact hkl p hp q hq

lemma InPlace.congr (h : InPlace map) (hl : map'.list = map.list) (ht : map'.tree = map.tree)
    (hr : map'.removed = map.removed)
    (he : ∀ p ∈ map.list, map'.start p = map.start p ∧ map'.stop p = map.stop p) :
    InPlace map' where
  order := by
    rw [hl]
    refine h.order.imp_of_mem fun hp hq hpq => ?_
    rw [(he _ hp).2, (he _ hq).1]
    exact hpq
  proper := by
    rw [hl]
    intro p hp
    rw [(he p hp).1, (he p hp).2]
    exact h.proper p hp
  notNull := by rw [hl]; exact h.notNull
  tree := by rw [hl, ht, hr]; exact h.tree

lemma compareStarts_eq {a : ℕ} (ha : a < 2 ^ 31) (b : ℕ) : compareStarts a b = compare a b := by
  unfold compareStarts
  split_ifs with h1 h2 h3
  · exact (Nat.compare_eq_lt.2 h1).symm
  · exact (Nat.compare_eq_eq.2 h2).symm
  · exact (Nat.compare_eq_gt.2 (by omega)).symm
  · omega

lemma insertBefore_append {next : ℕ} (hk : next ∉ k) (entry : ℕ) :
    insertBefore (k ++ next :: l) next entry = k ++ entry :: next :: l := by
  have hall : ∀ e ∈ k, decide (e ≠ next) := fun e he =>
    decide_eq_true (ne_of_mem_of_not_mem he hk)
  rw [insertBefore, takeWhile_append_of_pos hall, dropWhile_append_of_pos hall]
  simp

lemma vmMapEntryCmp_self (entries : ℕ → Entry) (entry : ℕ) :
    vmMapEntryCmp entries entry entry = .eq := by
  simp [vmMapEntryCmp, compareStarts]

lemma nodup_place (hkl : map.list = k ++ l) (hn : (0 :: entry :: map.list).Nodup) :
    (0 :: (k ++ entry :: l)).Nodup := by
  rw [hkl] at hn
  exact (perm_middle.cons 0).nodup_iff.2 hn

lemma grows_place (hkl : map.list = k ++ l) (hc : Grows (vmMapEntryCmp map.entries entry) map.list)
    (hk : ∀ b ∈ k, vmMapEntryCmp map.entries entry b = .gt)
    (hl : ∀ b ∈ l, vmMapEntryCmp map.entries entry b = .lt) :
    Grows (vmMapEntryCmp map.entries entry) (k ++ entry :: l) :=
  pairwise_insert (hkl ▸ hc) (fun a ha => .inl (hk a ha)) fun b hb => .inr (hl b hb)

lemma vmMapInsertEntry_place (h : vmMapInsertEntry fuel map entry = some map')
    (ht : InOrder map.tree.mem .left map.tree.root map.list)
    (hn : (0 :: entry :: map.list).Nodup)
    (hc : Grows (vmMapEntryCmp map.entries entry) map.list)
    (hne : ∀ b ∈ map.list, vmMapEntryCmp map.entries entry b ≠ .eq) :
    ∃ tree k l, map.list = k ++ l ∧ map' = { map with tree, list := k ++ entry :: l } ∧
      (∀ b ∈ k, vmMapEntryCmp map.entries entry b = .gt) ∧
      (∀ b ∈ l, vmMapEntryCmp map.entries entry b = .lt) ∧
      InOrder tree.mem .left tree.root (k ++ entry :: l) := by
  obtain ⟨⟨tree, same⟩, hi, h⟩ := bind_eq_some_iff.1 h
  obtain ⟨mem, k, l, hi', hkl, hk, hl, hin⟩ :=
    splayInsert_spec ht hn hc hne
      (by omega : map.list.length ≤ fuel + (map.list.length + 1))
  obtain ⟨rfl, rfl⟩ := Prod.mk.inj
    (some.inj ((splayInsert_mono (map.list.length + 1) hi).symm.trans hi'))
  obtain ⟨⟨tree, next⟩, hx, h⟩ := bind_eq_some_iff.1 h
  have hn' := nodup_place hkl hn
  have hg := grows_place hkl hc hk hl
  obtain ⟨tree', hx', hin'⟩ :=
    splayNext_spec (t := ⟨mem, some entry⟩) hin hn' hg (vmMapEntryCmp_self ..)
      (by simp [hkl]; omega : (k ++ entry :: l).length ≤ fuel + (map.list.length + 1))
  obtain ⟨rfl, rfl⟩ := Prod.mk.inj
    (some.inj ((splayNext_mono (map.list.length + 1) hx).symm.trans hx'))
  refine ⟨tree, k, l, hkl, ?_, hk, hl, hin'⟩
  cases l with
  | nil =>
    cases h
    simp [hkl]
  | cons b l =>
    have hb : b ∉ k := by
      have := hn'.of_cons
      simp only [nodup_append] at this
      exact fun hm => this.2.2 b hm b (by simp) rfl
    simp only [head?_cons, hkl] at h
    rw [if_pos (by simp), insertBefore_append hb] at h
    exact (some.inj h).symm

section
variable {r : RegionArgs}

/-- A region that overlaps none goes to its place in list and tree. -/
lemma InPlace.newRegion_place (h : InPlace map) (hr : map.removed = false)
    (h0 : entry ≠ 0) (he : entry ∉ map.list) (hlt : r.start < r.stop)
    (hfree : ∀ p ∈ map.list, map.stop p ≤ r.start ∨ r.stop ≤ map.start p)
    (hadd : newRegion fuel map r entry = some map') :
    ∃ tree k l, map.list = k ++ l ∧ (∀ p ∈ k, map.stop p ≤ r.start) ∧
      (∀ p ∈ l, r.stop ≤ map.start p) ∧ InOrder tree.mem .left tree.root (k ++ entry :: l) ∧
      map' = { map with
        entries := update map.entries entry ⟨r.start, r.stop, r.prot, some ∅⟩
        tree, list := k ++ entry :: l } := by
  obtain ⟨map1, h1, rfl⟩ := map_eq_some_iff.1 hadd
  unfold vmMapAddEntry at h1
  split_ifs at h1 with hc
  have hend : r.stop ≤ 2 ^ 31 := hc.2.1
  have hne : ∀ b ∈ map.list, b ≠ entry := fun b hb => ne_of_mem_of_not_mem hb he
  have hcmp : ∀ b ∈ map.list, vmMapEntryCmp
      (update map.entries entry ⟨r.start, r.stop, r.prot, none⟩) entry b =
        compare r.start (map.start b) := by
    intro b hb
    rw [vmMapEntryCmp, update_self, update_of_ne (hne b hb),
      compareStarts_eq (by dsimp only; omega)]
    rfl
  have hnodup : (0 :: entry :: map.list).Nodup := by
    simp only [nodup_cons, mem_cons, not_or]
    exact ⟨⟨h0.symm, h.notNull⟩, he, h.nodup⟩
  obtain ⟨tree, k, l, hkl, rfl, hk, hl, hin⟩ := vmMapInsertEntry_place h1
    ((h.tree hr).congr fun b hb => funext fun t => if_neg (hne b hb)) hnodup
    (h.order.imp_of_mem fun {a b} ha hb hab => by
      have hp := h.proper a ha
      dsimp only [VmMap.set]
      rw [hcmp a ha, hcmp b hb, Nat.compare_eq_gt, Nat.compare_eq_lt]
      omega)
    (fun b hb => by
      have hp := h.proper b hb
      have hf := hfree b hb
      dsimp only [VmMap.set]
      rw [hcmp b hb, Ne, Nat.compare_eq_eq]
      omega)
  dsimp only [VmMap.set] at hkl hk hl
  refine ⟨tree, k, l, hkl, fun p hp => ?_, fun p hp => ?_, hin, by simp [VmMap.set]⟩
  · have hm : p ∈ map.list := by simp [hkl, hp]
    have hcut := hk p hp
    rw [hcmp p hm, Nat.compare_eq_gt] at hcut
    have := hfree p hm
    omega
  · have hm : p ∈ map.list := by simp [hkl, hp]
    have hcut := hl p hp
    rw [hcmp p hm, Nat.compare_eq_lt] at hcut
    have := hfree p hm
    have := h.proper p hm
    omega

lemma InPlace.newRegion (h : InPlace map) (hr : map.removed = false)
    (h0 : entry ≠ 0) (he : entry ∉ map.list) (hlt : r.start < r.stop)
    (hfree : ∀ p ∈ map.list, map.stop p ≤ r.start ∨ r.stop ≤ map.start p)
    (hadd : newRegion fuel map r entry = some map') :
    InPlace map' ∧ map'.list.Perm (entry :: map.list) := by
  have hend := (newRegion_spec hadd).1
  obtain ⟨tree, k, l, hkl, hk, hl, hin, rfl⟩ := h.newRegion_place hr h0 he hlt hfree hadd
  have hold : ∀ p ∈ map.list,
      update map.entries entry ⟨r.start, r.stop, r.prot, some ∅⟩ p = map.entries p :=
    fun p hp => update_of_ne (ne_of_mem_of_not_mem hp he) ..
  have hk' : ∀ p ∈ k, p ∈ map.list := fun p hp => by simp [hkl, hp]
  have hl' : ∀ p ∈ l, p ∈ map.list := fun p hp => by simp [hkl, hp]
  refine ⟨⟨?_, ?_, ?_, fun _ => hin⟩, by simp [hkl]⟩
  · simp only [start, stop]
    refine pairwise_insert (hkl ▸ h.order.imp_of_mem fun {p q} hp hq hpq => ?_) (fun p hp => ?_)
      fun q hq => ?_
    · rw [hold p hp, hold q hq]
      exact hpq
    · rw [update_self, hold p (hk' p hp)]
      exact hk p hp
    · rw [update_self, hold q (hl' q hq)]
      exact hl q hq
  · intro p hp
    simp only [start, stop]
    by_cases hpe : p = entry
    · subst hpe
      rw [update_self]
      exact ⟨hlt, hend⟩
    · have hm : p ∈ map.list := by
        simp only [mem_append, mem_cons] at hp ⊢
        tauto
      rw [hold p hm]
      exact h.proper p hm
  · have := h.notNull
    simp only [mem_append, mem_cons] at this ⊢
    tauto

end

lemma InPlace.removeEntry (h : InPlace map) (hrem : vmMapRemoveEntry map entry = some map') :
    InPlace map' ∧ map'.list = map.list.erase entry := by
  obtain ⟨obj, -, -, rfl⟩ := vmMapRemoveEntry_spec hrem
  have hold : ∀ p ∈ map.list.erase entry, update map.entries entry Entry.zero p =
      map.entries p := fun p hp => update_of_ne (h.nodup.mem_erase_iff.1 hp).1 ..
  refine ⟨⟨?_, ?_, ?_, fun hr => by cases hr⟩, rfl⟩
  · refine (h.order.sublist erase_sublist).imp_of_mem fun {p q} hp hq hpq => ?_
    simp only [start, stop, hold p hp, hold q hq]
    exact hpq
  · intro p hp
    simp only [start, stop, hold p hp]
    exact h.proper p (mem_of_mem_erase hp)
  · exact fun h0 => h.notNull (mem_of_mem_erase h0)

lemma nextOf_append (hk : entry ∉ k) : nextOf (k ++ entry :: l) entry = l.head? := by
  have hall : ∀ e ∈ k, decide (e ≠ entry) := fun e he =>
    decide_eq_true (ne_of_mem_of_not_mem he hk)
  rw [nextOf, dropWhile_append_of_pos hall]
  simp

lemma InPlace.resize_bound (h : InPlace map) (hkl : map.list = k ++ entry :: l) (hk : entry ∉ k)
    {newEnd : ℕ} (hle : newEnd = map.stop entry ∨
      newEnd ≤ (nextOf map.list entry).elim pmapEnd map.start) :
    newEnd ≤ pmapEnd ∧ ∀ q ∈ l, newEnd ≤ map.start q := by
  have ho := (pairwise_append.1 (hkl ▸ h.order)).2.1
  have hproper := hkl ▸ h.proper
  rcases hle with rfl | hle
  · exact ⟨(hproper entry (by simp)).2, (pairwise_cons.1 ho).1⟩
  rw [hkl, nextOf_append hk] at hle
  cases l with
  | nil => exact ⟨hle, by simp⟩
  | cons b l =>
    simp only [head?_cons, elim_some] at hle
    have hb := hproper b (by simp)
    refine ⟨by omega, fun q hq => ?_⟩
    rcases mem_cons.1 hq with rfl | hq
    · exact hle
    · have := (pairwise_cons.1 ho.of_cons).1 q hq
      omega

/-- The new end stays at or below the start of the next entry. -/
lemma InPlace.resize (h : InPlace map) (he : entry ∈ map.list) {newEnd : ℕ} {b : Bool}
    (hres : vmMapResize map entry newEnd = some (map', b)) :
    InPlace map' ∧ map'.list = map.list := by
  obtain ⟨-, hge, rfl | ⟨hmap, hle⟩⟩ := vmMapResize_spec hres
  · exact ⟨h, rfl⟩
  obtain ⟨k, l, hkl⟩ := append_of_mem he
  have hn : (k ++ entry :: l).Nodup := hkl ▸ h.nodup
  have hne : entry ∉ k ∧ entry ∉ l := by
    simp only [nodup_append, nodup_cons] at hn
    exact ⟨fun hm => hn.2.2 entry hm entry (by simp) rfl, hn.2.1.1⟩
  have hbound := h.resize_bound hkl hne.1 hle
  have hlist : map'.list = map.list := by rw [hmap]; rfl
  have hstart : ∀ p, map'.start p = map.start p := by
    intro p
    by_cases hp : p = entry
    · subst hp; simp [hmap, VmMap.set, VmMap.start]
    · simp [hmap, VmMap.set, VmMap.start, hp]
  have hstop : ∀ p, p ≠ entry → map'.stop p = map.stop p := fun p hp => by
    simp [hmap, VmMap.set, VmMap.stop, hp]
  have hself : map'.stop entry = newEnd := by simp [hmap, VmMap.set, VmMap.stop]
  refine ⟨⟨?_, ?_, hlist ▸ h.notNull, by rw [hmap]; exact h.tree⟩, hlist⟩
  · simp only [hstart, hlist, hkl]
    have ho := hkl ▸ h.order
    have hothers : ∀ p ∈ k ++ l, p ≠ entry := fun p hp =>
      ne_of_mem_of_not_mem hp (by simp [hne])
    refine pairwise_insert ?_ (fun p hp => ?_) fun q hq => hself.trans_le (hbound.2 q hq)
    · have hsub := (List.Sublist.refl k).append (sublist_cons_self entry l)
      exact (ho.sublist hsub).imp_of_mem fun {p q} hp _ hpq => (hstop p (hothers p hp)).trans_le hpq
    · have hpe := (pairwise_append.1 ho).2.2 p hp entry mem_cons_self
      exact (hstop p (hothers p (mem_append_left l hp))).trans_le hpe
  · intro p hp
    rw [hlist] at hp
    rw [hstart]
    by_cases hpe : p = entry
    · subst hpe
      have := (h.proper p hp).1
      omega
    · rw [hstop p hpe]
      exact h.proper p hp

lemma InPlace.inSpace (h : InPlace map) : InSpace .user (map.list.map map.extent) where
  order := pairwise_map.2 h.order
  proper := by
    intro e he
    obtain ⟨p, hp, rfl⟩ := mem_map.1 he
    exact ⟨Nat.zero_le _, h.proper p hp⟩

lemma InPlace.findspace_free (h : InPlace map) {start length addr : ℕ} (hlen : length < 2 ^ 31)
    (hwrap : start + length < 2 ^ 32) (hf : vmMapFindspace map start length = some (some addr)) :
    addr + length ≤ pmapEnd ∧ ∀ p ∈ map.list, map.stop p ≤ addr ∨ addr + length ≤ map.start p := by
  have hunwrapped : Unwrapped .user (map.list.map map.extent) start length := by
    refine ⟨fun hcarry => ?_, fun _ => .inr fun e he => ?_⟩
    · simp only [Space.start, pmapStart] at hcarry
      omega
    · have := (h.inSpace.ends e he).2
      simp only [Space.stop, pmapEnd] at this
      omega
  rw [vmMapFindspace_eq] at hf
  have hfree := findspace_sound h.inSpace (by omega) (by omega) hunwrapped hf
  refine ⟨hfree.high, fun p hp => ?_⟩
  exact (hfree.apart (map.extent p) (mem_map_of_mem hp)).symm

end

end GzOS.Vm
