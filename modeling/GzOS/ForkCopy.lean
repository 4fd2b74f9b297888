import GzOS.EntryTree
import GzOS.PageCopy

/-!
# What a clone contains

The pages of a map are read through its list. A clone of a map of disjoint, readable
and writable entries has for each resident page a resident page with the same bytes in
a new frame, and no other page. Its list is in order of the start addresses. Pages in a
fragment that the window still shows of the original are not copied: the stores go
through the words of the original, to the frame they come from.
-/
namespace GzOS.Vm
open Runs List Function Option Nat

def triple (map : VmMap) (p : ℕ) : ℕ × ℕ × Prot := (map.start p, map.stop p, (map.entries p).prot)

def covers (map : VmMap) (page p : ℕ) : Bool := decide (map.start p ≤ page ∧ page < map.stop p)

def residentIn (map : VmMap) (list : List ℕ) (page : ℕ) : Option ℕ :=
  (list.find? (covers map page)).bind fun p =>
    (map.entries p).object.bind fun obj => obj.lookup (page - map.start p)

def resident (map : VmMap) (page : ℕ) : Option ℕ := residentIn map map.list page

/-- Disjoint readable and writable entries of user space, with single frames at pages inside
the entry; the page table has only allocated frames. -/
structure Forkable (m : Machine) : Prop where
  null : 0 ∉ m.used
  allocated : ∀ p ∈ m.map.list, p ∈ m.used
  user : ∀ p ∈ m.map.list, m.map.start p < pmapEnd ∧ m.map.stop p ≤ pmapEnd
  aligned : ∀ p ∈ m.map.list, isAligned (m.map.start p) ∧ isAligned (m.map.stop p)
  disjoint : m.map.list.Pairwise fun p q => ∀ v, ¬ (covers m.map v p ∧ covers m.map v q)
  prot : ∀ p ∈ m.map.list, (m.map.entries p).prot.read ∧ (m.map.entries p).prot.write
  objects : ∀ p ∈ m.map.list, ∃ obj, (m.map.entries p).object = some obj ∧
    ∀ offset frame, obj.lookup offset = some frame → isAligned offset ∧
      m.map.start p + offset + pageSize ≤ m.map.stop p ∧ frame ∈ m.map.frames
  words : ∀ i, (m.map.pmap.pte i).valid → (m.map.pmap.pte i).pfn ∈ m.map.frames

def Copied (m c : Machine) : Option ℕ → Option ℕ → Prop
  | none, none => True
  | some f, some g =>
    g ∉ m.map.frames ∧ g ∈ c.map.frames ∧ ∀ j < pageSize, c.memory g j = m.memory f j
  | _, _ => False

/-- The clone has the same list and the same pages in other frames, mapped where they are
resident; the original is as it was, also the words of its fragments that are shown. -/
structure Forked (m : Machine) (shown : ℕ → Bool) (c : Machine) : Prop where
  list : c.map.list.map (triple c.map) = m.map.list.map (triple m.map)
  pages : ∀ page, isAligned page → Copied m c (resident m.map page) (resident c.map page)
  mapped : ∀ page, isAligned page → translate c.map.pmap page = resident c.map page
  entries : ∀ p ∈ m.used, c.map.entries p = m.map.entries p
  links : ∀ p ∈ m.used, c.map.tree.mem p = m.map.tree.mem p
  memory : ∀ f ∈ m.map.frames, c.memory f = m.memory f
  words : ∀ i, shown (i / 1024) → c.map.pmap.pte i = m.map.pmap.pte i

/-- `src` are the pages copied so far. -/
structure Copying (m : Machine) (shown : ℕ → Bool) (src : ℕ → Option ℕ) (c : Machine) :
    Prop where
  frames : m.map.frames ⊆ c.map.frames
  memory : ∀ f ∈ m.map.frames, c.memory f = m.memory f
  pages : ∀ page, isAligned page → Copied m c (src page) (resident c.map page)
  mapped : ∀ page, isAligned page → translate c.map.pmap page = resident c.map page
  window : c.shown = shown
  words : ∀ i, shown (i / 1024) → c.map.pmap.pte i = m.map.pmap.pte i

variable {obj : VmObject} {start : ℕ}

section
variable {a : Allocators} {fuel : ℕ} {m c c' : Machine} {src : ℕ → Option ℕ} {shown : ℕ → Bool}

lemma Copied.mono {s r : Option ℕ} (h : Copied m c s r) (hframes : c.map.frames ⊆ c'.map.frames)
    (hmemory : ∀ f ∈ c.map.frames, c'.memory f = c.memory f) : Copied m c' s r := by
  match s, r, h with
  | none, none, _ => trivial
  | some f, some g, ⟨hnew, hg, hbytes⟩ =>
    refine ⟨hnew, hframes hg, fun j hj => ?_⟩
    rw [hmemory g hg]
    exact hbytes j hj

lemma vmMapFindEntry_eq (map : VmMap) (page : ℕ) :
    vmMapFindEntry map page = map.list.find? (covers map page) := rfl

lemma resident_eq (map : VmMap) (page : ℕ) :
    resident map page = (vmMapFindEntry map page).bind fun p =>
      (map.entries p).object.bind fun obj => obj.lookup (page - map.start p) := rfl

variable {map : VmMap} {p dst : ℕ} {done : List ℕ}

lemma covered_of_find {page : ℕ} (h : vmMapFindEntry map page = some p) :
    map.start p ≤ page ∧ page < map.stop p := by
  simpa using find?_some h

/-! ## One page -/

/-- The fault makes one page resident and leaves the others. -/
lemma Faulted.resident {entry : ℕ} (hv : Vacant c dst entry obj)
    (h : Faulted a c dst entry obj map) (page : ℕ) :
    resident map page = if page = dst then some (a.pmAlloc c.map.frames)
      else resident c.map page := by
  have hentry : map.entries entry =
      (c.map.entries entry).gain obj (dst - c.map.start entry) (a.pmAlloc c.map.frames) := by
    rw [h.entries, update_self]
  have hother : ∀ p, p ≠ entry → map.entries p = c.map.entries p := fun p hp => by
    rw [h.entries, update_of_ne hp]
  have hbounds : ∀ p, map.start p = c.map.start p ∧ map.stop p = c.map.stop p := by
    intro p
    by_cases hp : p = entry
    · subst hp
      rw [VmMap.start, VmMap.stop, hentry]
      exact ⟨rfl, rfl⟩
    · rw [VmMap.start, VmMap.stop, hother p hp]
      exact ⟨rfl, rfl⟩
  have hfind : vmMapFindEntry map page = vmMapFindEntry c.map page := by
    simp only [vmMapFindEntry, hbounds, h.list]
  rw [resident_eq, resident_eq, hfind]
  cases hf : vmMapFindEntry c.map page with
  | none =>
    have hne : page ≠ dst := fun he => by simp [he, hv.found] at hf
    rw [if_neg hne]
    rfl
  | some p =>
    rw [bind_some, bind_some, (hbounds p).1]
    by_cases hp : p = entry
    · subst hp
      have hpage : c.map.start p ≤ page := (covered_of_find hf).1
      have hdst : c.map.start p ≤ dst := (covered_of_find hv.found).1
      have hobj : (map.entries p).object =
          some (obj.insert (dst - c.map.start p) (a.pmAlloc c.map.frames)) := by
        rw [hentry]
        rfl
      rw [hobj, hv.object]
      by_cases he : page = dst
      · rw [if_pos he, he]
        exact AList.lookup_insert obj
      · rw [if_neg he]
        exact AList.lookup_insert_ne (by omega)
    · have hne : page ≠ dst := fun he => hp (by
        rw [he, hv.found] at hf
        exact (some.inj hf).symm)
      rw [if_neg hne, hother p hp]

/-- One page: the store faults, and the frame it gets is filled. -/
lemma Copying.page (h : Copying m shown src c) {entry frame : ℕ} (hv : Vacant c dst entry obj)
    (hframe : frame ∈ m.map.frames) :
    ∃ c', c.copyBytes a dst frame pageSize = some c' ∧
      Copying m shown (update src dst (some frame)) c' ∧ c'.map.entries entry =
        (c.map.entries entry).gain obj (dst - c.map.start entry) (a.pmAlloc c.map.frames) := by
  have hlast : (4095 : ℕ) < pageSize := by decide
  obtain ⟨map, hmap, hcopy⟩ := hv.copyBytes (a := a) (h.frames hframe) hlast
  have hnew : ∀ f ∈ c.map.frames, f ≠ a.pmAlloc c.map.frames := fun f hf =>
    ne_of_mem_of_not_mem hf (a.pmAlloc_notMem c.map.frames)
  have hsub : c.map.frames ⊆ map.frames := (Finset.subset_insert _ _).trans hmap.frames
  refine ⟨_, hcopy, ⟨h.frames.trans hsub, fun f hf => ?_, fun page hp => ?_, fun page hp => ?_,
    h.window, fun i hi => ?_⟩, ?_⟩
  · rw [Machine.put_memory, update_of_ne (hnew f (h.frames hf)), h.memory f hf]
  · rw [Machine.put_map, hmap.resident hv]
    by_cases he : page = dst
    · rw [if_pos he, he, update_self]
      refine ⟨fun hf => hnew _ (h.frames hf) rfl, ?_, fun j hj => ?_⟩
      · exact hmap.frames (Finset.mem_insert_self _ _)
      · rw [Machine.put_memory, update_self, ← h.memory frame hframe]
        exact if_pos hj
    · rw [if_neg he, update_of_ne he]
      refine (h.pages page hp).mono hsub fun f hf => ?_
      rw [Machine.put_memory, update_of_ne (hnew f hf)]
  · have hindex : pteIndex page = pteIndex dst ↔ page = dst := by
      have h1 : page % pageSize = 0 := isAligned_mod.1 hp
      have h2 : dst % pageSize = 0 := isAligned_mod.1 hv.aligned
      unfold pteIndex
      constructor
      · intro he
        rw [← div_add_mod page pageSize, ← div_add_mod dst pageSize, he, h1, h2]
      · rintro rfl
        rfl
    rw [Machine.put_map, hmap.translate, hmap.resident hv]
    simp only [hindex, h.mapped page hp]
  · have hout : i / 1024 ≠ pdeIndex dst := fun he => by
      have hunshown := hv.unshown
      rw [h.window, ← he, hi] at hunshown
      cases hunshown
    rw [Machine.put_map, hmap.words i hout, h.words i hi]
  · rw [Machine.put_map, hmap.entries, update_self]

/-! ## One entry -/

lemma Copying.added (h : Copying m shown src c) {stop : ℕ} {prot : Prot} (hs : Sound c)
    (hadd : Added a c c' start stop prot) (hlist : c'.map.list = c.map.list ++ [a.kmalloc c.used]) :
    Copying m shown src c' := by
  obtain ⟨hpmap, hframes, hmemory, hshown⟩ := hadd.rest
  have hold : ∀ p ∈ c.map.list, c'.map.entries p = c.map.entries p := fun p hp =>
    hadd.others p (ne_of_mem_of_not_mem hp hs.fresh)
  have hresident : ∀ page, resident c'.map page = resident c.map page := by
    intro page
    have hfind : c.map.list.find? (covers c'.map page) = c.map.list.find? (covers c.map page) :=
      find?_congr fun p hp => by rw [covers, VmMap.start, VmMap.stop, hold p hp]; rfl
    rw [resident, residentIn, hlist, find?_append, hfind, resident, residentIn]
    cases hf : c.map.list.find? (covers c.map page) with
    | some p =>
      have hp := hold p (mem_of_find?_eq_some hf)
      rw [some_or, bind_some, VmMap.start, hp]
      rfl
    | none =>
      rw [none_or, find?_singleton]
      split_ifs
      · rw [bind_some, hadd.entry, bind_some]
        rfl
      · rfl
  refine ⟨by rw [hframes]; exact h.frames, fun f hf => ?_, fun page hp => ?_, fun page hp => ?_,
    hshown.trans h.window, by rw [hpmap]; exact h.words⟩
  · rw [hmemory]
    exact h.memory f hf
  · rw [hresident]
    exact (h.pages page hp).mono (by rw [hframes]) fun f _ => by rw [hmemory]
  · rw [hresident, hpmap]
    exact h.mapped page hp

structure Target (c : Machine) (entry start stop : ℕ) (obj : VmObject) : Prop where
  found : ∀ v, start ≤ v → v < stop → vmMapFindEntry c.map v = some entry
  starts : c.map.start entry = start
  aligned : isAligned start
  user : stop ≤ pmapEnd
  prot : (c.map.entries entry).prot.read ∧ (c.map.entries entry).prot.write
  object : (c.map.entries entry).object = some obj

lemma Quiet.findEntry (h : Quiet c c') (v : ℕ) :
    vmMapFindEntry c'.map v = vmMapFindEntry c.map v := by
  have hcovers : ∀ p, (c'.map.start p ≤ v ∧ v < c'.map.stop p) ↔
      (c.map.start p ≤ v ∧ v < c.map.stop p) := fun p => by
    rw [(h.bounds p).1, (h.bounds p).2.1]
  simp only [vmMapFindEntry, h.list, hcovers]

def addPages (start : ℕ) (src : ℕ → Option ℕ) (pages : List (Sigma fun _ : ℕ => ℕ)) :
    ℕ → Option ℕ :=
  pages.foldl (fun src page => Function.update src (start + page.1) (some page.2)) src

/-- The pages of one region, by induction on those still to be copied. -/
lemma Target.pages {entry stop : ℕ} {pages : List (Sigma fun _ : ℕ => ℕ)}
    (ht : Target c entry start stop obj) (h : Copying m shown src c) (hnodup : pages.NodupKeys)
    (hpages : ∀ page ∈ pages, obj.lookup page.1 = none ∧ isAligned page.1 ∧
      start + page.1 + pageSize ≤ stop ∧ page.2 ∈ m.map.frames ∧
      shown (pdeIndex (start + page.1)) = false) :
    ∃ c', exec (fun c (page : Sigma fun _ : ℕ => ℕ) =>
        c.copyBytes a (u32 (start + page.1)) page.2 pageSize) c pages = some c' ∧
      Copying m shown (addPages start src pages) c' ∧ Quiet c c' := by
  induction pages generalizing c src obj with
  | nil => exact ⟨c, rfl, h, Quiet.refl c⟩
  | cons page rest ih =>
    obtain ⟨habsent, haligned, hinside, hframe, hunshown⟩ := hpages page mem_cons_self
    have hpos : 0 < pageSize := by decide
    have hfound := ht.found (start + page.1) (by omega) (by omega)
    have hoffset : start + page.1 - c.map.start entry = page.1 := by
      rw [ht.starts]
      omega
    have hu : u32 (start + page.1) = start + page.1 := by
      have hend : pmapEnd = 2 ^ 31 := rfl
      have huser := ht.user
      exact mod_eq_of_lt (by omega)
    have hunmapped : resident c.map (start + page.1) = none := by
      rw [resident_eq, hfound, bind_some, ht.object, bind_some, hoffset, habsent]
    have hdst : isAligned (start + page.1) := by
      rw [isAligned_mod, add_mod, isAligned_mod.1 ht.aligned, isAligned_mod.1 haligned, zero_mod]
    have hv : Vacant c (start + page.1) entry obj :=
      ⟨hfound, hdst, hinside.trans ht.user, ht.prot.1, ht.prot.2, ht.object,
        by rw [ht.starts]; exact ht.aligned, by rw [hoffset]; exact habsent,
        by rw [h.mapped _ hdst, hunmapped], by rw [h.window]; exact hunshown⟩
    obtain ⟨c1, hcopy, hcopying, hentry⟩ := h.page hv hframe
    have hquiet := copyBytes_quiet hcopy
    have ht1 : Target c1 entry start stop
        (obj.insert page.1 (a.pmAlloc c.map.frames)) := by
      refine ⟨fun v h1 h2 => ?_, ?_, ht.aligned, ht.user, ?_, ?_⟩
      · rw [hquiet.findEntry, ht.found v h1 h2]
      · rw [(hquiet.bounds entry).1, ht.starts]
      · rw [(hquiet.bounds entry).2.2]
        exact ht.prot
      · rw [hentry, hoffset]
        rfl
    obtain ⟨hnotin, hnodup'⟩ := nodupKeys_cons.1 hnodup
    obtain ⟨c2, hexec, hcopying2, hquiet2⟩ := ih ht1 hcopying hnodup' fun other ho => by
      have hne : other.1 ≠ page.1 := fun he =>
        hnotin (he ▸ mem_map_of_mem ho)
      obtain ⟨h1, h2⟩ := hpages other (mem_cons_of_mem _ ho)
      exact ⟨(AList.lookup_insert_ne hne).trans h1, h2⟩
    refine ⟨c2, ?_, hcopying2, hquiet.trans hquiet2⟩
    rw [exec_cons, hu, hcopy, bind_some, hexec]

lemma addPages_apply {pages : List (Sigma fun _ : ℕ => ℕ)} (hnodup : pages.NodupKeys) (page : ℕ) :
    addPages start src pages page =
      (if start ≤ page then pages.dlookup (page - start) else none).or (src page) := by
  induction pages generalizing src with
  | nil => simp [addPages]
  | cons head rest ih =>
    obtain ⟨hnotin, hnodup'⟩ := nodupKeys_cons.1 hnodup
    have hstep : addPages start src (head :: rest) =
        addPages start (update src (start + head.1) (some head.2)) rest := rfl
    rw [hstep, ih hnodup']
    by_cases hle : start ≤ page
    · rw [if_pos hle, if_pos hle]
      by_cases he : page - start = head.1
      · have hpage : page = start + head.1 := by omega
        have hnone : rest.dlookup (page - start) = none := by
          rw [dlookup_eq_none, he]
          exact hnotin
        rw [hnone, hpage, update_self, Nat.add_sub_cancel_left]
        rw [dlookup_cons_eq]
        rfl
      · have hpage : page ≠ start + head.1 := by omega
        rw [update_of_ne hpage, dlookup_cons_ne _ _ he]
    · have hpage : page ≠ start + head.1 := by omega
      rw [if_neg hle, if_neg hle, update_of_ne hpage]

lemma residentIn_concat (hf : Forkable m) {it : ℕ}
    (hsub : (done ++ [it]).Sublist m.map.list) (hobj : (m.map.entries it).object = some obj)
    (page : ℕ) : residentIn m.map (done ++ [it]) page =
      addPages (m.map.start it) (residentIn m.map done) obj.entries page := by
  have hit : it ∈ m.map.list := hsub.subset (by simp)
  obtain ⟨obj', hobj', hinside⟩ := hf.objects it hit
  obtain rfl : obj = obj' := some.inj (hobj.symm.trans hobj')
  have hapart := (pairwise_append.1 (hf.disjoint.sublist hsub)).2.2
  rw [addPages_apply obj.nodupKeys, residentIn, find?_append, residentIn]
  by_cases hcov : covers m.map page it
  · have hdone : done.find? (covers m.map page) = none := by
      rw [find?_eq_none]
      intro p hp hpc
      exact hapart p hp it (by simp) page ⟨hpc, hcov⟩
    have hle : m.map.start it ≤ page := (of_decide_eq_true hcov).1
    rw [hdone, none_or, find?_singleton, if_pos hcov, bind_some, hobj, if_pos hle, bind_none,
      or_none]
    rfl
  · have hnone : (if m.map.start it ≤ page then obj.entries.dlookup (page - m.map.start it)
        else none) = none := by
      split_ifs with hle
      · by_contra hne
        obtain ⟨frame, hframe⟩ := ne_none_iff_exists'.1 hne
        obtain ⟨-, hbound, -⟩ := hinside (page - m.map.start it) frame hframe
        have hpos : 0 < pageSize := by decide
        exact hcov (decide_eq_true ⟨hle, by omega⟩)
      · rfl
    rw [hnone, none_or, find?_singleton, if_neg hcov, or_none]

/-! ## The whole map -/

structure Cloning (m : Machine) (shown : ℕ → Bool) (done : List ℕ) (c : Machine) : Prop where
  sound : Sound c
  apart : Apart m c
  list : c.map.list.map (triple c.map) = done.map (triple m.map)
  copying : Copying m shown (residentIn m.map done) c

lemma newEntry_ok (h : Sound c) {stop : ℕ} (prot : Prot) (hs : start < pmapEnd)
    (hstop : stop ≤ pmapEnd) (ha : isAligned start ∧ isAligned stop)
    (hmax : ∀ p ∈ c.map.list, c.map.start p < start) (hfuel : c.map.list.length < fuel) :
    ∃ c', c.newEntry a fuel start stop prot = some c' ∧ Added a c c' start stop prot ∧
      c'.map.list = c.map.list ++ [a.kmalloc c.used] := by
  have hfresh : a.kmalloc c.used ∉ c.map.list := h.fresh
  obtain ⟨map, hmap⟩ := vmMapInsertEntry_ok (h.blank_inOrder hfresh start stop prot)
    h.blank_nodup (h.blank_grows hs hfresh stop prot) (fun p hp => by
      rw [cmp_blank hs hfresh stop prot hp, Ne, Nat.compare_eq_eq]
      exact (hmax p hp).ne') hfuel
  have hadd : vmMapAddEntry fuel c.map (a.kmalloc c.used) start stop prot = some map := by
    rw [vmMapAddEntry, if_pos ⟨Nat.zero_le _, hstop, ha⟩]
    exact hmap
  have hnew : ∃ c', c.newEntry a fuel start stop prot = some c' := by
    rw [Machine.newEntry, hadd]
    exact ⟨_, rfl⟩
  obtain ⟨c', hc'⟩ := hnew
  have hadded := h.newEntry_added hs hc'
  refine ⟨c', hc', hadded, ?_⟩
  rcases hadded.placed with ⟨-, k, l, hkl, hlist, -, hl⟩ | ⟨-, -, p, hp, heq⟩
  · cases l with
    | nil =>
      rw [append_nil] at hkl
      rw [hlist, hkl]
    | cons q l =>
      have hq : q ∈ c.map.list := by simp [hkl]
      exact absurd (hl q mem_cons_self) (by have := hmax q hq; omega)
  · exact absurd (hmax p hp) (by omega)

lemma Cloning.exists_triple (h : Cloning m shown done c)
    (hp : p ∈ c.map.list) : ∃ q ∈ done, triple m.map q = triple c.map p := by
  have hmem := h.list ▸ mem_map_of_mem hp
  simpa using hmem

section Added

variable {done : List ℕ} {it : ℕ} {c1 : Machine}
  (hadd : Added a c c1 (m.map.start it) (m.map.stop it) (m.map.entries it).prot)
  (hlist1 : c1.map.list = c.map.list ++ [a.kmalloc c.used])

include hadd hlist1

lemma Cloning.triples_added (h : Cloning m shown done c) :
    c1.map.list.map (triple c1.map) = (done ++ [it]).map (triple m.map) := by
  rw [hlist1, map_append, map_append, ← h.list]
  congr 1
  · refine map_congr_left fun p hp => ?_
    have hold := hadd.others p (ne_of_mem_of_not_mem hp h.sound.fresh)
    simp only [triple, VmMap.start, VmMap.stop, hold]
  · simp [triple, VmMap.start, VmMap.stop, hadd.entry]

lemma Cloning.target (hf : Forkable m) (hit : it ∈ m.map.list) (h : Cloning m shown done c)
    (hapart : ∀ q ∈ done, ∀ v, ¬ (covers m.map v q ∧ covers m.map v it)) :
    Target c1 (a.kmalloc c.used) (m.map.start it) (m.map.stop it) ∅ := by
  refine ⟨fun v hv1 hv2 => ?_, by rw [VmMap.start, hadd.entry], (hf.aligned it hit).1,
    (hf.user it hit).2, by rw [hadd.entry]; exact hf.prot it hit, by rw [hadd.entry]⟩
  have hnone : c.map.list.find? (covers c1.map v) = none := by
    rw [find?_eq_none]
    intro p hp hpc
    obtain ⟨q, hq, heq⟩ := h.exists_triple hp
    refine hapart q hq v ⟨?_, decide_eq_true ⟨hv1, hv2⟩⟩
    have hstart : m.map.start q = c.map.start p := congrArg Prod.fst heq
    have hstop : m.map.stop q = c.map.stop p := congrArg (fun t => t.2.1) heq
    have hold := hadd.others p (ne_of_mem_of_not_mem hp h.sound.fresh)
    rw [covers, VmMap.start, VmMap.stop, hold] at hpc
    rw [covers, hstart, hstop]
    exact hpc
  have hcovers : covers c1.map v (a.kmalloc c.used) := by
    rw [covers, VmMap.start, VmMap.stop, hadd.entry]
    exact decide_eq_true ⟨hv1, hv2⟩
  rw [vmMapFindEntry_eq, hlist1, find?_append, hnone, none_or, find?_singleton, if_pos hcovers]

end Added

lemma Forkable.resident_eq (hf : Forkable m) {it offset frame : ℕ} (hit : it ∈ m.map.list)
    (hobj : (m.map.entries it).object = some obj) (hframe : obj.lookup offset = some frame) :
    resident m.map (m.map.start it + offset) = some frame := by
  obtain ⟨obj', hobj', hinside⟩ := hf.objects it hit
  obtain rfl : obj = obj' := some.inj (hobj.symm.trans hobj')
  obtain ⟨-, hbound, -⟩ := hinside offset frame hframe
  have hpos : 0 < pageSize := by decide
  have hcov : covers m.map (m.map.start it + offset) it := decide_eq_true ⟨by omega, by omega⟩
  obtain ⟨before, behind, hlist⟩ := append_of_mem hit
  have hapart := (pairwise_append.1 (hlist ▸ hf.disjoint)).2.2
  have hnone : before.find? (covers m.map (m.map.start it + offset)) = none :=
    find?_eq_none.2 fun p hp hpc => hapart p hp it mem_cons_self _ ⟨hpc, hcov⟩
  rw [resident, residentIn, hlist, find?_append, hnone, none_or, find?_cons_of_pos hcov, bind_some,
    hobj, bind_some, Nat.add_sub_cancel_left, hframe]

/-- No resident page lies in a fragment that is shown. -/
def Unshown (m : Machine) (shown : ℕ → Bool) : Prop :=
  ∀ page, isAligned page → (resident m.map page).isSome → shown (pdeIndex page) = false

/-- The word of the original would have to hold the frame of the clone. -/
lemma Forked.unshown (hf : Forkable m) (h : Forked m shown c) : Unshown m shown := by
  intro page ha hsome
  obtain ⟨f, hf'⟩ := isSome_iff_exists.1 hsome
  by_contra hshown
  have hpages := h.pages page ha
  have hmapped := h.mapped page ha
  rw [hf'] at hpages
  cases hg : resident c.map page with
  | none =>
    rw [hg] at hpages
    exact hpages
  | some g =>
    rw [hg] at hpages hmapped
    have hword := h.words (pteIndex page) (by rw [← pdeIndex_eq]; simpa using hshown)
    unfold translate at hmapped
    split_ifs at hmapped with hm
    have hvalid := (Bool.and_eq_true_iff.1 hm).2
    rw [hword] at hvalid hmapped
    exact hpages.1 (some.inj hmapped ▸ hf.words _ hvalid)

variable {done rest : List ℕ}

/-- One round of the loop over the entries: the next region with all its pages. -/
lemma Cloning.entry (hf : Forkable m) {it : ℕ} (hlist : m.map.list = done ++ it :: rest)
    (hsorted : m.map.list.Pairwise fun p q => m.map.start p < m.map.start q)
    (hunshown : Unshown m shown) (hfuel : m.map.list.length < fuel)
    (h : Cloning m shown done c) :
    ∃ c', c.cloneEntry a fuel it = some c' ∧ Cloning m shown (done ++ [it]) c' := by
  have hit : it ∈ m.map.list := by simp [hlist]
  have hsub : (done ++ [it]).Sublist m.map.list := by
    rw [hlist]
    exact (List.Sublist.refl done).append (List.Sublist.cons_cons it (nil_sublist rest))
  have hbefore : ∀ q ∈ done, m.map.start q < m.map.start it := fun q hq =>
    (pairwise_append.1 (hlist ▸ hsorted)).2.2 q hq it mem_cons_self
  have hapart : ∀ q ∈ done, ∀ v, ¬ (covers m.map v q ∧ covers m.map v it) := fun q hq =>
    (pairwise_append.1 (hf.disjoint.sublist hsub)).2.2 q hq it mem_cons_self
  have hentry := h.apart.entries it (hf.allocated it hit)
  obtain ⟨obj, hobj, hinside⟩ := hf.objects it hit
  have hlength : c.map.list.length = done.length := by
    simpa using congrArg length h.list
  have hshort : c.map.list.length < m.map.list.length := by
    rw [hlist, length_append, length_cons]
    omega
  -- the new entry goes to the end of the list
  obtain ⟨c1, hnew, hadd, hlist1⟩ := newEntry_ok (a := a) h.sound
    (m.map.entries it).prot (hf.user it hit).1 (hf.user it hit).2 (hf.aligned it hit)
    (fun p hp => by
      obtain ⟨q, hq, heq⟩ := h.exists_triple hp
      have hstart : m.map.start q = c.map.start p := congrArg Prod.fst heq
      rw [← hstart]
      exact hbefore q hq)
    (hshort.trans hfuel)
  have hsound1 := hadd.sound h.sound (hf.user it hit).1
  have hcopying1 := h.copying.added h.sound hadd hlist1
  have htriples := h.triples_added hadd hlist1
  have htarget := h.target hadd hlist1 hf hit hapart
  obtain ⟨c2, hpages, hcopying2, hquiet⟩ := htarget.pages hcopying1 obj.nodupKeys
    fun page hp => by
      have hlookup := mem_dlookup obj.nodupKeys hp
      obtain ⟨h1, h2, h3⟩ := hinside page.1 page.2 hlookup
      have hdst : isAligned (m.map.start it + page.1) := by
        rw [isAligned_mod, add_mod, isAligned_mod.1 (hf.aligned it hit).1, isAligned_mod.1 h1,
          zero_mod]
      refine ⟨rfl, h1, h2, h3, hunshown _ hdst ?_⟩
      rw [hf.resident_eq hit hobj hlookup]
      rfl
  refine ⟨c2, ?_, ⟨hquiet.sound hsound1, hquiet.apart (hadd.apart h.sound h.apart), ?_, ?_⟩⟩
  · unfold Machine.cloneEntry
    rw [hentry]
    change (c.newEntry a fuel (m.map.start it) (m.map.stop it) _).bind _ = _
    rw [hnew, hobj]
    exact hpages
  · rw [← htriples, hquiet.list]
    refine map_congr_left fun p _ => ?_
    obtain ⟨h1, h2, h3⟩ := hquiet.bounds p
    rw [triple, triple, h1, h2, h3]
  · have hsrc := funext fun page => residentIn_concat hf hsub hobj page
    rw [hsrc]
    exact hcopying2

lemma Cloning.entries (hf : Forkable m) (hlist : m.map.list = done ++ rest)
    (hsorted : m.map.list.Pairwise fun p q => m.map.start p < m.map.start q)
    (hunshown : Unshown m shown) (hfuel : m.map.list.length < fuel)
    (h : Cloning m shown done c) :
    ∃ c', exec (Machine.cloneEntry a fuel) c rest = some c' ∧ Cloning m shown m.map.list c' := by
  induction rest generalizing done c with
  | nil =>
    rw [append_nil] at hlist
    exact ⟨c, rfl, hlist ▸ h⟩
  | cons it rest ih =>
    obtain ⟨c1, hc1, h1⟩ := Cloning.entry hf hlist hsorted hunshown hfuel h
    obtain ⟨c2, hc2, h2⟩ := ih (by simpa using hlist) h1
    exact ⟨c2, exec_cons_some.2 ⟨c1, hc1, hc2⟩, h2⟩

end

end GzOS.Vm
