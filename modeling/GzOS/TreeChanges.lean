import GzOS.FileCreation

/-!
# What creating and mounting change for other paths

A lookup passes over a segment before the last that names no child directory. So a new node,
and a node in a file system that was just mounted, is found under paths that do not denote it.
-/
namespace GzOS.Vfs
open Paths List Option View

lemma exists_fresh (names : List Segment) : ∃ name, Nameable name ∧ name ∉ names := by
  obtain ⟨n, hn⟩ := Infinite.exists_notMem_finset (insert 0 (names.map length).toFinset)
  simp only [Finset.mem_insert, List.mem_toFinset, List.mem_map, not_or, not_exists, not_and] at hn
  have hmem (c : Char) (hc : c ∈ replicate n 'a') : c = 'a' := eq_of_mem_replicate hc
  obtain ⟨k, rfl⟩ := Nat.exists_eq_succ_of_ne_zero hn.1
  refine ⟨replicate (k + 1) 'a', ⟨⟨by simp, ?_, ?_⟩, fun hs => ?_⟩, fun hin => ?_⟩
  · intro he
    exact absurd (hmem '.' (by rw [he]; decide)) (by decide)
  · intro he
    exact absurd (hmem '.' (by rw [he]; decide)) (by decide)
  · exact absurd (hmem _ hs) (by decide)
  · exact hn.2 _ hin (by simp)

namespace View

variable {ν : Type*} (view : View ν)

lemma lookup_segments (root cwd : ν) (path : List Char) :
    view.lookup root cwd path = if segmentsOf path = [] then some (start root cwd path)
      else view.lookupLoop false (start root cwd path) (segmentsOf path) := by
  unfold lookup lookupFrom start segmentsOf
  generalize sanitize (trim path) = sanitized
  by_cases hnil : sanitized = []
  · simp [hnil, split, getlines, trailingSlash]
  rw [if_neg hnil]
  cases hs : split sanitized with
  | nil =>
    rw [split_eq_splitOn hnil] at hs
    exact absurd hs (splitOn_ne_nil _ _)
  | cons first rest =>
    by_cases hfirst : first = []
    · have hrest : rest ≠ [] := fun hr => by
        rw [split_eq_splitOn hnil, hfirst, hr] at hs
        have hjoin : [separator].intercalate (sanitized.splitOn separator) = sanitized :=
          intercalate_splitOn separator
        rw [hs] at hjoin
        exact hnil (by simpa using hjoin.symm)
      simp [hfirst, hrest, lookupLoop]
    · simp [hfirst, lookupLoop]

/-- The segments of a lookup that finds another node than the one it starts from. -/
lemma lookup_canonical {root cwd found : ν} {path : List Char}
    (h : view.lookup root cwd path = some found) (hstart : found ≠ start root cwd path)
    (hname : view.segment found ≠ []) :
    ∃ init last, Canonical (!isAbsolute path) (init ++ [last]) ∧
      sanitize (trim path) = text (!isAbsolute path) (init ++ [last]) ∧
      ∃ d, view.walk (start root cwd path) init = some d ∧ view.arrive d last = some found := by
  rw [lookup_segments] at h
  rcases segmentsOf_cases path with hs | ⟨hs, -⟩ | ⟨hs, hcanon, htext⟩
  · rw [if_pos hs] at h
    exact absurd (some.inj h).symm hstart
  · rw [if_neg (by simp [hs]), hs, lookupLoop_singleton] at h
    exact absurd (view.segment_of_arrive h) hname
  · rw [if_neg hs] at h
    obtain ⟨init, last, he⟩ := (eq_nil_or_concat' (segmentsOf path)).resolve_left hs
    rw [he] at hcanon htext h
    rw [lookupLoop_concat, bind_eq_some_iff] at h
    exact ⟨init, last, hcanon, htext, h⟩

lemma walk_directory {node d : ν} {segments : List Segment}
    (h : view.walk node segments = some d) : d = node ∨ view.type d = .directory := by
  induction segments using reverseRecOn with
  | nil => exact .inl (some.inj h).symm
  | append_singleton init last _ =>
    rw [walk_append, bind_eq_some_iff] at h
    obtain ⟨e, -, he⟩ := h
    rw [walk] at he
    split_ifs at he with hdir
    right
    rw [← some.inj he, advance]
    cases hf : (view.children e).find? (fun c =>
        decide (view.segment c = last ∧ view.type c = .directory)) with
    | none => exact hdir
    | some c =>
      have hc : view.segment c = last ∧ view.type c = .directory := by
        simpa using find?_some hf
      exact hc.2

lemma resolve_bind (node : ν) (init rest : List Segment) :
    view.resolve node (init ++ rest) =
      (view.resolve node init).bind fun d => view.resolve d rest := by
  induction init generalizing node with
  | nil => rfl
  | cons segment init ih =>
    simp only [cons_append, resolve]
    split_ifs
    · simp only [bind_assoc, ih]
    · rfl

/-- The names below a node, if there is one. -/
def namesBelow (node : Option ν) : List Segment :=
  node.toList.flatMap fun d => (view.children d).map view.segment

@[simp] lemma namesBelow_some (node : ν) :
    view.namesBelow (some node) = (view.children node).map view.segment := by
  simp [namesBelow]

variable {view} {node root cwd target : ν} {name : Segment} {init rest : List Segment}

lemma find?_of_fresh {p : ν → Bool} (hname : name ∉ view.namesBelow (some node))
    (hp : ∀ c, p c → view.segment c = name) : (view.children node).find? p = none := by
  rw [find?_eq_none]
  intro c hc hseg
  rw [namesBelow_some] at hname
  exact hname (mem_map.2 ⟨c, hc, hp c hseg⟩)

lemma advance_of_fresh (hname : name ∉ view.namesBelow (some node)) :
    view.advance node name = node := by
  rw [advance, find?_of_fresh hname fun c hc => (of_decide_eq_true hc).1, getD_none]

/-- A name that no child has ends plain resolution. -/
lemma resolve_of_fresh (hname : name ∉ view.namesBelow (view.resolve node init)) :
    view.resolve node (init ++ name :: rest) = none := by
  rw [resolve_bind]
  cases hr : view.resolve node init with
  | none => rfl
  | some d =>
    rw [hr] at hname
    have hno : view.child d name = none := find?_of_fresh hname fun c hc => of_decide_eq_true hc
    simp [resolve, hno]

/-- A lookup passes over it. -/
lemma lookup_of_fresh {relative : Bool} (h : Canonical relative (init ++ name :: rest))
    (hrest : rest ≠ [])
    (hname : name ∉ view.namesBelow (view.walk (if relative then cwd else root) init)) :
    view.lookup root cwd (text relative (init ++ name :: rest)) =
      (view.walk (if relative then cwd else root) init).bind fun d =>
        if view.type d = .directory then view.lookupLoop false d rest else none := by
  obtain ⟨front, last, rfl⟩ := (eq_nil_or_concat' rest).resolve_left hrest
  have hassoc : init ++ name :: (front ++ [last]) = init ++ name :: front ++ [last] := by simp
  rw [view.lookup_text _ _ h (by simp), hassoc, lookupLoop_concat, walk_append]
  cases hwalk : view.walk (if relative then cwd else root) init with
  | none => rfl
  | some d =>
    rw [hwalk] at hname
    rw [bind_some, bind_some, lookupLoop_concat, walk, advance_of_fresh hname]
    split_ifs <;> rfl

lemma start_text (root cwd : ν) {relative : Bool} {segments : List Segment}
    (h : Canonical relative segments) (hne : segments ≠ []) :
    start root cwd (text relative segments) = if relative then cwd else root := by
  rw [start, isAbsolute_text h hne]
  cases relative <;> rfl

end View

/-! ## A node that changes -/

namespace View

variable {ν : Type*} {view view' : View ν} {target node e : ν} {names init : List Segment}
  {name : Segment}

/-- The names on a way from a node to the target, which it comes to at its end only. -/
inductive Way (view : View ν) (target : ν) : ν → List Segment → Prop
  | last {node : ν} (hne : node ≠ target) (hdir : view.type node = .directory)
    (hname : Nameable (view.segment target))
    (hto : view.advance node (view.segment target) = target) :
    Way view target node [view.segment target]
  | step {node : ν} {name : Segment} {names : List Segment} (hne : node ≠ target)
    (hdir : view.type node = .directory) (hname : Nameable name)
    (h : Way view target (view.advance node name) names) : Way view target node (name :: names)

lemma segment_advance (h : view.advance node name ≠ node) :
    view.segment (view.advance node name) = name := by
  unfold advance at h ⊢
  cases hf : (view.children node).find? (fun c =>
      decide (view.segment c = name ∧ view.type c = .directory)) with
  | none =>
    rw [hf] at h
    exact absurd rfl h
  | some c =>
    have hc : view.segment c = name ∧ view.type c = .directory := by simpa using find?_some hf
    exact hc.1

variable (view view' target) in
/-- The two views differ in nothing but the children of the target. -/
structure Differs : Prop where
  type : view'.type = view.type
  segment : view'.segment = view.segment
  children : ∀ node, node ≠ target → view'.children node = view.children node

variable {rest : List Segment}

lemma Way.nameable (h : Way view target node names) : ∀ s ∈ names, Nameable s := by
  induction h with
  | last _ _ hname _ => simpa using hname
  | step _ _ hname _ ih => exact forall_mem_cons.2 ⟨hname, ih⟩

lemma Way.own (h : Way view target node names) : Nameable (view.segment target) := by
  induction h with
  | last _ _ hname _ => exact hname
  | step _ _ _ _ ih => exact ih

lemma Way.start (h : Way view target node names) :
    node ≠ target ∧ view.type node = .directory := by
  cases h with
  | last hne hdir _ _ => exact ⟨hne, hdir⟩
  | step hne hdir _ _ => exact ⟨hne, hdir⟩

lemma Way.loop (h : Way view target node names) (hd : Differs view view' target)
    (hrest : rest ≠ []) :
    view'.lookupLoop false node (names ++ rest) = view'.lookupLoop false target rest := by
  have hadvance : ∀ n s, n ≠ target → view'.advance n s = view.advance n s := fun n s hn => by
    simp only [advance, hd.type, hd.segment, hd.children n hn]
  induction h with
  | last hne hdir _ hto =>
    rw [singleton_append, lookupLoop_cons _ _ _ hrest, hd.type, if_pos hdir, hadvance _ _ hne, hto]
  | step hne hdir _ _ ih =>
    rw [cons_append, lookupLoop_cons _ _ _ (by simp [hrest]), hd.type, if_pos hdir,
      hadvance _ _ hne, ih]

variable (view target) in
/-- Plain resolution of the path leads through the target. -/
def Through (node : ν) (segments : List Segment) : Prop :=
  ∃ init rest, rest ≠ [] ∧ segments = init ++ rest ∧ view.resolve node init = some target

/-- A path that does not lead through the target goes on behind it: a name that nobody has,
put before the way, is passed over. -/
lemma Way.exists_detour {root : ν} (h : Way view target root names) (cwd : ν) (hrest : rest ≠ [])
    (hnames : ∀ s ∈ rest, Nameable s) :
    ∃ p init, segmentsOf p = init ++ rest ∧
      ¬ view.Through target (View.start root cwd p) (segmentsOf p) ∧
      ∀ v, Differs view v target → v.lookup root cwd p = v.lookupLoop false target rest := by
  obtain ⟨hne, hdir⟩ := h.start
  obtain ⟨q, hq, hfresh⟩ := exists_fresh (view.namesBelow (some root))
  have hcanon : Canonical false (q :: (names ++ rest)) := by
    refine canonical_of_nameable false (forall_mem_cons.2 ⟨hq, fun s hs => ?_⟩)
    exact (mem_append.1 hs).elim (h.nameable s) (hnames s)
  refine ⟨text false (q :: (names ++ rest)), q :: names, segmentsOf_text hcanon (by simp), ?_,
    fun v hv => ?_⟩
  · rw [segmentsOf_text hcanon (by simp), start_text _ _ hcanon (by simp)]
    rintro ⟨init, tail, -, heq, hres⟩
    cases init with
    | nil => exact hne (some.inj hres)
    | cons s init =>
      obtain ⟨rfl, -⟩ := cons.inj heq
      have hnone : view.resolve _ ([] ++ q :: init) = none := resolve_of_fresh hfresh
      exact absurd (hres.symm.trans hnone) (by simp)
  · have hskip : v.advance root q = root := advance_of_fresh (by
      rwa [namesBelow_some, hv.segment, hv.children _ hne, ← namesBelow_some])
    rw [v.lookup_text _ _ hcanon (by simp), if_neg Bool.false_ne_true,
      lookupLoop_cons _ _ _ (by simp [hrest]), hv.type, if_pos hdir, hskip, h.loop hv hrest]

variable (view target) in
/-- No path can ask for the node below the target: it has the target's own name, which a
lookup takes for the target, and is no directory. -/
def Hidden (c : ν) : Prop :=
  Nameable (view.segment c) → view.segment c = view.segment target ∧ view.type c ≠ .directory

lemma Differs.hidden_iff (hd : Differs view view' target) (c : ν) :
    view'.Hidden target c ↔ view.Hidden target c := by
  unfold Hidden
  rw [hd.segment, hd.type]

lemma hidden_of_eq (hadvance : view.advance target (view.segment target) =
      view'.advance target (view.segment target))
    (hchild : ∀ s, Nameable s → s ≠ view.segment target →
      view.child target s = view'.child target s)
    (hapart : ∀ c ∈ view.children target, c ∉ view'.children target)
    (hself : target ∉ view.children target) (c : ν) (hc : c ∈ view.children target) :
    view.Hidden target c := by
  intro hname
  by_cases hown : view.segment c = view.segment target
  · refine ⟨hown, fun hdir => ?_⟩
    unfold advance at hadvance
    cases hf : (view.children target).find? (fun c =>
        decide (view.segment c = view.segment target ∧ view.type c = .directory)) with
    | none => exact find?_eq_none.1 hf c hc (decide_eq_true ⟨hown, hdir⟩)
    | some x =>
      have hx := mem_of_find?_eq_some hf
      rw [hf, getD_some] at hadvance
      cases hf' : (view'.children target).find? (fun c =>
          decide (view'.segment c = view.segment target ∧ view'.type c = .directory)) with
      | none =>
        rw [hf', getD_none] at hadvance
        exact hself (hadvance ▸ hx)
      | some y =>
        rw [hf', getD_some] at hadvance
        exact hapart x hx (hadvance ▸ mem_of_find?_eq_some hf')
  · exfalso
    have hsame := hchild _ hname hown
    cases hf : view.child target (view.segment c) with
    | none => exact find?_eq_none.1 hf c hc (by simp)
    | some x =>
      rw [hf] at hsame
      exact hapart x (mem_of_child hf).1 (mem_of_child hsame.symm).1

/-- What the answers below the target say of its children. -/
lemma Differs.hidden (hd : Differs view view' target) (hdir : view.type target = .directory)
    (hown : Nameable (view.segment target))
    (hloop : ∀ rest, rest ≠ [] → (∀ s ∈ rest, Nameable s) →
      view'.lookupLoop false target rest = view.lookupLoop false target rest)
    (hapart : ∀ c ∈ view.children target, c ∉ view'.children target)
    (hself : target ∉ view.children target) (hself' : target ∉ view'.children target) :
    (∀ c ∈ view.children target, view.Hidden target c) ∧
      ∀ c ∈ view'.children target, view'.Hidden target c := by
  have hagain (v : View ν) (hv : v.segment = view.segment) :
      v.arrive (v.advance target (view.segment target)) (view.segment target) =
        some (v.advance target (view.segment target)) := by
    refine if_pos ?_
    by_cases hskip : v.advance target (view.segment target) = target
    · rw [hskip, hv]
    · exact (segment_advance hskip).symm
  have hadvance : view.advance target (view.segment target) =
      view'.advance target (view.segment target) := by
    have htwice := hloop [view.segment target, view.segment target] (by simp) (by simpa using hown)
    rw [view'.lookupLoop_cons target _ (by simp), view.lookupLoop_cons target _ (by simp), hd.type,
      if_pos hdir, if_pos hdir, lookupLoop_singleton, lookupLoop_singleton, hagain view' hd.segment,
      hagain view rfl] at htwice
    exact (some.inj htwice).symm
  have hchild : ∀ s, Nameable s → s ≠ view.segment target →
      view.child target s = view'.child target s := by
    intro s hs hne
    have honce := hloop [s] (by simp) (by simpa using hs)
    rw [lookupLoop_singleton, lookupLoop_singleton, arrive, arrive, hd.segment, if_neg hne,
      if_neg hne, hd.type, if_pos hdir, if_pos hdir] at honce
    exact honce.symm
  refine ⟨hidden_of_eq hadvance hchild hapart hself, ?_⟩
  refine hidden_of_eq ?_ (fun s hs hne => ?_) (fun c hc hc' => hapart c hc' hc) hself'
  · rw [hd.segment, hadvance]
  · rw [hd.segment] at hne
    exact (hchild s hs hne).symm

lemma find?_hidden {v : View ν} (hdots : ∀ n, v.segment n ≠ dotDot)
    (hidden : ∀ c ∈ v.children target, v.Hidden target c) (hs : name = dotDot ∨ Nameable name) :
    (name ≠ v.segment target → v.child target name = none) ∧ v.advance target name = target := by
  have hname : ∀ c ∈ v.children target, v.segment c = name →
      name = v.segment target ∧ v.type c ≠ .directory := by
    rintro c hc rfl
    exact hidden c hc (hs.resolve_left (hdots c))
  constructor
  · intro hne
    refine find?_eq_none.2 fun c hc hcs => ?_
    exact hne (hname c hc (of_decide_eq_true hcs)).1
  · rw [advance, find?_eq_none.2 fun c hc hcs => ?_, getD_none]
    obtain ⟨hcn, hcd⟩ := of_decide_eq_true hcs
    exact (hname c hc hcn).2 hcd

/-- If no path can ask for a child of the target in either view, every lookup is the same. -/
lemma Differs.lookup_eq (hd : Differs view view' target) {root cwd : ν} (hroot : root ≠ target)
    (hdots : ∀ n, view.segment n ≠ dotDot)
    (hold : ∀ c ∈ view.children target, view.Hidden target c)
    (hnew : ∀ c ∈ view'.children target, view'.Hidden target c) (path : List Char) :
    view'.lookup root cwd path = view.lookup root cwd path := by
  have hdots' : ∀ n, view'.segment n ≠ dotDot := hd.segment ▸ hdots
  have hnode : ∀ n s, (n ≠ target ∨ s = dotDot ∨ Nameable s) →
      view'.advance n s = view.advance n s ∧ view'.arrive n s = view.arrive n s := by
    intro n s hs
    by_cases hn : n = target
    · subst hn
      have hs := hs.resolve_left (not_not_intro rfl)
      obtain ⟨hc, ha⟩ := find?_hidden hdots hold hs
      obtain ⟨hc', ha'⟩ := find?_hidden hdots' hnew hs
      refine ⟨ha'.trans ha.symm, ?_⟩
      unfold arrive
      rw [hd.segment, hd.type]
      split_ifs with hself
      · rfl
      · rw [hc hself, hc' (hd.segment ▸ hself)]
      · rfl
    · simp only [View.advance, arrive, child, hd.segment, hd.type, hd.children n hn, and_self]
  have hwalk : ∀ segments node, (∀ s ∈ segments, s = dotDot ∨ Nameable s) →
      view'.walk node segments = view.walk node segments := by
    intro segments
    induction segments with
    | nil => exact fun _ _ => rfl
    | cons s rest ih =>
      intro node hs
      rw [View.walk.eq_2, View.walk.eq_2, hd.type, (hnode node s (.inr (hs s mem_cons_self))).1,
        ih _ fun t ht => hs t (mem_cons_of_mem _ ht)]
  rw [lookup_segments, lookup_segments]
  rcases segmentsOf_cases path with hs | ⟨hs, habs⟩ | ⟨hs, hcanon, -⟩
  · rw [if_pos hs, if_pos hs]
  · have hstart : start root cwd path = root := if_pos habs
    rw [hs, hstart, lookupLoop_singleton, lookupLoop_singleton, (hnode root [] (.inl hroot)).2]
  · obtain ⟨init, last, he⟩ := (eq_nil_or_concat' (segmentsOf path)).resolve_left hs
    have hall : ∀ s ∈ init ++ [last], s = dotDot ∨ Nameable s := fun s hm =>
      hcanon.nameable (he ▸ hm)
    rw [if_neg hs, if_neg hs, he, lookupLoop_concat, lookupLoop_concat,
      hwalk init _ fun s hm => hall s (mem_append_left _ hm)]
    congr 1
    funext d
    exact (hnode d last (.inr (hall last (by simp)))).2

end View

namespace FileSystem

variable {fs fs' : FileSystem} {cwd new node : SharedNode} {path : List Char} {type : NodeType}
  {opened : Option ℕ}

/-- No node is called `..` or is its own child, and a way of proper names leads from the root
to every other directory. -/
structure WellFormed (fs : FileSystem) : Prop where
  dots : ∀ node, fs.view.segment node ≠ dotDot
  self : ∀ node, node ∉ fs.view.children node
  reached : ∀ id, id ≠ 0 → fs.view.type (.tmpfs id) = .directory →
    ∃ names, fs.view.Way (.tmpfs id) (.tmpfs 0) names

/-! ## Creating -/

/-- What creating the node `new` should do. -/
structure Creates (fs fs' : FileSystem) (new cwd : SharedNode) (path : List Char) : Prop where
  found : fs'.lookup cwd path = some new
  kept : ∀ p node, fs.lookup cwd p = some node → fs'.lookup cwd p = some node
  absent : ∀ p, fs.lookup cwd p = none →
    fs'.view.resolve (start (.tmpfs 0) cwd p) (segmentsOf p) ≠ some new →
      fs'.lookup cwd p = none

/-- For a call with the result `r`. -/
def CreatesOrFails (fs : FileSystem) (r : FileSystem × Option SharedNode) (cwd : SharedNode)
    (path : List Char) : Prop :=
  match r.2 with
  | some new => Creates fs r.1 new cwd path
  | none => r.1 = fs

/-- A directory of the temporary file system takes every child, one of a FAT volume a file
that `f_open` opens, and no other node takes any. -/
def TakesChild (fs : FileSystem) (type : NodeType) (opened : Option ℕ) : SharedNode → Prop
  | .tmpfs id =>
    match (fs.nodes id).mountedNode with
    | none => (fs.nodes id).type = .directory
    | some root => (root.createNode type opened).isSome = true
  | .foreign id => ((fs.foreign id).createNode type opened).isSome = true

/-- The path leads to a node, it has no file name, or nothing one level up takes a child. -/
def Refuses (fs : FileSystem) (cwd : SharedNode) (path : List Char) (type : NodeType)
    (opened : Option ℕ) : Prop :=
  (fs.lookup cwd (sanitize (trim path))).isSome = true ∨ filename path = [] ∨
    ∀ node ∈ fs.lookup cwd (up (sanitize (trim path))), ¬ fs.TakesChild type opened node

/-- A new node would be neither the root nor the working directory. -/
structure Separate (fs : FileSystem) (cwd : SharedNode) (opened : Option ℕ) : Prop where
  root : fs.next ≠ 0
  directory : cwd ≠ .tmpfs fs.next
  opened : ∀ k ∈ opened, cwd ≠ .foreign k

lemma Separate.start (h : fs.Separate cwd opened)
    (hnew : new = .tmpfs fs.next ∨ ∃ k ∈ opened, new = .foreign k) (p : List Char) :
    new ≠ start (.tmpfs 0) cwd p := by
  unfold View.start
  rcases hnew with rfl | ⟨k, hk, rfl⟩ <;> split_ifs
  · exact fun he => h.root (SharedNode.tmpfs.inj he)
  · exact h.directory.symm
  · exact fun he => by cases he
  · exact (h.opened k hk).symm

/-- The path one level up from `..` leads to nothing. -/
lemma WellFormed.last_ne_dotDot (h : fs.WellFormed) {relative : Bool} {init : List Segment}
    {last : Segment} (hc : Canonical relative (init ++ [last]))
    (hup : fs.lookup cwd (up (text relative (init ++ [last]))) = some node) :
    last ≠ dotDot := by
  rintro rfl
  cases relative with
  | false =>
    have hmem : dotDot ∈ (init ++ [dotDot]).foldl (prune false) [] := by
      rw [hc.stable]
      simp
    rcases mem_foldl_prune hmem with hnil | ⟨-, -, -, hne⟩
    · cases hnil
    · exact hne rfl
  | true =>
    have hprune : prune true (init ++ [dotDot]) dotDot = init ++ [dotDot] ++ [dotDot] := by
      simp [prune, dotDot, dot]
    have hlong := hprune ▸ canonical_prune hc (by decide)
    rw [up_text_prune hc (by simp), hprune, if_neg (by simp), FileSystem.lookup,
      lookup_directory_text _ _ _ hlong (by simp), lookupLoop_concat, bind_eq_some_iff] at hup
    obtain ⟨d, -, ha⟩ := hup
    exact h.dots node (segment_of_arrive _ ha)

/-- A new node is found through a segment that names nothing. -/
lemma WellFormed.not_creates (h : fs.WellFormed)
    (hnone : fs.lookup cwd (sanitize (trim path)) = none)
    (hup : fs.lookup cwd (up (sanitize (trim path))) = some node)
    (hstart : ∀ p, new ≠ start (.tmpfs 0) cwd p) (hname : fs'.view.segment new ≠ []) :
    ¬ Creates fs fs' new cwd path := by
  intro hcr
  obtain ⟨init, last, hcanon, htext, d, hwalk, harrive⟩ :=
    lookup_canonical fs'.view hcr.found (hstart path) hname
  rw [htext] at hup hnone
  have hnode := start_eq (.tmpfs 0) cwd path
  generalize (!isAbsolute path) = relative at hcanon hup hnone hnode
  rw [← hnode] at hwalk
  obtain ⟨q, hq, hfresh⟩ := exists_fresh (fs.view.namesBelow (fs.view.walk _ init) ++
    (fs'.view.namesBelow (fs'.view.walk _ init) ++ fs'.view.namesBelow (fs'.view.resolve _ init)))
  simp only [mem_append, not_or] at hfresh
  obtain ⟨hold, hnew, hplain⟩ := hfresh
  have hlast := (hcanon.nameable (by simp)).resolve_left (h.last_ne_dotDot hcanon hup)
  have hlong : Canonical relative (init ++ q :: [last]) := by
    simpa using (hcanon.init.concat hq).concat hlast
  have hdir : fs'.view.type d = .directory := by
    by_contra hfile
    unfold arrive at harrive
    split_ifs at harrive
    have hsame := (fs'.view.walk_directory hwalk).resolve_right hfile
    exact hstart path ((some.inj harrive).symm.trans (hsame.trans hnode))
  have hfound : fs'.lookup cwd (text relative (init ++ q :: [last])) = some new := by
    rw [FileSystem.lookup, lookup_of_fresh hlong (by simp) hnew, hwalk, bind_some, if_pos hdir,
      lookupLoop_singleton, harrive]
  have hbefore : fs.lookup cwd (text relative (init ++ q :: [last])) = none := by
    rw [FileSystem.lookup, lookup_text _ _ _ hcanon (by simp), lookupLoop_concat] at hnone
    rw [FileSystem.lookup, lookup_of_fresh hlong (by simp) hold]
    cases hw : fs.view.walk (if relative then cwd else .tmpfs 0) init with
    | none => rfl
    | some e =>
      rw [hw, bind_some] at hnone
      rw [bind_some, lookupLoop_singleton, hnone, ite_self]
  have hgone := hcr.absent _ hbefore ?_
  · rw [hfound] at hgone
    cases hgone
  rw [segmentsOf_text hlong (by simp), start_text _ _ hlong (by simp), resolve_of_fresh hplain]
  exact fun he => by cases he

/-- The node takes no child, or gets one with the given name. -/
lemma createChild_cases (fs : FileSystem) (type : NodeType) (name : Segment) (opened : Option ℕ)
    (node : SharedNode) :
    (¬ fs.TakesChild type opened node ∧ fs.createChild type name opened node = (fs, none)) ∨
    (fs.TakesChild type opened node ∧ ∃ fs' new,
      fs.createChild type name opened node = (fs', some new) ∧ fs'.view.segment new = name ∧
      (new = .tmpfs fs.next ∨ ∃ k ∈ opened, new = .foreign k)) := by
  have hfat (n : FsNode) : n.createNode type opened = none ∨
      ∃ k ∈ opened, n.createNode type opened = some k := by
    unfold FsNode.createNode
    split_ifs
    · cases opened with
      | none => exact .inl rfl
      | some k => exact .inr ⟨k, rfl, rfl⟩
    · exact .inl rfl
  cases node with
  | tmpfs id =>
    cases hm : (fs.nodes id).mountedNode with
    | none =>
      simp only [TakesChild, FileSystem.createChild, hm]
      by_cases hdir : (fs.nodes id).type = .directory
      · exact .inr ⟨hdir, _, _, if_pos hdir, (push_created fs id type name).newName, .inl rfl⟩
      · exact .inl ⟨hdir, if_neg hdir⟩
    | some root =>
      simp only [TakesChild, FileSystem.createChild, hm]
      rcases hfat root with hno | ⟨k, hk, hyes⟩
      · exact .inl ⟨by simp [hno], by rw [hno]⟩
      · refine .inr ⟨by simp [hyes], _, _, by rw [hyes], ?_, .inr ⟨k, hk, rfl⟩⟩
        simp [view, setForeign]
  | foreign id =>
    simp only [TakesChild, FileSystem.createChild]
    rcases hfat (fs.foreign id) with hno | ⟨k, hk, hyes⟩
    · exact .inl ⟨by simp [hno], by rw [hno]⟩
    · refine .inr ⟨by simp [hyes], _, _, by rw [hyes], ?_, .inr ⟨k, hk, rfl⟩⟩
      simp [view, setForeign]

lemma createNode_iff (h : fs.WellFormed) (hsep : fs.Separate cwd opened) (path : List Char)
    (type : NodeType) : CreatesOrFails fs (fs.createNode cwd path type opened) cwd path ↔
      fs.Refuses cwd path type opened := by
  unfold FileSystem.createNode Refuses
  by_cases hfound : (fs.lookup cwd (sanitize (trim path))).isSome = true
  · rw [if_pos hfound]
    exact iff_of_true rfl (.inl hfound)
  by_cases hempty : filename path = []
  · rw [if_neg hfound, if_pos hempty]
    exact iff_of_true rfl (.inr (.inl hempty))
  rw [if_neg hfound, if_neg hempty]
  cases hup : fs.lookup cwd (up (sanitize (trim path))) with
  | none => exact iff_of_true rfl (.inr (.inr fun _ hn => by cases hn))
  | some node =>
    rcases createChild_cases fs type (filename path) opened node with
      ⟨hno, hsame⟩ | ⟨hyes, fs', new, hcreate, hname, hnew⟩
    · simp only [hsame]
      refine iff_of_true rfl (.inr (.inr fun n hn => ?_))
      obtain rfl := some.inj hn
      exact hno
    · simp only [hcreate]
      refine iff_of_false (fun hc => ?_) ?_
      · exact h.not_creates (by simpa using hfound) hup (hsep.start hnew)
          (hname.trans_ne hempty) hc
      · rintro (hres | hnil | hall)
        · exact hfound hres
        · exact hempty hnil
        · exact hall node rfl hyes

/-- In every well-formed tree, `mkdir` and `open` with `O_CREAT` keep the answers for other
paths exactly if the path or the directory one level up makes them create nothing. -/
theorem creation_iff (h : fs.WellFormed) (hsep : fs.Separate cwd opened) (path : List Char) :
    (CreatesOrFails fs (fs.mkdir cwd path) cwd path ↔ fs.Refuses cwd path .directory none) ∧
      (CreatesOrFails fs (fs.openCreate cwd path opened) cwd path ↔
        (fs.lookup cwd path).isSome = true ∨ fs.Refuses cwd path .file opened) := by
  refine ⟨createNode_iff h ⟨hsep.root, hsep.directory, fun _ hk => by cases hk⟩ path _, ?_⟩
  unfold openCreate
  by_cases hfound : (fs.lookup cwd path).isSome = true
  · rw [if_pos hfound]
    exact iff_of_true rfl (.inl hfound)
  · rw [if_neg hfound, createNode_iff h hsep path]
    exact (or_iff_right hfound).symm

/-- A directory, a file and a mounted FAT volume. -/
def sampleTree : FileSystem where
  nodes id := [⟨.directory, [separator], [1, 2, 3], none⟩, ⟨.directory, ['a'], [], none⟩,
    ⟨.file, ['f'], [], none⟩, ⟨.directory, ['u'], [], some ⟨.directory, ['u'], [], true⟩⟩].getD id
      ⟨.file, [], [], none⟩
  next := 4
  foreign _ := ⟨.file, [], [], false⟩

lemma sampleTree_nodes {id : ℕ} (h : 4 ≤ id) : sampleTree.nodes id = ⟨.file, [], [], none⟩ := by
  simp only [sampleTree, getD_eq_getElem?_getD]
  rw [getElem?_eq_none h, getD_none]

lemma sampleTree_wellFormed : sampleTree.WellFormed := by
  have hall : ∀ node, sampleTree.view.segment node ≠ dotDot ∧
      node ∉ sampleTree.view.children node := by
    intro node
    cases node with
    | foreign k => exact ⟨by simp [view, sampleTree, dotDot], not_mem_nil⟩
    | tmpfs k =>
      by_cases hk : k < 4
      · interval_cases k <;> decide
      · simp [view, sampleTree_nodes (not_lt.1 hk), dotDot]
  refine ⟨fun node => (hall node).1, fun node => (hall node).2, fun id hid hdir => ?_⟩
  by_cases hlt : id < 4
  · interval_cases id
    · exact absurd rfl hid
    · exact ⟨_, .last (by decide) rfl (by decide) rfl⟩
    · exact absurd hdir (by decide)
    · exact ⟨_, .last (by decide) rfl (by decide) rfl⟩
  · simp [view, sampleTree_nodes (not_lt.1 hlt)] at hdir

/-- A file takes no child. A new file in a FAT volume can be found under another path. -/
theorem creation_iff_sampleTree :
    CreatesOrFails sampleTree (sampleTree.mkdir (.tmpfs 0) ['/', 'f', '/', 'd']) (.tmpfs 0)
        ['/', 'f', '/', 'd'] ∧
      ¬ CreatesOrFails sampleTree (sampleTree.openCreate (.tmpfs 0) ['/', 'u', '/', 'd'] (some 0))
        (.tmpfs 0) ['/', 'u', '/', 'd'] := by
  have hiff := creation_iff sampleTree_wellFormed
    (⟨by decide, by decide, fun _ _ => by simp⟩ : sampleTree.Separate (.tmpfs 0) (some 0))
  refine ⟨(hiff ['/', 'f', '/', 'd']).1.2 (.inr (.inr fun node hn => ?_)), fun hc => ?_⟩
  · obtain rfl : SharedNode.tmpfs 2 = node := some.inj hn
    exact fun hdir : NodeType.file = .directory => by cases hdir
  · rcases (hiff ['/', 'u', '/', 'd']).2.1 hc with hfound | hfound | hempty | hall
    · exact absurd hfound (by decide)
    · exact absurd hfound (by decide)
    · exact absurd hempty (by decide)
    · exact hall (.tmpfs 3) rfl rfl

/-- In the empty tree a new directory `a` is found under `/q/a`, which led to nothing before
and does not denote it. -/
theorem creation_found_elsewhere :
    let r := FileSystem.new.mkdir (.tmpfs 0) ['/', 'a']
    r.2 = some (.tmpfs 1) ∧ FileSystem.new.lookup (.tmpfs 0) ['/', 'q', '/', 'a'] = none ∧
      r.1.lookup (.tmpfs 0) ['/', 'q', '/', 'a'] = some (.tmpfs 1) ∧
      r.1.view.resolve (.tmpfs 0) [['q'], ['a']] = none :=
  ⟨rfl, rfl, rfl, rfl⟩

/-! ## Mounting -/

/-- What a mount of `root` on the node `id` should do. -/
structure Mounts (fs fs' : FileSystem) (cwd : SharedNode) (destination : List Char) (id : ℕ)
    (root : FsNode) : Prop where
  found : fs'.lookup cwd destination = some (.tmpfs id)
  children : fs'.view.children (.tmpfs id) = root.nodes.map .foreign
  kept : ∀ p, ¬ fs.view.Through (.tmpfs id) (start (.tmpfs 0) cwd p) (segmentsOf p) →
    fs'.lookup cwd p = fs.lookup cwd p
  directory : fs.view.type (.tmpfs id) = .directory

/-- For a call with the result `r`. -/
def MountsOrFails (fs : FileSystem) (r : FileSystem × Bool) (cwd : SharedNode)
    (destination : List Char) (root : Option FsNode) : Prop :=
  if r.2 then
    ∃ id new, fs.mountPoint cwd destination root = some (id, new) ∧
      Mounts fs r.1 cwd destination id new
  else r.1 = fs

/-- The destination ends in the name of the directory, and no path can ask for what the
directory or the new root holds. -/
structure Mountable (fs : FileSystem) (id : ℕ) (root : FsNode) : Prop where
  name : root.segment = fs.shownName id
  directory : fs.view.type (.tmpfs id) = .directory
  old : ∀ c ∈ fs.view.children (.tmpfs id), fs.view.Hidden (.tmpfs id) c
  new : ∀ c ∈ root.nodes, fs.view.Hidden (.tmpfs id) (.foreign c)

variable {id : ℕ} {root new : FsNode} {destination : List Char}

lemma setMounted_differs (hname : root.segment = fs.shownName id) (hroot : root.type = .directory)
    (hdir : fs.view.type (.tmpfs id) = .directory) :
    Differs fs.view (fs.setMounted id (some root)).view (.tmpfs id) := by
  have hother (k : ℕ) (hk : k ≠ id) : (fs.setMounted id (some root)).nodes k = fs.nodes k :=
    Function.update_of_ne hk _ _
  have hsame : ((fs.setMounted id (some root)).nodes id).mountedNode = some root := by
    simp [setMounted]
  constructor
  · funext v
    cases v with
    | foreign k => rfl
    | tmpfs k =>
      by_cases hk : k = id
      · rw [hk, hdir, ← hroot]
        simp [view, hsame]
      · simp [view, hother k hk]
  · funext v
    cases v with
    | foreign k => rfl
    | tmpfs k =>
      by_cases hk : k = id
      · rw [hk]
        refine Eq.trans ?_ hname
        simp [view, hsame]
      · simp [view, hother k hk]
  · intro v hv
    cases v with
    | foreign k => rfl
    | tmpfs k => simp [view, hother k fun hk => hv (congrArg _ hk)]

lemma Mounts.name {names : List Segment} (h : Mounts fs (fs.setMounted id (some root)) cwd
      destination id root) (hway : fs.view.Way (.tmpfs id) (.tmpfs 0) names) :
    root.segment = fs.shownName id := by
  obtain ⟨p, init, hs, hnot, hlookup⟩ :=
    hway.exists_detour cwd (cons_ne_nil (fs.shownName id) []) fun s hs =>
      mem_singleton.1 hs ▸ hway.own
  have hfound : (fs.setMounted id (some root)).lookup cwd p = some (.tmpfs id) := by
    rw [h.kept p hnot, FileSystem.lookup, hlookup _ ⟨rfl, rfl, fun _ _ => rfl⟩,
      lookupLoop_singleton]
    exact if_pos rfl
  rw [FileSystem.lookup, lookup_segments, hs, if_neg (by simp), lookupLoop_concat,
    bind_eq_some_iff] at hfound
  obtain ⟨d, -, harrive⟩ := hfound
  rw [← segment_of_arrive _ harrive]
  simp [setMounted, view]

lemma Mounts.mountable (hmounts : Mounts fs (fs.setMounted id (some root)) cwd destination id root)
    (h : fs.WellFormed) (hid : id ≠ 0) (hfree : (fs.nodes id).mountedNode = none)
    (htype : root.type = .directory) : Mountable fs id root := by
  obtain ⟨names, hway⟩ := h.reached id hid hmounts.directory
  have hname := hmounts.name hway
  have hd := setMounted_differs hname htype hmounts.directory
  have hloop (rest : List Segment) (hrest : rest ≠ []) (hnames : ∀ s ∈ rest, Nameable s) :
      (fs.setMounted id (some root)).view.lookupLoop false (.tmpfs id) rest =
        fs.view.lookupLoop false (.tmpfs id) rest := by
    obtain ⟨p, -, -, hnot, hlookup⟩ := hway.exists_detour cwd hrest hnames
    rw [← hlookup _ hd, ← hlookup _ ⟨rfl, rfl, fun _ _ => rfl⟩]
    exact hmounts.kept p hnot
  obtain ⟨hold, hnew⟩ := hd.hidden hmounts.directory hway.own hloop
    (by rw [hmounts.children]; simp [view, hfree]) (h.self _) (by simp [hmounts.children])
  rw [hmounts.children] at hnew
  refine ⟨hname, hmounts.directory, hold, ?_⟩
  simpa only [List.forall_mem_map, hd.hidden_iff] using hnew

/-- In every well-formed tree a mount does what it should, or fails and changes nothing,
exactly if no path can ask for a node that it hides or shows and the name stays. -/
theorem mount_iff (h : fs.WellFormed) (cwd : SharedNode) (destination : List Char)
    (root : Option FsNode) :
    MountsOrFails fs (fs.mountFilesystem cwd destination root) cwd destination root ↔
      ∀ id new, fs.mountPoint cwd destination root = some (id, new) → Mountable fs id new := by
  unfold MountsOrFails FileSystem.mountFilesystem
  cases hm : fs.mountPoint cwd destination root with
  | none => exact iff_of_true rfl fun _ _ hc => by cases hc
  | some r =>
    obtain ⟨id, new⟩ := r
    obtain ⟨hl, hid, hfree, htype, -⟩ := mountPoint_eq_some hm
    have hroot : SharedNode.tmpfs 0 ≠ .tmpfs id := fun he => hid (SharedNode.tmpfs.inj he).symm
    have hchildren : (fs.setMounted id (some new)).view.children (.tmpfs id) =
        new.nodes.map .foreign := by
      simp [setMounted, view]
    simp only [if_true, some.injEq, Prod.mk.injEq]
    constructor
    · rintro ⟨_, _, ⟨rfl, rfl⟩, hmounts⟩ _ _ ⟨rfl, rfl⟩
      exact hmounts.mountable h hid hfree htype
    · intro hall
      have hm := hall id new ⟨rfl, rfl⟩
      have hd := setMounted_differs hm.name htype hm.directory
      have hlookup : ∀ p, (fs.setMounted id (some new)).lookup cwd p = fs.lookup cwd p := by
        refine hd.lookup_eq hroot h.dots hm.old ?_
        rw [hchildren]
        simpa only [List.forall_mem_map, hd.hidden_iff] using hm.new
      exact ⟨id, new, ⟨rfl, rfl⟩, (hlookup _).trans hl, hchildren, fun p _ => hlookup p,
        hm.directory⟩

/-- The root of a FAT volume with the given nodes. -/
def volume (nodes : List ℕ) : Option FsNode := some ⟨.directory, [], nodes, true⟩

/-- An empty file system on `/a`. -/
theorem mount_iff_sampleTree :
    MountsOrFails sampleTree (sampleTree.mountFilesystem (.tmpfs 0) ['/', 'a'] (volume []))
      (.tmpfs 0) ['/', 'a'] (volume []) := by
  refine (mount_iff sampleTree_wellFormed _ _ _).2 fun id new h => ?_
  obtain ⟨rfl, rfl⟩ := Prod.mk.inj (some.inj h)
  exact ⟨rfl, rfl, fun c hc => absurd hc not_mem_nil, fun c hc => absurd hc not_mem_nil⟩

/-- A mount on `/a/` takes away the name under which it was found, one on a file makes it a
directory, and one of a file system that holds a file called `y` on `/a` makes `/q/a/y` lead
there. -/
theorem mount_hides :
    (let r := sampleTree.mountFilesystem (.tmpfs 0) ['/', 'a', '/'] (volume [])
     r.2 = true ∧ r.1.lookup (.tmpfs 0) ['/', 'a', '/'] = none) ∧
    ((sampleTree.mountFilesystem (.tmpfs 0) ['/', 'f'] (volume [])).2 = true ∧
      sampleTree.view.type (.tmpfs 2) = .file) ∧
    let tree := sampleTree.setForeign 0 ⟨.file, ['y'], [], true⟩
    let r := tree.mountFilesystem (.tmpfs 0) ['/', 'a'] (volume [0])
    r.2 = true ∧ tree.lookup (.tmpfs 0) ['/', 'q', '/', 'a', '/', 'y'] = none ∧
      r.1.lookup (.tmpfs 0) ['/', 'q', '/', 'a', '/', 'y'] = some (.foreign 0) ∧
      tree.view.resolve (.tmpfs 0) [['q']] = none :=
  ⟨⟨rfl, rfl⟩, ⟨rfl, rfl⟩, rfl, rfl, rfl, rfl⟩

end FileSystem

end GzOS.Vfs
