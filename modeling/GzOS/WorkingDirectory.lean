import GzOS.CTypes
import GzOS.Runs
import GzOS.VirtualFileSystem

/-!
# The working directory of a process

A process keeps the path it last changed to, as it was given, and the node the lookup of
that path returned. The path names the node from the root only if it is absolute. The
system call discards the result of the change, so a path that is not found is reported
as a success, and one that leads to a file is accepted.
-/
namespace GzOS.WorkingDirectory
open Paths Runs Vfs List Option

structure Process where
  cwdPath : List Char
  cwdNode : Option Node

def Process.new : Process := ⟨[separator], none⟩

section Calls

variable (root : Node)

/-- A relative path is looked up from the working node, which may have to be looked up
first. -/
def lookup (currentWorkingNode : Process → Option (Process × Option Node)) (proc : Process)
    (path : List Char) : Option (Process × Option Node) :=
  if isAbsolute path then some (proc, Node.view.lookupFrom root path)
  else (currentWorkingNode proc).bind fun (proc, lookupRoot) =>
    lookupRoot.map fun lookupRoot => (proc, Node.view.lookupFrom lookupRoot path)

def changeWorkingDir (currentWorkingNode : Process → Option (Process × Option Node))
    (proc : Process) (path : List Char) : Option (Process × Bool) :=
  (lookup root currentWorkingNode proc path).map fun
    | (proc, none) => (proc, false)
    | (_, some node) => (⟨path, some node⟩, true)

/-- The fuel bounds the depth of the calls. -/
def currentWorkingNode : ℕ → Process → Option (Process × Option Node)
  | 0, _ => none
  | fuel + 1, proc =>
    match proc.cwdNode with
    | some node => some (proc, some node)
    | none =>
      (changeWorkingDir root (currentWorkingNode fuel) proc proc.cwdPath).map fun (proc, _) =>
        (proc, proc.cwdNode)

end Calls

/-- A fork or a new process takes the next number. -/
abbrev State := List Process

inductive Event
  | create
  | fork (father : ℕ)
  | lookup (p : ℕ) (path : List Char)
  | chdir (p : ℕ) (path : List Char)
  | getcwd (p outSize : ℕ)

section System

variable (root : Node) (fuel : ℕ)

/-- The system call returns 0 whatever the change returns. -/
def chdir (s : State) (p : ℕ) (path : List Char) : Option (ℤ × State) :=
  match s[p]? with
  | none => some (-1, s)
  | some proc =>
    (changeWorkingDir root (currentWorkingNode root fuel) proc (cString path)).map
      fun (proc, _) => (0, s.set p proc)

def step (s : State) : Event → Option State
  | .create => some (s ++ [.new])
  | .fork father => some (s ++ s[father]?.toList)
  | .lookup p path =>
    match s[p]? with
    | none => some s
    | some proc =>
      (lookup root (currentWorkingNode root fuel) proc path).map fun (proc, _) => s.set p proc
  | .chdir p path => (chdir root fuel s p path).map Prod.snd
  | .getcwd _ _ => some s

def startNode (proc : Process) : Option Node := (currentWorkingNode root fuel proc).bind Prod.snd

def Names (proc : Process) (path : List Char) : Prop :=
  isAbsolute path = true ∧
    ∃ node, startNode root fuel proc = some node ∧ Node.view.lookupFrom root path = some node

/-- The path of the working directory leads to its node. -/
def Consistent (s : State) : Prop := ∀ proc ∈ s, Names root fuel proc proc.cwdPath

def ResolvesToDirectory (proc : Process) (path : List Char) : Prop :=
  ∃ proc' node, lookup root (currentWorkingNode root fuel) proc path = some (proc', some node) ∧
    node.getType = .directory

def Answers (s : State) : Event → Prop
  | .chdir p path => ∀ proc ∈ s[p]?, ∃ ret proc',
    chdir root fuel s p path = some (ret, s.set p proc') ∧
    (ret = 0 ↔ ResolvesToDirectory root fuel proc (cString path)) ∧
    (¬ResolvesToDirectory root fuel proc (cString path) →
      proc'.cwdPath = proc.cwdPath ∧ startNode root fuel proc' = startNode root fuel proc)
  | .getcwd p outSize => ∀ proc ∈ s[p]?, ∃ path,
    stringIn (strncpy [] proc.cwdPath outSize) = some path ∧ Names root fuel proc path
  | _ => True

/-- `chdir` gets an absolute path of a directory, `getcwd` a buffer longer than the path. -/
def Proper (s : State) : Event → Prop
  | .chdir p path => ∀ proc ∈ s[p]?, isAbsolute (cString path) = true ∧
    ∃ node, Node.view.lookupFrom root (cString path) = some node ∧ node.getType = .directory
  | .getcwd p outSize => ∀ proc ∈ s[p]?, proc.cwdPath.length < outSize
  | _ => True

end System

structure Process.Ready (proc : Process) : Prop where
  path : proc.cwdNode = none → proc.cwdPath = [separator]
  text : nul ∉ proc.cwdPath

lemma Process.Ready.new : Process.new.Ready := ⟨fun _ => rfl, by decide⟩

def Process.start (root : Node) (proc : Process) : Node := proc.cwdNode.getD root

def Process.settle (root : Node) (proc : Process) : Process :=
  { proc with cwdNode := some (proc.start root) }

variable {root : Node} {fuel : ℕ} {proc : Process}

lemma Process.Ready.currentWorkingNode (h : proc.Ready) :
    currentWorkingNode root (fuel + 1) proc = some (proc.settle root, some (proc.start root)) := by
  obtain ⟨path, node⟩ := proc
  cases node with
  | some node => rfl
  | none =>
    obtain rfl : path = [separator] := h.path rfl
    rfl

variable {path : List Char} {proc' : Process} {s : State} {e : Event}

lemma Process.Ready.names_iff (h : proc.Ready) :
    Names root (fuel + 1) proc path ↔
      isAbsolute path ∧ Node.view.lookupFrom root path = some (proc.start root) := by
  simp [Names, startNode, h.currentWorkingNode]

def Kept (root : Node) (proc proc' : Process) : Prop := proc' = proc ∨ proc' = proc.settle root

lemma Kept.same (h : Kept root proc proc') :
    proc'.cwdPath = proc.cwdPath ∧ proc'.start root = proc.start root := by
  rcases h with rfl | rfl <;> exact ⟨rfl, rfl⟩

lemma Kept.ready (h : Kept root proc proc') (hready : proc.Ready) : proc'.Ready := by
  rcases h with rfl | rfl
  · exact hready
  · exact ⟨fun hnone => absurd hnone (some_ne_none _), hready.text⟩

lemma Process.Ready.lookup (h : proc.Ready) (root : Node) (fuel : ℕ) (path : List Char) :
    ∃ proc', Kept root proc proc' ∧
      lookup root (WorkingDirectory.currentWorkingNode root (fuel + 1)) proc path =
        some (proc', Vfs.lookup root proc.cwdNode path) := by
  unfold WorkingDirectory.lookup Vfs.lookup View.lookup
  by_cases habs : isAbsolute path
  · exact ⟨proc, .inl rfl, by simp only [habs, if_true]⟩
  · refine ⟨proc.settle root, .inr rfl, ?_⟩
    simp only [habs, h.currentWorkingNode]
    rfl

lemma Process.Ready.resolves_iff (h : proc.Ready) :
    ResolvesToDirectory root (fuel + 1) proc path ↔
      ∃ node, Vfs.lookup root proc.cwdNode path = some node ∧ node.getType = .directory := by
  obtain ⟨proc', -, hlookup⟩ := h.lookup root fuel path
  simp only [ResolvesToDirectory, hlookup, some.injEq, Prod.mk.injEq]
  constructor
  · rintro ⟨_, node, ⟨-, hnode⟩, hdir⟩
    exact ⟨node, hnode, hdir⟩
  · rintro ⟨node, hnode, hdir⟩
    exact ⟨proc', node, ⟨rfl, hnode⟩, hdir⟩

lemma chdir_spec (root : Node) (fuel : ℕ) {p : ℕ} (hp : s[p]? = some proc) (h : proc.Ready)
    (path : List Char) :
    ∃ proc', chdir root (fuel + 1) s p path = some (0, s.set p proc') ∧
      (Vfs.lookup root proc.cwdNode (cString path) = none ∧ Kept root proc proc' ∨
        ∃ node, Vfs.lookup root proc.cwdNode (cString path) = some node ∧
          proc' = ⟨cString path, some node⟩) := by
  obtain ⟨kept, hkept, hlookup⟩ := h.lookup root fuel (cString path)
  simp only [chdir, hp, changeWorkingDir, hlookup]
  cases hnode : Vfs.lookup root proc.cwdNode (cString path) with
  | none => exact ⟨kept, rfl, .inl ⟨rfl, hkept⟩⟩
  | some node => exact ⟨_, rfl, .inr ⟨node, rfl, rfl⟩⟩

def Origin (root : Node) (s : State) (e : Event) (proc' : Process) : Prop :=
  proc' = .new ∨ (∃ proc ∈ s, Kept root proc proc') ∨
    ∃ p path proc node, e = .chdir p path ∧ s[p]? = some proc ∧
      Vfs.lookup root proc.cwdNode (cString path) = some node ∧
      proc' = ⟨cString path, some node⟩

lemma origin_old (e : Event) (hproc : proc ∈ s) : Origin root s e proc :=
  Or.inr (Or.inl ⟨proc, hproc, Or.inl rfl⟩)

/-- A process is new, was there, or has just changed its directory. -/
lemma step_spec (h : ∀ proc ∈ s, proc.Ready) (e : Event) :
    ∃ t, step root (fuel + 1) s e = some t ∧ ∀ proc ∈ t, Origin root s e proc := by
  cases e with
  | create =>
    refine ⟨_, rfl, fun proc hproc => ?_⟩
    rcases mem_append.1 hproc with hold | hnew
    · exact origin_old _ hold
    · exact .inl (mem_singleton.1 hnew)
  | fork father =>
    refine ⟨_, rfl, fun proc hproc => ?_⟩
    rcases mem_append.1 hproc with hold | hnew
    · exact origin_old _ hold
    · exact origin_old _ (mem_of_getElem? (mem_toList.1 hnew))
  | lookup p path =>
    cases hp : s[p]? with
    | none => exact ⟨s, by simp only [step, hp], fun proc hproc => origin_old _ hproc⟩
    | some proc =>
      have hmem := mem_of_getElem? hp
      obtain ⟨kept, hkept, hlookup⟩ := (h proc hmem).lookup root fuel path
      refine ⟨s.set p kept, by simp only [step, hp, hlookup, map_some], fun q hq => ?_⟩
      rcases mem_or_eq_of_mem_set hq with hold | rfl
      · exact origin_old _ hold
      · exact .inr (.inl ⟨proc, hmem, hkept⟩)
  | chdir p path =>
    cases hp : s[p]? with
    | none =>
      refine ⟨s, ?_, fun proc hproc => origin_old _ hproc⟩
      simp [step, chdir, hp]
    | some proc =>
      have hmem := mem_of_getElem? hp
      obtain ⟨proc', hchdir, hcases⟩ := chdir_spec root fuel hp (h proc hmem) path
      refine ⟨s.set p proc', by rw [step, hchdir, map_some], fun q hq => ?_⟩
      rcases mem_or_eq_of_mem_set hq with hold | rfl
      · exact origin_old _ hold
      · rcases hcases with ⟨-, hkept⟩ | ⟨node, hnode, heq⟩
        · exact .inr (.inl ⟨proc, hmem, hkept⟩)
        · exact .inr (.inr ⟨p, path, proc, node, rfl, hp, hnode, heq⟩)
  | getcwd p outSize => exact ⟨s, rfl, fun proc hproc => origin_old _ hproc⟩

lemma Origin.ready (h : ∀ proc ∈ s, proc.Ready) (ho : Origin root s e proc') : proc'.Ready := by
  rcases ho with rfl | ⟨proc, hproc, hkept⟩ | ⟨p, path, proc, node, -, -, -, rfl⟩
  · exact .new
  · exact hkept.ready (h proc hproc)
  · exact ⟨fun hnone => absurd hnone (some_ne_none _), fun h =>
        by simpa using mem_takeWhile_imp h⟩

lemma ready_step {s t : State} {e : Event} (h : ∀ proc ∈ s, proc.Ready)
    (ht : step root (fuel + 1) s e = some t) : ∀ proc ∈ t, proc.Ready := by
  obtain ⟨t', ht', horigin⟩ := step_spec h e
  obtain rfl : t' = t := some.inj (ht'.symm.trans ht)
  exact fun proc hproc => (horigin proc hproc).ready h

/-! ## The path and the node -/

def Tied (root : Node) (proc : Process) : Prop :=
  isAbsolute proc.cwdPath = true ∧ Node.view.lookupFrom root proc.cwdPath = some (proc.start root)

lemma consistent_iff (h : ∀ proc ∈ s, proc.Ready) :
    Consistent root (fuel + 1) s ↔ ∀ proc ∈ s, Tied root proc :=
  forall₂_congr fun proc hproc => (h proc hproc).names_iff

lemma Origin.tied (ho : Origin root s e proc') (h : ∀ proc ∈ s, Tied root proc)
    (hproper : Proper root s e) : Tied root proc' := by
  rcases ho with rfl | ⟨proc, hproc, hkept⟩ | ⟨p, path, proc, node, rfl, hp, hnode, rfl⟩
  · exact ⟨rfl, by unfold View.lookupFrom; exact if_pos (by decide)⟩
  · obtain ⟨hpath, hstart⟩ := hkept.same
    rw [Tied, hpath, hstart]
    exact h proc hproc
  · obtain ⟨habs, -⟩ := hproper proc hp
    rw [Vfs.lookup, View.lookup, if_pos habs] at hnode
    exact ⟨habs, hnode⟩

lemma stringIn_strncpy (h : nul ∉ path) (n : ℕ) :
    stringIn (strncpy [] path n) = if path.length < n then some path else none := by
  by_cases hlen : path.length < n
  · obtain ⟨k, hk⟩ : ∃ k, n - path.length = k + 1 := ⟨n - path.length - 1, by omega⟩
    have hbuffer : strncpy [] path n = path ++ nul :: replicate k nul := by
      rw [strncpy, hk, replicate_succ, take_of_length_le hlen.le, drop_nil, append_nil]
    rw [stringIn, hbuffer, if_pos hlen, cString_append h]
    simp [cString]
  · have hbuffer : strncpy [] path n = path.take n := by
      rw [strncpy, Nat.sub_eq_zero_of_le (by omega), replicate_zero, append_nil, drop_nil,
        append_nil]
    rw [stringIn, hbuffer, if_neg fun hmem => h (mem_of_mem_take hmem), if_neg hlen]

lemma Tied.answers (hready : ∀ proc ∈ s, proc.Ready) (h : ∀ proc ∈ s, Tied root proc)
    (hproper : Proper root s e) : Answers root (fuel + 1) s e := by
  cases e with
  | chdir p path =>
    intro proc hp
    have hr := hready proc (mem_of_getElem? hp)
    obtain ⟨habs, node, hnode, hdir⟩ := hproper proc hp
    have hlookup : Vfs.lookup root proc.cwdNode (cString path) = some node := by
      rw [Vfs.lookup, View.lookup, if_pos habs, hnode]
    have hresolves : ResolvesToDirectory root (fuel + 1) proc (cString path) :=
      hr.resolves_iff.2 ⟨node, hlookup, hdir⟩
    obtain ⟨proc', hchdir, -⟩ := chdir_spec root fuel hp hr path
    exact ⟨0, proc', hchdir, iff_of_true rfl hresolves, fun hnot => absurd hresolves hnot⟩
  | getcwd p outSize =>
    intro proc hp
    have hmem := mem_of_getElem? hp
    refine ⟨proc.cwdPath, ?_, (hready proc hmem).names_iff.2 (h proc hmem)⟩
    rw [stringIn_strncpy (hready proc hmem).text, if_pos (hproper proc hp)]
  | create => trivial
  | fork father => trivial
  | lookup p path => trivial

lemma resolves_of_answers {p : ℕ} (hp : s[p]? = some proc) (hr : proc.Ready)
    (h : Answers root (fuel + 1) s (.chdir p path)) :
    ResolvesToDirectory root (fuel + 1) proc (cString path) := by
  obtain ⟨proc', hchdir, -⟩ := chdir_spec root fuel hp hr path
  obtain ⟨ret, proc'', hchdir', hret, -⟩ := h proc hp
  obtain ⟨rfl, -⟩ := Prod.mk.inj (some.inj (hchdir.symm.trans hchdir'))
  exact hret.1 rfl

lemma proper_of_answers {t : State} (hready : ∀ proc ∈ s, proc.Ready)
    (ht : step root (fuel + 1) s e = some t) (hanswers : Answers root (fuel + 1) s e)
    (hconsistent : ∀ proc ∈ t, Tied root proc) : Proper root s e := by
  cases e with
  | chdir p path =>
    intro proc hp
    have hr := hready proc (mem_of_getElem? hp)
    obtain ⟨proc', hchdir, hcases⟩ := chdir_spec root fuel hp hr path
    obtain ⟨node, hnode, hdir⟩ := hr.resolves_iff.1 (resolves_of_answers hp hr hanswers)
    rcases hcases with ⟨hnone, -⟩ | ⟨node', hnode', rfl⟩
    · cases hnone.symm.trans hnode
    rw [step, hchdir] at ht
    cases ht
    have hlt : p < s.length := (List.getElem?_eq_some_iff.1 hp).1
    obtain ⟨habs, -⟩ := hconsistent _ (mem_set hlt _)
    rw [Vfs.lookup, View.lookup, if_pos habs] at hnode
    exact ⟨habs, node, hnode, hdir⟩
  | getcwd p outSize =>
    intro proc hp
    obtain ⟨path, hreport, -⟩ := hanswers proc hp
    rw [stringIn_strncpy (hready proc (mem_of_getElem? hp)).text] at hreport
    by_contra hlen
    rw [if_neg hlen] at hreport
    cases hreport
  | create => trivial
  | fork father => trivial
  | lookup p path => trivial

/-- Every sequence of calls returns, and path and node agree with right answers all
along exactly if every `chdir` is to an absolute path of a directory and every buffer
for `getcwd` is long enough. -/
theorem working_directory_iff (root : Node) (fuel : ℕ) (events : List Event) :
    (∃ s, exec (step root (fuel + 1)) [] events = some s) ∧
      ((Always (step root (fuel + 1)) (Consistent root (fuel + 1)) [] events ∧
          Meets (step root (fuel + 1)) (Answers root (fuel + 1)) [] events) ↔
        Meets (step root (fuel + 1)) (Proper root) [] events) := by
  have hinit : ∀ proc ∈ ([] : State), proc.Ready := by simp
  have hready : Always (step root (fuel + 1)) (fun s => ∀ proc ∈ s, proc.Ready) [] events :=
    always_of_step (fun _ _ _ h ht => ready_step h ht) hinit events
  refine ⟨?_, ?_, ?_⟩
  · refine exec_of_meets (I := fun s => ∀ proc ∈ s, proc.Ready) (G := fun _ _ => True)
      (fun s e h _ => ?_) hinit fun _ _ _ _ _ => trivial
    obtain ⟨t, ht, -⟩ := step_spec h e
    exact ⟨t, ht, ready_step h ht⟩
  · rintro ⟨hconsistent, hanswers⟩ pre e hp s hs
    have hr := hready pre ((prefix_append _ _).trans hp) s hs
    obtain ⟨t, ht, -⟩ := step_spec hr e
    have hc := hconsistent (pre ++ [e]) hp t (exec_concat hs ht)
    exact proper_of_answers hr ht (hanswers pre e hp s hs)
      ((consistent_iff (ready_step hr ht)).1 hc)
  · intro h
    have hboth : Always (step root (fuel + 1))
        (fun s => (∀ proc ∈ s, proc.Ready) ∧ ∀ proc ∈ s, Tied root proc) [] events := by
      refine always_of_meets (fun s e t hs hg ht => ?_) ⟨hinit, by simp⟩ h
      obtain ⟨t', ht', horigin⟩ := step_spec hs.1 e
      obtain rfl : t' = t := some.inj (ht'.symm.trans ht)
      exact ⟨ready_step hs.1 ht, fun proc hproc => (horigin proc hproc).tied hs.2 hg⟩
    constructor
    · exact hboth.mono fun s hs => (consistent_iff hs.1).2 hs.2
    · exact h.mono hboth fun s e hs hproper => Tied.answers hs.1 hs.2 hproper

/-- A relative path is stored as it is, and a change to a file or to nothing is
answered with 0. -/
theorem working_directory_relative :
    ¬Always (step sampleRoot 1) (Consistent sampleRoot 1) [] [.create, .chdir 0 ['a']] ∧
      ¬Meets (step sampleRoot 1) (Answers sampleRoot 1) [] [.create, .chdir 0 ['/', 'x']] ∧
      ¬Meets (step sampleRoot 1) (Answers sampleRoot 1) []
        [.create, .chdir 0 ['/', 'a', '/', 'f']] := by
  refine ⟨fun h => ?_, fun h => ?_, fun h => ?_⟩
  · have hrun : exec (step sampleRoot 1) [] [.create, .chdir 0 ['a']] =
        some [⟨['a'], some sampleDirectory⟩] := rfl
    obtain ⟨habs, -⟩ := h.last hrun _ (mem_singleton.2 rfl)
    cases habs
  · have hanswer := h [.create] _ prefix_rfl [.new] rfl
    obtain ⟨_, node, hlookup, -⟩ := resolves_of_answers rfl .new hanswer
    cases hlookup
  · have hanswer := h [.create] _ prefix_rfl [.new] rfl
    obtain ⟨_, node, hlookup, hdir⟩ := resolves_of_answers rfl .new hanswer
    cases hlookup
    cases hdir

end GzOS.WorkingDirectory
