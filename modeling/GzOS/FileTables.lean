import GzOS.Bindings
import GzOS.Pipe
import GzOS.RefCount

/-!
# Descriptor tables and the ends of a pipe

A descriptor table maps numbers to shared pointers. An entry goes away by `close`, by a
`dup` onto its number or with its process, and the destructor of a pipe descriptor
closes its end. So an end is closed exactly when no table has an entry for it. The close
in `remove_filedescriptor` is never asked for.
-/
namespace GzOS.Files
open Runs RefCount List Option
open Pipe (Direction)

/-- One end of a pipe, or something else. -/
inductive Kind
  | pipeEnd (pipe : ℕ) (direction : Direction)
  | other
  deriving DecidableEq, Repr

structure Kernel where
  heap : Heap Kind := []
  pipes : List Pipe.State := []

def isClosed (p : Pipe.State) : Direction → Bool
  | .read => p.readClosed
  | .write => p.writeClosed

def Kernel.closed (k : Kernel) (p : ℕ) (direction : Direction) : Bool :=
  (k.pipes[p]?.map fun pipe => isClosed pipe direction).getD false

def Kernel.close (k : Kernel) : Kind → Kernel
  | .pipeEnd p direction =>
    { k with pipes := k.pipes.modify p fun pipe => Pipe.close pipe direction }
  | .other => k

/-- The last shared pointer destroys the descriptor. -/
def Kernel.release (k : Kernel) (d : ℕ) : Kernel :=
  match k.heap.dropped d with
  | some kind => { k with heap := k.heap.release d }.close kind
  | none => { k with heap := k.heap.release d }

def Kernel.acquire (k : Kernel) (d : ℕ) : Kernel := { k with heap := k.heap.acquire d }

def Kernel.alloc (k : Kernel) (kind : Kind) : Kernel := { k with heap := k.heap.alloc kind }

abbrev FdTable := AList fun _ : ℤ => ℕ

@[irreducible] def maxFd : ℕ := 1024

def allocateFd (t : FdTable) : Option ℤ :=
  ((range maxFd).find? fun fd : ℕ => (t.lookup (fd : ℤ)).isNone).map Int.ofNat

/-- It is destroyed when the table is full. -/
def pushFiledescriptor (k : Kernel) (t : FdTable) (d : ℕ) : Kernel × FdTable :=
  match allocateFd t with
  | none => (k.release d, t)
  | some fd => (k, t.insert fd d)

def removeFiledescriptor (k : Kernel) (t : FdTable) (fd : ℤ) (close : Bool) : Kernel × FdTable :=
  match t.lookup fd with
  | none => (k, t)
  | some d =>
    let k₁ := if close then ((k.heap.value d).map k.close).getD k else k
    (k₁.release d, t.erase fd)

def vfsClose (k : Kernel) (t : FdTable) (fd : ℤ) : Kernel × FdTable :=
  removeFiledescriptor k t fd false

def pointers (t : FdTable) : List ℕ := t.entries.map fun e => e.2

def closeAll (k : Kernel) (t : FdTable) : Kernel × FdTable :=
  ((pointers t).foldl Kernel.release k, ∅)

/-- The assignment takes its new value before it gives up the old one. -/
def duplicate (k : Kernel) (t : FdTable) (oldFd newFd : ℤ) : Kernel × FdTable :=
  match t.lookup oldFd with
  | none => (k, t)
  | some d =>
    match t.lookup newFd with
    | none => (k.acquire d, t.insert newFd d)
    | some d' => ((k.acquire d).release d', t.insert newFd d)

def copyTable (k : Kernel) (t : FdTable) : Kernel := (pointers t).foldl Kernel.acquire k

/-- `Pipe::create`, then the two pushes of the system call. -/
def pipe (k : Kernel) (t : FdTable) : Kernel × FdTable :=
  let p := k.pipes.length
  let d := k.heap.length
  let k₀ : Kernel := { k with pipes := k.pipes ++ [({} : Pipe.State)] }
  let k₁ := (k₀.alloc (.pipeEnd p .read)).alloc (.pipeEnd p .write)
  let r := pushFiledescriptor k₁ t d
  pushFiledescriptor r.1 r.2 (d + 1)

/-- A process is its table, `none` once it is destroyed. -/
structure State where
  kernel : Kernel := {}
  procs : List (Option FdTable) := []

inductive Event
  | spawn
  /-- A descriptor that is no pipe. -/
  | openFile (pid : ℕ)
  | pipe (pid : ℕ)
  | dup (pid : ℕ) (oldFd newFd : ℤ)
  | close (pid : ℕ) (fd : ℤ)
  /-- `cloned` says whether the thread of the child could be made. -/
  | fork (pid : ℕ) (cloned : Bool)
  | destroy (pid : ℕ)

def State.table (s : State) (pid : ℕ) : Option FdTable := (s.procs[pid]?).join

def State.update (s : State) (pid : ℕ) (f : Kernel → FdTable → Kernel × FdTable) : Option State :=
  (s.table pid).map fun t =>
    let r := f s.kernel t
    { kernel := r.1, procs := s.procs.set pid (some r.2) }

/-- The copy of a table goes to the new process, or away again. -/
def State.fork (s : State) (pid : ℕ) (cloned : Bool) : Option State :=
  (s.table pid).map fun t =>
    let k := copyTable s.kernel t
    if cloned then { kernel := k, procs := s.procs ++ [some t] }
    else { s with kernel := (closeAll k t).1 }

def State.destroy (s : State) (pid : ℕ) : Option State :=
  (s.table pid).map fun t =>
    { kernel := (closeAll s.kernel t).1, procs := s.procs.set pid none }

def step (s : State) : Event → Option State
  | .spawn => some { s with procs := s.procs ++ [some ∅] }
  | .openFile pid => s.update pid fun k t => pushFiledescriptor (k.alloc .other) t k.heap.length
  | .pipe pid => s.update pid pipe
  | .dup pid oldFd newFd => s.update pid fun k t => duplicate k t oldFd newFd
  | .close pid fd => s.update pid fun k t => vfsClose k t fd
  | .fork pid cloned => s.fork pid cloned
  | .destroy pid => s.destroy pid

def State.Refers (s : State) (p : ℕ) (direction : Direction) : Prop :=
  ∃ pid t fd d, s.table pid = some t ∧ t.lookup fd = some d ∧
    s.kernel.heap.value d = some (.pipeEnd p direction)

/-- An end of a pipe is closed exactly when no process has a descriptor for it. -/
def EndsTracked (s : State) : Prop :=
  ∀ p direction, p < s.kernel.pipes.length →
    (s.kernel.closed p direction = true ↔ ¬ s.Refers p direction)

/-! The kernel and the owners of its descriptors. -/

/-- The counts fit the owners; every end has one descriptor object and is closed exactly
when that has no owner. -/
structure Inv (k : Kernel) (owners : List ℕ) : Prop where
  counted : Counted k.heap owners
  home : ∀ p direction, p < k.pipes.length → ∃ d, k.heap.value d = some (.pipeEnd p direction)
  unique : ∀ d d' p direction, k.heap.value d = some (.pipeEnd p direction) →
    k.heap.value d' = some (.pipeEnd p direction) → d = d'
  closed : ∀ d p direction, k.heap.value d = some (.pipeEnd p direction) →
    p < k.pipes.length ∧ (k.closed p direction = true ↔ d ∉ owners)

variable {k : Kernel} {owners owners' : List ℕ} {d : ℕ}

lemma Inv.perm (h : Inv k owners) (hp : owners.Perm owners') : Inv k owners' where
  counted := h.counted.perm hp
  home := h.home
  unique := h.unique
  closed d p direction hd := by
    rw [← hp.mem_iff]
    exact h.closed d p direction hd

lemma Inv.acquire (h : Inv k owners) (hd : d ∈ owners) : Inv (k.acquire d) (d :: owners) where
  counted := h.counted.acquire hd
  home p direction hp := by
    simpa [Kernel.acquire] using h.home p direction hp
  unique := by
    simpa [Kernel.acquire] using h.unique
  closed e p direction he := by
    have hmem : e ∈ d :: owners ↔ e ∈ owners := by
      rw [mem_cons, or_iff_right_of_imp]
      rintro rfl
      exact hd
    rw [hmem]
    exact h.closed e p direction (by simpa [Kernel.acquire] using he)

lemma closed_close (k : Kernel) {p : ℕ} (hp : p < k.pipes.length) (direction : Direction) (q : ℕ)
    (direction' : Direction) :
    (k.close (.pipeEnd p direction)).closed q direction' =
      if p = q ∧ direction = direction' then true else k.closed q direction' := by
  simp only [Kernel.close, Kernel.closed, getElem?_modify]
  by_cases hpq : p = q
  · subst hpq
    rw [getElem?_eq_getElem hp]
    cases direction <;> cases direction' <;> simp [Pipe.close, isClosed]
  · cases k.pipes[q]? <;> simp [hpq]

@[simp] lemma heap_close (k : Kernel) (kind : Kind) : (k.close kind).heap = k.heap := by
  cases kind <;> rfl

@[simp] lemma length_pipes_close (k : Kernel) (kind : Kind) :
    (k.close kind).pipes.length = k.pipes.length := by
  cases kind <;> simp [Kernel.close]

@[simp] lemma heap_release (k : Kernel) (d : ℕ) : (k.release d).heap = k.heap.release d := by
  unfold Kernel.release
  split <;> simp

@[simp] lemma length_pipes_release (k : Kernel) (d : ℕ) :
    (k.release d).pipes.length = k.pipes.length := by
  unfold Kernel.release
  split <;> simp

lemma closed_release (h : Inv k owners) (hd : d ∈ owners) {e p : ℕ} {direction : Direction}
    (he : k.heap.value e = some (.pipeEnd p direction)) :
    (k.release d).closed p direction ↔ e ∉ owners.erase d := by
  obtain ⟨hp, hclosed⟩ := h.closed e p direction he
  have hdrop := h.counted.dropped hd
  by_cases hlast : d ∈ owners.erase d
  · rw [if_pos hlast] at hdrop
    have hsame : (k.release d).closed p direction = k.closed p direction := by
      simp [Kernel.release, hdrop, Kernel.closed]
    rw [hsame, hclosed, not_iff_not]
    by_cases hed : e = d
    · subst hed
      exact iff_of_true hd hlast
    · exact (mem_erase_of_ne hed).symm
  · rw [if_neg hlast] at hdrop
    by_cases hed : e = d
    · subst hed
      rw [he] at hdrop
      have hset : (k.release e).closed p direction := by
        rw [Kernel.release, hdrop]
        exact (closed_close { k with heap := k.heap.release e } hp direction p direction).trans
          (if_pos ⟨rfl, rfl⟩)
      exact iff_of_true hset hlast
    · rw [mem_erase_of_ne hed, ← hclosed]
      unfold Kernel.release
      rw [hdrop]
      cases hv : k.heap.value d with
      | none => rfl
      | some kind =>
        cases kind with
        | other => rfl
        | pipeEnd q direction' =>
          obtain ⟨hq, _⟩ := h.closed d q direction' hv
          have hset := closed_close { k with heap := k.heap.release d } hq direction' p direction
          have hne : ¬ (q = p ∧ direction' = direction) := by
            rintro ⟨rfl, rfl⟩
            exact hed (h.unique e d q direction' he hv)
          rw [if_neg hne] at hset
          exact Iff.of_eq (congrArg (· = true) hset)

lemma Inv.release (h : Inv k owners) (hd : d ∈ owners) : Inv (k.release d) (owners.erase d) where
  counted := by
    rw [heap_release]
    exact h.counted.release d
  home p direction hp := by
    simpa using h.home p direction (by simpa using hp)
  unique := by
    simpa using h.unique
  closed e p direction he := by
    have he' : k.heap.value e = some (.pipeEnd p direction) := by simpa using he
    exact ⟨by simpa using (h.closed e p direction he').1, closed_release h hd he'⟩

lemma Inv.release_cons (h : Inv k (d :: owners)) : Inv (k.release d) owners := by
  simpa using h.release mem_cons_self

lemma Inv.allocOther (h : Inv k owners) : Inv (k.alloc .other) (k.heap.length :: owners) where
  counted := h.counted.alloc .other
  home p direction hp := by
    obtain ⟨d, hd⟩ := h.home p direction hp
    exact ⟨d, (Heap.value_alloc_of_lt (Heap.lt_of_value hd)).trans hd⟩
  unique d d' p direction hd hd' := by
    rcases Heap.value_alloc_cases hd with hd | ⟨_, hk⟩
    · rcases Heap.value_alloc_cases hd' with hd' | ⟨_, hk⟩
      · exact h.unique d d' p direction hd hd'
      · cases hk
    · cases hk
  closed d p direction hd := by
    rcases Heap.value_alloc_cases hd with hd | ⟨_, hk⟩
    · have hne : d ≠ k.heap.length := (Heap.lt_of_value hd).ne
      rw [mem_cons, or_iff_right hne]
      exact h.closed d p direction hd
    · cases hk

def Kernel.newPipe (k : Kernel) : Kernel :=
  (Kernel.alloc { k with pipes := k.pipes ++ [({} : Pipe.State)] }
    (.pipeEnd k.pipes.length .read)).alloc (.pipeEnd k.pipes.length .write)

lemma closed_newPipe_of_lt {p : ℕ} (hp : p < k.pipes.length) (direction : Direction) :
    k.newPipe.closed p direction = k.closed p direction := by
  simp [Kernel.closed, Kernel.newPipe, Kernel.alloc, getElem?_append_left hp]

lemma closed_newPipe_length (k : Kernel) (direction : Direction) :
    k.newPipe.closed k.pipes.length direction = false := by
  cases direction <;> simp [Kernel.closed, Kernel.newPipe, Kernel.alloc, isClosed]

lemma value_newPipe_cases {kind : Kind} (hd : k.newPipe.heap.value d = some kind) :
    k.heap.value d = some kind ∨ (d = k.heap.length ∧ kind = .pipeEnd k.pipes.length .read) ∨
      (d = k.heap.length + 1 ∧ kind = .pipeEnd k.pipes.length .write) := by
  rcases Heap.value_alloc_cases hd with hd | ⟨rfl, hk⟩
  · rcases Heap.value_alloc_cases hd with hd | hd
    · exact .inl hd
    · exact .inr (.inl hd)
  · exact .inr (.inr ⟨by simp [Kernel.alloc, Heap.alloc], hk⟩)

lemma value_newPipe_read (k : Kernel) :
    k.newPipe.heap.value k.heap.length = some (.pipeEnd k.pipes.length .read) := by
  refine (Heap.value_alloc_of_lt ?_).trans (Heap.value_alloc_length k.heap _)
  simp [Kernel.alloc, Heap.alloc]

lemma value_newPipe_write (k : Kernel) :
    k.newPipe.heap.value (k.heap.length + 1) = some (.pipeEnd k.pipes.length .write) := by
  simp [Kernel.newPipe, Kernel.alloc, Heap.alloc, Heap.value]

lemma length_pipes_newPipe (k : Kernel) : k.newPipe.pipes.length = k.pipes.length + 1 := by
  simp [Kernel.newPipe, Kernel.alloc]

/-- Two new objects, each with one owner. -/
lemma Inv.newPipe (h : Inv k owners) :
    Inv k.newPipe ((k.heap.length + 1) :: k.heap.length :: owners) where
  counted := by
    have hc := (h.counted.alloc (.pipeEnd k.pipes.length .read)).alloc
      (.pipeEnd k.pipes.length .write)
    have hlen : (k.heap.alloc (.pipeEnd k.pipes.length .read)).length = k.heap.length + 1 := by
      simp [Heap.alloc]
    rw [hlen] at hc
    exact hc
  home p direction hp := by
    rw [length_pipes_newPipe] at hp
    by_cases hlt : p < k.pipes.length
    · obtain ⟨d, hd⟩ := h.home p direction hlt
      have hlt := Heap.lt_of_value hd
      refine ⟨d, (Heap.value_alloc_of_lt ?_).trans ((Heap.value_alloc_of_lt hlt).trans hd)⟩
      simp only [Kernel.alloc, Heap.alloc, length_append]
      omega
    · obtain rfl : p = k.pipes.length := by omega
      cases direction with
      | read => exact ⟨_, value_newPipe_read k⟩
      | write => exact ⟨_, value_newPipe_write k⟩
  unique d d' p direction hd hd' := by
    have hnew : ∀ {e}, k.heap.value e = some (.pipeEnd p direction) → p ≠ k.pipes.length :=
      fun he => (h.closed _ p direction he).1.ne
    rcases value_newPipe_cases hd with hd | ⟨rfl, hk⟩ | ⟨rfl, hk⟩ <;>
      rcases value_newPipe_cases hd' with hd' | ⟨rfl, hk'⟩ | ⟨rfl, hk'⟩
    · exact h.unique d d' p direction hd hd'
    · exact absurd (Kind.pipeEnd.inj hk').1 (hnew hd)
    · exact absurd (Kind.pipeEnd.inj hk').1 (hnew hd)
    · exact absurd (Kind.pipeEnd.inj hk).1 (hnew hd')
    · rfl
    · exact absurd ((Kind.pipeEnd.inj hk).2.symm.trans (Kind.pipeEnd.inj hk').2) (by decide)
    · exact absurd (Kind.pipeEnd.inj hk).1 (hnew hd')
    · exact absurd ((Kind.pipeEnd.inj hk).2.symm.trans (Kind.pipeEnd.inj hk').2) (by decide)
    · rfl
  closed d p direction hd := by
    rw [length_pipes_newPipe]
    rcases value_newPipe_cases hd with hd | ⟨rfl, hk⟩ | ⟨rfl, hk⟩
    · obtain ⟨hp, hclosed⟩ := h.closed d p direction hd
      have hlt := Heap.lt_of_value hd
      have hmem : d ∈ (k.heap.length + 1) :: k.heap.length :: owners ↔ d ∈ owners := by
        rw [mem_cons, mem_cons, or_iff_right (by omega), or_iff_right (by omega)]
      rw [closed_newPipe_of_lt hp, hclosed, hmem]
      exact ⟨by omega, Iff.rfl⟩
    · obtain ⟨rfl, rfl⟩ := Kind.pipeEnd.inj hk
      exact ⟨by omega, by simp [closed_newPipe_length]⟩
    · obtain ⟨rfl, rfl⟩ := Kind.pipeEnd.inj hk
      exact ⟨by omega, by simp [closed_newPipe_length]⟩

/-! The operations of one table, next to the owners elsewhere. -/

variable {t : FdTable} {fd : ℤ} {rest : List ℕ}

lemma pointers_insert (t : FdTable) (fd : ℤ) (d : ℕ) :
    pointers (t.insert fd d) = d :: pointers (t.erase fd) := rfl

lemma mem_pointers (hl : t.lookup fd = some d) : d ∈ pointers t := Bindings.mem_values.2 ⟨fd, hl⟩

lemma pointers_perm (hl : t.lookup fd = some d) : (pointers t).Perm (d :: pointers (t.erase fd)) :=
  Bindings.values_perm hl

lemma allocateFd_free (h : allocateFd t = some fd) : t.lookup fd = none := by
  obtain ⟨n, hn, rfl⟩ := map_eq_some_iff.1 h
  have hfree := find?_some hn
  exact isNone_iff_eq_none.1 hfree

lemma Inv.push (h : Inv k (d :: (pointers t ++ rest))) :
    Inv (pushFiledescriptor k t d).1 (pointers (pushFiledescriptor k t d).2 ++ rest) := by
  unfold pushFiledescriptor
  split
  · exact h.release_cons
  · next fd hfd =>
    simp only [pointers_insert, Bindings.erase_of_lookup_none (allocateFd_free hfd)]
    exact h

lemma Inv.duplicate (h : Inv k (pointers t ++ rest)) (oldFd newFd : ℤ) :
    Inv (duplicate k t oldFd newFd).1 (pointers (duplicate k t oldFd newFd).2 ++ rest) := by
  unfold Files.duplicate
  cases hold : t.lookup oldFd with
  | none => exact h
  | some d =>
    have hacq := h.acquire (mem_append_left rest (mem_pointers hold))
    cases hnew : t.lookup newFd with
    | none =>
      simp only [pointers_insert, Bindings.erase_of_lookup_none hnew]
      exact hacq
    | some d' =>
      -- the entry that is overwritten comes to the front of the owners
      have hperm := (((pointers_perm hnew).append_right rest).cons d).trans (List.Perm.swap d' d _)
      exact (hacq.perm hperm).release_cons

lemma Inv.releaseAll {l : List ℕ} (h : Inv k (l ++ rest)) :
    Inv (l.foldl Kernel.release k) rest := by
  induction l generalizing k with
  | nil => exact h
  | cons d l ih => exact ih h.release_cons

lemma Inv.acquireAll {l : List ℕ} (h : Inv k owners) (hl : ∀ d ∈ l, d ∈ owners) :
    Inv (l.foldl Kernel.acquire k) (l ++ owners) := by
  induction l generalizing k owners with
  | nil => exact h
  | cons d l ih =>
    have hacq := h.acquire (hl d mem_cons_self)
    have hrest := ih hacq fun e he => mem_cons_of_mem d (hl e (mem_cons_of_mem d he))
    exact hrest.perm perm_middle

lemma Inv.pipe (h : Inv k (pointers t ++ rest)) :
    Inv (pipe k t).1 (pointers (pipe k t).2 ++ rest) := by
  have hnew := h.newPipe.perm (List.Perm.swap _ _ _)
  -- the write end waits among the other owners while the read end is pushed
  have hread := hnew.perm (List.Perm.cons _ perm_middle.symm)
  exact Inv.push (hread.push.perm perm_middle)

/-! All tables together. -/

def State.allPointers (s : State) : List ℕ := s.procs.flatMap fun o => o.elim [] pointers

variable {s s' : State} {pid : ℕ}

lemma table_eq (h : s.table pid = some t) : s.procs[pid]? = some (some t) := by
  unfold State.table at h
  cases hp : s.procs[pid]? with
  | none => simp [hp] at h
  | some o => simpa [hp] using h

lemma allPointers_split (h : s.table pid = some t) :
    ∃ rest, s.allPointers.Perm (pointers t ++ rest) ∧ ∀ k o,
      (State.allPointers ⟨k, s.procs.set pid o⟩).Perm (o.elim [] pointers ++ rest) := by
  obtain ⟨hlt, hget⟩ := List.getElem?_eq_some_iff.1 (table_eq h)
  let before := (s.procs.take pid).flatMap fun o => o.elim [] pointers
  let after := (s.procs.drop (pid + 1)).flatMap fun o => o.elim [] pointers
  refine ⟨before ++ after, ?_, fun k o => ?_⟩
  · have hsplit : s.procs = s.procs.take pid ++ some t :: s.procs.drop (pid + 1) := by
      rw [← hget, getElem_cons_drop, take_append_drop]
    rw [State.allPointers, hsplit, flatMap_append]
    exact perm_append_comm_assoc before (pointers t) after
  · rw [State.allPointers, set_eq_take_append_cons_drop, if_pos hlt, flatMap_append]
    exact perm_append_comm_assoc before _ after

lemma inv_update {f : Kernel → FdTable → Kernel × FdTable} (h : Inv s.kernel s.allPointers)
    (hf : ∀ k t rest, Inv k (pointers t ++ rest) → Inv (f k t).1 (pointers (f k t).2 ++ rest))
    (hs : s.update pid f = some s') : Inv s'.kernel s'.allPointers := by
  obtain ⟨t, ht, rfl⟩ := map_eq_some_iff.1 hs
  obtain ⟨rest, hold, hnew⟩ := allPointers_split ht
  exact (hf s.kernel t rest (h.perm hold)).perm (hnew _ (some (f s.kernel t).2)).symm

lemma mem_allPointers (h : s.table pid = some t) (hd : d ∈ pointers t) : d ∈ s.allPointers :=
  mem_flatMap.2 ⟨some t, mem_of_getElem? (table_eq h), hd⟩

lemma inv_fork {s s' : State} {pid : ℕ} {cloned : Bool} (h : Inv s.kernel s.allPointers)
    (hs : s.fork pid cloned = some s') : Inv s'.kernel s'.allPointers := by
  obtain ⟨t, ht, rfl⟩ := map_eq_some_iff.1 hs
  have hcopy := h.acquireAll fun d hd => mem_allPointers ht hd
  cases cloned with
  | true =>
    refine hcopy.perm ?_
    simp only [if_true, State.allPointers, flatMap_append, flatMap_singleton]
    exact perm_append_comm
  | false => exact hcopy.releaseAll

lemma inv_step {ev : Event} (h : Inv s.kernel s.allPointers) (hs : step s ev = some s') :
    Inv s'.kernel s'.allPointers := by
  cases ev with
  | spawn =>
    cases hs
    simpa [State.allPointers, pointers] using h
  | openFile pid =>
    exact inv_update h (fun k t rest hk => hk.allocOther.push) hs
  | pipe pid => exact inv_update h (fun k t rest hk => hk.pipe) hs
  | dup pid oldFd newFd => exact inv_update h (fun k t rest hk => hk.duplicate oldFd newFd) hs
  | close pid fd =>
    refine inv_update (f := fun k t => vfsClose k t fd) h (fun k t rest hk => ?_) hs
    unfold vfsClose removeFiledescriptor
    cases hl : t.lookup fd with
    | none => exact hk
    | some d => exact (hk.perm ((pointers_perm hl).append_right rest)).release_cons
  | fork pid cloned => exact inv_fork h hs
  | destroy pid =>
    obtain ⟨t, ht, rfl⟩ := map_eq_some_iff.1 hs
    obtain ⟨rest, hold, hnew⟩ := allPointers_split ht
    exact (h.perm hold).releaseAll.perm (hnew _ none).symm

lemma endsTracked_of_inv (h : Inv s.kernel s.allPointers) : EndsTracked s := by
  intro p direction hp
  obtain ⟨d, hd⟩ := h.home p direction hp
  rw [(h.closed d p direction hd).2, not_iff_not]
  constructor
  · intro hmem
    obtain ⟨o, ho, hdo⟩ := mem_flatMap.1 hmem
    cases o with
    | none => cases hdo
    | some t =>
      obtain ⟨pid, hpid⟩ := mem_iff_getElem?.mp ho
      obtain ⟨e, he, rfl⟩ := mem_map.1 hdo
      exact ⟨pid, t, e.1, e.2, by simp [State.table, hpid], AList.mem_lookup_iff.2 he, hd⟩
  · rintro ⟨pid, t, fd, d', ht, hl, hd'⟩
    obtain rfl := h.unique d d' p direction hd hd'
    exact mem_allPointers ht (mem_pointers hl)

/-- In every state of every run an end of a pipe is closed exactly when no table
of any process refers to it. -/
theorem pipe_end_lifetime (events : List Event) : Always step EndsTracked {} events := by
  have hstart : Inv ({} : State).kernel ({} : State).allPointers := by
    refine ⟨⟨nofun, nofun⟩, nofun, nofun, nofun⟩
  exact (always_of_step (fun _ _ _ hi hs => inv_step hi hs) hstart events).mono
    fun _ hi => endsTracked_of_inv hi

/-- A `dup` of the read end over the write end closes the write end. -/
example :
    ((exec step {} [.spawn, .pipe 0, .fork 0 true, .destroy 1, .dup 0 0 1]).map fun s =>
      (s.kernel.closed 0 .read, s.kernel.closed 0 .write)) = some (false, true) := by
  decide +kernel

/-- In every run the counts fit the entries of the tables, files and pipe ends alike. -/
theorem references_counted (events : List Event) :
    Always step (fun s => Inv s.kernel s.allPointers) {} events :=
  always_of_step (fun _ _ _ hi hs => inv_step hi hs)
    ⟨⟨by simp [State.allPointers], by simp⟩, by simp, by simp [Heap.value], by simp [Heap.value]⟩
    events

end GzOS.Files
