import Mathlib.Order.Bounds.Defs
import GzOS.FileTables

/-!
# The numbers of descriptors

`push_filedescriptor` takes the least unused number below its limit. `dup` inserts whatever
number it is given, and the `pipe` system call does not look at what its two pushes return.
-/
namespace GzOS.Files
open Runs List

def freeFds (t : FdTable) : Set ℤ := {fd | 0 ≤ fd ∧ fd < maxFd ∧ t.lookup fd = none}

/-- What `push_filedescriptor` returns; `INVALID_FD` is `-1`. -/
def pushResult (t : FdTable) : ℤ := (allocateFd t).getD (-1)

variable {s s' : State} {t : FdTable} {pid : ℕ}

lemma push_cases (k : Kernel) (t : FdTable) (d : ℕ) :
    (pushResult t = -1 ∧ freeFds t = ∅ ∧ pushFiledescriptor k t d = (k.release d, t)) ∨
      IsLeast (freeFds t) (pushResult t) ∧
        pushFiledescriptor k t d = (k, t.insert (pushResult t) d) := by
  unfold pushResult pushFiledescriptor
  cases h : allocateFd t with
  | none =>
    refine .inl ⟨rfl, Set.eq_empty_of_forall_notMem ?_, rfl⟩
    rintro fd ⟨hge, hlt, hnone⟩
    lift fd to ℕ using hge
    have hused := find?_range_eq_none.1 (Option.map_eq_none_iff.1 h) fd (by simpa using hlt)
    simp [hnone] at hused
  | some fd =>
    obtain ⟨n, hn, rfl⟩ := Option.map_eq_some_iff.1 h
    obtain ⟨hfree, hlt, hbefore⟩ := find?_range_eq_some.1 hn
    refine .inr ⟨⟨⟨by simp, by simpa using hlt, by simpa using hfree⟩, ?_⟩, rfl⟩
    rintro fd ⟨hge, -, hnone⟩
    lift fd to ℕ using hge
    by_contra hlt
    simpa [hnone] using hbefore fd (by simpa using hlt)

/-! One system call. -/

lemma mem_freeFds_insert {fd fd' : ℤ} {d : ℕ} :
    fd' ∈ freeFds (t.insert fd d) ↔ fd' ≠ fd ∧ fd' ∈ freeFds t := by
  by_cases h : fd' = fd
  · simp [h, freeFds]
  · simp [h, freeFds]

structure PipeCall where
  result : ℤ
  fds : Option (ℤ × ℤ) := none
  kernel : Kernel
  table : FdTable

/-- The system call. `fds` says whether the pointer is set and `created` whether
`Pipe::create` gave two descriptors. -/
def pipeSyscall (fds created : Bool) (k : Kernel) (t : FdTable) : PipeCall :=
  if fds = false ∨ created = false then { result := -1, kernel := k, table := t }
  else
    { result := 0
      fds := some (pushResult t, pushResult (pushFiledescriptor k.newPipe t k.heap.length).2)
      kernel := (pipe k t).1
      table := (pipe k t).2 }

def PipeCall.refers (r : PipeCall) (fd : ℤ) (kind : Kind) : Prop :=
  0 ≤ fd ∧ fd < maxFd ∧ (r.table.lookup fd).bind r.kernel.heap.value = some kind

/-- Two numbers for the two ends of a new pipe, or a failure that leaves the table. -/
def AllOrNothing (k : Kernel) (t : FdTable) (r : PipeCall) : Prop :=
  r.result ≠ 0 ∧ r.table = t ∨ r.result = 0 ∧ ∃ a b, r.fds = some (a, b) ∧ a ≠ b ∧
    r.refers a (.pipeEnd k.pipes.length .read) ∧ r.refers b (.pipeEnd k.pipes.length .write) ∧
    ∀ fd, fd ≠ a → fd ≠ b → r.table.lookup fd = t.lookup fd

lemma pipe_two_free {k : Kernel} (h : (freeFds t).Nontrivial) :
    AllOrNothing k t (pipeSyscall true true k t) := by
  obtain ⟨-, hnone, -⟩ | ⟨hread, hfst⟩ := push_cases k.newPipe t k.heap.length
  · exact absurd hnone h.nonempty.ne_empty
  obtain ⟨c, hc, hne⟩ := h.exists_ne (pushResult t)
  obtain ⟨-, hnone, -⟩ | ⟨hwrite, hsnd⟩ :=
    push_cases k.newPipe (t.insert (pushResult t) k.heap.length) (k.heap.length + 1)
  · exact absurd hnone (Set.nonempty_of_mem (mem_freeFds_insert.2 ⟨hne, hc⟩)).ne_empty
  have hpipe : pipe k t = pushFiledescriptor (pushFiledescriptor k.newPipe t k.heap.length).1
    (pushFiledescriptor k.newPipe t k.heap.length).2 (k.heap.length + 1) := rfl
  rw [hfst, hsnd] at hpipe
  obtain ⟨hab, hb⟩ := mem_freeFds_insert.1 hwrite.1
  refine .inr ⟨rfl, _, _, rfl, ?_, ?_, ?_, ?_⟩ <;>
    simp only [pipeSyscall, hpipe, hfst, reduceCtorEq, or_self, if_false]
  · exact hab.symm
  · refine ⟨hread.1.1, hread.1.2.1, ?_⟩
    rw [AList.lookup_insert_ne hab.symm, AList.lookup_insert]
    exact value_newPipe_read k
  · refine ⟨hb.1, hb.2.1, ?_⟩
    rw [AList.lookup_insert]
    exact value_newPipe_write k
  · intro fd ha hb
    rw [AList.lookup_insert_ne hb, AList.lookup_insert_ne ha]

lemma two_free_of_pipe {k : Kernel} (h : AllOrNothing k t (pipeSyscall true true k t)) :
    (freeFds t).Nontrivial := by
  obtain ⟨hne, -⟩ | ⟨-, a, b, hfds, -, ha, hb, -⟩ := h
  · exact absurd rfl hne
  obtain ⟨rfl, rfl⟩ := Prod.mk.inj (Option.some.inj hfds)
  obtain ⟨he, -⟩ | ⟨hread, hfst⟩ := push_cases k.newPipe t k.heap.length
  · exact absurd ha.1 (by rw [he]; decide)
  rw [hfst] at hb
  obtain ⟨he, -⟩ | ⟨hwrite, -⟩ := push_cases k (t.insert (pushResult t) k.heap.length) 0
  · exact absurd hb.1 (by rw [he]; decide)
  obtain ⟨hab, hb⟩ := mem_freeFds_insert.1 hwrite.1
  exact ⟨_, hread.1, _, hb, hab.symm⟩

/-- With fewer than two numbers left the call returns 0 all the same. -/
theorem pipe_allOrNothing_iff (fds created : Bool) (k : Kernel) (t : FdTable) :
    AllOrNothing k t (pipeSyscall fds created k t) ↔
      (fds → created → (freeFds t).Nontrivial) := by
  by_cases hfail : fds = false ∨ created = false
  · refine iff_of_true (.inl ?_) (by grind)
    simp [pipeSyscall, hfail]
  · obtain ⟨rfl, rfl⟩ : fds ∧ created = true := by simpa using hfail
    exact ⟨fun h _ _ => two_free_of_pipe h, fun h => pipe_two_free (h rfl rfl)⟩

def nearlyFull : FdTable := ((range 1023).map fun n => (⟨n, 0⟩ : Σ _ : ℤ, ℕ)).toAList

/-- With one number left the read end takes it and `-1` is stored for the write end. -/
theorem pipe_stores_invalid :
    ¬ AllOrNothing {} nearlyFull (pipeSyscall true true {} nearlyFull) := by
  have hlast : ∀ fd ∈ freeFds nearlyFull, fd = 1023 := by
    rintro fd ⟨hge, hlt, hnone⟩
    lift fd to ℕ using hge
    rw [nearlyFull, AList.lookup_to_alist, dlookup_eq_none] at hnone
    have hout : ¬ fd < 1023 := by simpa [keys] using hnone
    simp only [maxFd] at hlt
    omega
  intro h
  obtain ⟨a, ha, b, hb, hne⟩ := two_free_of_pipe h
  exact hne ((hlast a ha).trans (hlast b hb).symm)

/-! Runs of system calls. -/

def Bounded (t : FdTable) : Prop := ∀ fd ∈ t, 0 ≤ fd ∧ fd < maxFd

def InRange (s : State) : Prop := ∀ t, some t ∈ s.procs → Bounded t

/-- A `dup` of a descriptor in use is asked for a number below the limit. -/
def DupBounded (s : State) : Event → Prop
  | .dup pid oldFd newFd =>
    ∀ t, s.table pid = some t → oldFd ∈ t → 0 ≤ newFd ∧ newFd < maxFd
  | _ => True

/-- The entries behind a push and behind a `dup` of a descriptor in use. -/
def Numbered (s : State) : Event → Prop
  | .openFile pid => ∀ t, s.table pid = some t →
    ∃ t', (step s (.openFile pid)).bind (·.table pid) = some t' ∧
      ((pushResult t = -1 ∧ freeFds t = ∅ ∧ t' = t) ∨
        IsLeast (freeFds t) (pushResult t) ∧ t' = t.insert (pushResult t) s.kernel.heap.length)
  | .dup pid oldFd newFd => ∀ t d, s.table pid = some t → t.lookup oldFd = some d →
    (step s (.dup pid oldFd newFd)).bind (·.table pid) = some (t.insert newFd d)
  | _ => True

lemma table_update (h : s.table pid = some t) (f : Kernel → FdTable → Kernel × FdTable) :
    (s.update pid f).bind (·.table pid) = some (f s.kernel t).2 := by
  have hlt := (List.getElem?_eq_some_iff.1 (table_eq h)).1
  unfold State.update
  rw [h]
  simp [State.table, hlt]

lemma snd_duplicate {d : ℕ} {oldFd : ℤ} (h : t.lookup oldFd = some d) (k : Kernel) (newFd : ℤ) :
    (duplicate k t oldFd newFd).2 = t.insert newFd d := by
  simp only [duplicate, h]
  split <;> rfl

lemma numbered (s : State) (ev : Event) : Numbered s ev := by
  cases ev with
  | openFile pid =>
    intro t ht
    refine ⟨_, table_update ht fun k t => pushFiledescriptor (k.alloc .other) t k.heap.length, ?_⟩
    obtain ⟨he, hnone, hp⟩ | ⟨hleast, hp⟩ :=
      push_cases (s.kernel.alloc .other) t s.kernel.heap.length
    · exact .inl ⟨he, hnone, by rw [hp]⟩
    · exact .inr ⟨hleast, by rw [hp]⟩
  | dup pid oldFd newFd =>
    intro t d ht hd
    exact (table_update ht fun k t => duplicate k t oldFd newFd).trans
      (congrArg some (snd_duplicate hd s.kernel newFd))
  | _ => trivial

lemma Bounded.insert (h : Bounded t) {fd : ℤ} (hfd : 0 ≤ fd ∧ fd < maxFd) (d : ℕ) :
    Bounded (t.insert fd d) := by
  intro fd' hmem
  obtain rfl | hmem := (AList.mem_insert t).1 hmem
  · exact hfd
  · exact h fd' hmem

lemma Bounded.push (h : Bounded t) (k : Kernel) (d : ℕ) :
    Bounded (pushFiledescriptor k t d).2 := by
  obtain ⟨-, -, hp⟩ | ⟨hleast, hp⟩ := push_cases k t d
  · rwa [hp]
  · rw [hp]
    exact h.insert ⟨hleast.1.1, hleast.1.2.1⟩ d

lemma inRange_update (h : InRange s) {f : Kernel → FdTable → Kernel × FdTable}
    (hs : s.update pid f = some s')
    (hf : ∀ t, s.table pid = some t → Bounded t → Bounded (f s.kernel t).2) : InRange s' := by
  obtain ⟨t, ht, rfl⟩ := Option.map_eq_some_iff.1 hs
  intro t' ht'
  obtain hmem | he := mem_or_eq_of_mem_set ht'
  · exact h t' hmem
  · cases he
    exact hf t ht (h t (mem_of_getElem? (table_eq ht)))

lemma inRange_step {ev : Event} (h : InRange s) (hdup : DupBounded s ev)
    (hs : step s ev = some s') : InRange s' := by
  cases ev with
  | spawn =>
    cases hs
    simpa [InRange, or_imp, forall_and, Bounded] using h
  | openFile pid =>
    rw [step] at hs
    exact inRange_update h hs fun t _ ht => ht.push _ _
  | pipe pid => exact inRange_update h hs fun t _ ht => (ht.push _ _).push _ _
  | dup pid oldFd newFd =>
    rw [step] at hs
    refine inRange_update h hs fun t ht hb => ?_
    cases hd : t.lookup oldFd with
    | none => simpa only [duplicate, hd] using hb
    | some d =>
      rw [snd_duplicate hd]
      exact hb.insert (hdup t ht (AList.lookup_isSome.1 (by simp [hd]))) d
  | close pid fd =>
    rw [step] at hs
    refine inRange_update h hs fun t _ hb => ?_
    unfold vfsClose removeFiledescriptor
    split
    · exact hb
    · exact fun fd' hmem => hb fd' (AList.mem_erase.1 hmem).2
  | fork pid cloned =>
    obtain ⟨t, ht, rfl⟩ := Option.map_eq_some_iff.1 hs
    cases cloned with
    | false => exact h
    | true =>
      have hb := h t (mem_of_getElem? (table_eq ht))
      simpa [InRange, or_imp, forall_and, hb] using h
  | destroy pid =>
    obtain ⟨t, ht, rfl⟩ := Option.map_eq_some_iff.1 hs
    intro t' ht'
    obtain hmem | he := mem_or_eq_of_mem_set ht'
    · exact h t' hmem
    · cases he

/-- In every run whose `dup` calls stay below the limit. -/
theorem descriptor_numbers (events : List Event) (h : Meets step DupBounded {} events) :
    Always step InRange {} events ∧ Meets step Numbered {} events :=
  ⟨always_of_meets (fun _ _ _ hi hg hs => inRange_step hi hg hs) (by simp [InRange]) h,
    fun _ ev _ s _ => numbered s ev⟩

/-- A copy above the first number, and a file after the first one is closed. -/
theorem descriptor_numbers_sample :
    Always step InRange {}
      [.spawn, .openFile 0, .dup 0 0 9, .fork 0 true, .close 0 0, .openFile 0] := by
  refine (descriptor_numbers _ fun pre ev hp s _ => ?_).1
  have hmem := hp.subset (mem_append_right pre mem_cons_self)
  simp only [mem_cons, not_mem_nil, or_false] at hmem
  obtain rfl | rfl | rfl | rfl | rfl | rfl := hmem
  case inr.inr.inl => exact fun _ _ _ => by simp [maxFd]
  all_goals trivial

/-- A `dup` to 1024 puts that number into the table. -/
theorem dup_beyond_limit : ¬ Always step InRange {} [.spawn, .openFile 0, .dup 0 0 1024] := by
  intro h
  have hrun : ((exec step {} [.spawn, .openFile 0, .dup 0 0 1024]).bind (·.table 0)).map
      (fun t => t.lookup 1024) = some (some 0) := by decide +kernel
  obtain ⟨t, ht, hl⟩ := Option.map_eq_some_iff.1 hrun
  obtain ⟨s, hs, ht⟩ := Option.bind_eq_some_iff.1 ht
  have hkey := h.last hs t (mem_of_getElem? (table_eq ht)) 1024
    (AList.lookup_isSome.1 (by simp [hl]))
  simp [maxFd] at hkey

end GzOS.Files
