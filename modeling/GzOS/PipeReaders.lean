import GzOS.Pipe

/-!
# Many readers of one pipe

`Pipe::read` tests for an empty buffer in one locked section and copies in
another, where it asserts that there is something to copy. A size of zero fails
the assertion, and so does a reader whose bytes another one took in between.
-/
namespace GzOS.Pipe
open Runs Function

/-- The field `reader` of the pipe stands for the one that has moved last. -/
structure Shared where
  pipe : State := {}
  readers : ℕ → ReadPc := fun _ => .idle

/-- An event of the pipe; if it is one of a reader, of that one. -/
structure SharedEvent where
  reader : ℕ
  event : Event

def Shared.focus (s : Shared) (r : ℕ) : State := { s.pipe with reader := s.readers r }

def sharedStep (s : Shared) (e : SharedEvent) : Option Shared :=
  (step (s.focus e.reader) e.event).map fun pipe =>
    { pipe := pipe, readers := update s.readers e.reader pipe.reader }

/-- Whichever reader gets the lock, it has bytes to copy. -/
def CopiesBytes (s : Shared) : Prop :=
  ∀ r size, s.readers r = .locking size → s.pipe.buffer.take size ≠ []

/-- The read is for at least one byte. -/
def ReadPc.Asks : ReadPc → Prop
  | .idle => True
  | .entered size | .testing size | .foundEmpty size | .waiting size | .leftLoop size
  | .locking size => size ≠ 0

/-- Past its test of the buffer, the reader will go on to its copy. -/
def ReadPc.Tested (writeClosed : Bool) : ReadPc → Prop
  | .leftLoop _ => writeClosed = false
  | .locking _ => True
  | _ => False

/-- A read is for at least one byte, and no copy empties a buffer that another reader has
found filled. -/
def Unraced (s : Shared) (e : SharedEvent) : Prop :=
  (∀ size, e.event = .read size → size ≠ 0) ∧
    (e.event = .advanceReader → ∀ size, s.readers e.reader = .locking size →
      s.pipe.buffer.length ≤ size → ∀ r, r ≠ e.reader → ¬ (s.readers r).Tested s.pipe.writeClosed)

/-- What a reader may rely on. -/
structure Served (s : State) (pc : ReadPc) : Prop where
  asks : pc.Asks
  data : pc.Tested s.writeClosed → s.buffer ≠ []

structure Keeps (s s' : State) : Prop where
  closed : s.writeClosed = true → s'.writeClosed = true
  data : (∀ size, s.reader = .locking size → ¬ s.buffer.length ≤ size) →
    s.buffer ≠ [] → s'.buffer ≠ []

variable {s s' : State} {e : Event} {pc : ReadPc}

lemma Keeps.tested (hk : Keeps s s') (ht : pc.Tested s'.writeClosed) :
    pc.Tested s.writeClosed := by
  cases pc with
  | leftLoop size =>
    have hopen : s'.writeClosed = false := ht
    refine Bool.eq_false_iff.2 fun hc => ?_
    simp [hk.closed hc] at hopen
  | _ => exact ht

lemma Served.keep (h : Served s pc) (hk : Keeps s s')
    (hdata : s.buffer ≠ [] → s'.buffer ≠ []) : Served s' pc :=
  ⟨h.asks, fun ht => hdata (h.data (hk.tested ht))⟩

lemma advanceReader_served (h : Served s s.reader) (hs : advanceReader s = some s') :
    Served s' s'.reader ∧ Keeps s s' := by
  unfold advanceReader at hs
  obtain ⟨hasks, hdata⟩ := h
  cases hpc : s.reader with
  | idle =>
    rw [hpc] at hs
    cases hs
  | locking size =>
    rw [hpc] at hs
    obtain ⟨-, rfl⟩ := lockedRead_spec hs
    refine ⟨⟨trivial, False.elim⟩, id, fun hrest _ => ?_⟩
    exact mt List.drop_eq_nil_iff.1 (hrest size hpc)
  | waiting size =>
    rw [hpc] at hs hasks
    cases hs
    exact ⟨⟨hasks, False.elim⟩, id, fun _ => id⟩
  | entered size | testing size | foundEmpty size | leftLoop size =>
    rw [hpc] at hs hasks hdata
    cases hs
    refine ⟨?_, ?_⟩
    · split_ifs with hc <;> constructor <;> simp_all [ReadPc.Asks, ReadPc.Tested]
    · split_ifs <;> exact ⟨id, fun _ => id⟩

lemma advanceWriter_keeps {w : ℕ} (hs : advanceWriter s w = some s') :
    s'.reader = s.reader ∧ s'.writeClosed = s.writeClosed ∧ (s.buffer ≠ [] → s'.buffer ≠ []) := by
  unfold advanceWriter at hs
  split at hs
  · cases hs
  all_goals cases hs
  case h_5 bytes _ =>
    refine ⟨rfl, rfl, fun hne => ?_⟩
    simp [setWriter, lockedWrite, hne]
  all_goals exact ⟨rfl, rfl, id⟩

lemma step_served (h : Served s s.reader) (he : ∀ size, e = .read size → size ≠ 0)
    (hs : step s e = some s') : Served s' s'.reader ∧ Keeps s s' ∧
      (e ≠ .advanceReader → s.buffer ≠ [] → s'.buffer ≠ []) := by
  cases e with
  | read size =>
    simp only [step] at hs
    split_ifs at hs
    cases hs
    exact ⟨⟨he size rfl, False.elim⟩, ⟨id, fun _ => id⟩, fun _ => id⟩
  | advanceReader =>
    obtain ⟨hserved, hkeeps⟩ := advanceReader_served h hs
    exact ⟨hserved, hkeeps, fun hne => absurd rfl hne⟩
  | write w bytes =>
    simp only [step] at hs
    split_ifs at hs
    cases hs
    exact ⟨⟨h.asks, h.data⟩, ⟨id, fun _ => id⟩, fun _ => id⟩
  | advanceWriter w =>
    obtain ⟨hreader, hclosed, hdata⟩ := advanceWriter_keeps hs
    have hkeeps : Keeps s s' := ⟨fun hc => hclosed.trans hc, fun _ => hdata⟩
    exact ⟨hreader ▸ h.keep hkeeps hdata, hkeeps, fun _ => hdata⟩
  | close direction =>
    cases hs
    cases direction with
    | read => exact ⟨⟨h.asks, h.data⟩, ⟨id, fun _ => id⟩, fun _ => id⟩
    | write =>
      have hkeeps : Keeps s (close s .write) := ⟨fun _ => rfl, fun _ => id⟩
      exact ⟨h.keep hkeeps id, hkeeps, fun _ => id⟩

lemma sharedStep_served {s s' : Shared} {e : SharedEvent}
    (h : ∀ r, Served s.pipe (s.readers r)) (hu : Unraced s e) (hs : sharedStep s e = some s')
    (r : ℕ) : Served s'.pipe (s'.readers r) := by
  obtain ⟨pipe, hstep, rfl⟩ := Option.map_eq_some_iff.1 hs
  have hfocus (r : ℕ) : Served (s.focus e.reader) (s.readers r) := ⟨(h r).asks, (h r).data⟩
  obtain ⟨hown, hkeeps, hdata⟩ := step_served (hfocus e.reader) hu.1 hstep
  by_cases hr : r = e.reader
  · simp only [hr, update_self]
    exact hown
  simp only [update_of_ne hr]
  refine ⟨(h r).asks, fun ht => ?_⟩
  have htested := hkeeps.tested ht
  have hfound := (h r).data htested
  by_cases hev : e.event = .advanceReader
  · -- a copy leaves something for this reader
    exact hkeeps.data (fun size hpc hle => hu.2 hev size hpc hle r hr htested) hfound
  · exact hdata hev hfound

instance (closed : Bool) : ∀ pc : ReadPc, Decidable (pc.Tested closed)
  | .leftLoop _ => inferInstanceAs (Decidable (closed = false))
  | .locking _ => isTrue trivial
  | .idle | .entered _ | .testing _ | .foundEmpty _ | .waiting _ => isFalse id

/-- The condition as a test, for the readers below `n`. -/
def unracedBelow (n : ℕ) (s : Shared) (e : SharedEvent) : Bool :=
  decide (e.reader < n) && match e.event, s.readers e.reader with
    | .read size, _ => size != 0
    | .advanceReader, .locking size => decide (s.pipe.buffer.length ≤ size → ∀ r < n,
        r ≠ e.reader → ¬ (s.readers r).Tested s.pipe.writeClosed)
    | _, _ => true

lemma meets_of_unracedBelow {s : Shared} {events : List SharedEvent} (n : ℕ)
    (hidle : ∀ r, n ≤ r → s.readers r = .idle)
    (h : Meets sharedStep (fun s e => unracedBelow n s e = true) s events) :
    Meets sharedStep Unraced s events := by
  induction events generalizing s with
  | nil => exact meets_nil _ _ _
  | cons e rest ih =>
    obtain ⟨hfirst, hrest⟩ := meets_cons.1 h
    obtain ⟨hlt, htest⟩ := Bool.and_eq_true_iff.1 hfirst
    refine meets_cons.2 ⟨⟨fun size he => ?_, fun he size hpc hle r hne htested => ?_⟩,
      fun t hs => ih ?_ (hrest t hs)⟩
    · simpa [he] using htest
    · simp only [he, hpc, decide_eq_true_eq] at htest
      refine htest hle r (Nat.lt_of_not_le fun hn => ?_) hne htested
      rw [hidle r hn] at htested
      exact htested
    · obtain ⟨pipe, -, rfl⟩ := Option.map_eq_some_iff.1 hs
      intro r hn
      exact (update_of_ne (by have := of_decide_eq_true hlt; omega) _ _).trans (hidle r hn)

/-- In every run of any number of readers, writers and closes in which no read is
for zero bytes and no copy takes the last bytes from a reader that has found them,
every reader that gets to its copy has bytes to copy. -/
theorem pipe_reads_copy_bytes (events : List SharedEvent)
    (h : Meets sharedStep Unraced {} events) : Always sharedStep CopiesBytes {} events := by
  have hstart : ∀ r, Served ({} : Shared).pipe (({} : Shared).readers r) :=
    fun _ => ⟨trivial, False.elim⟩
  refine (always_of_meets (fun _ _ _ hi hg hs => sharedStep_served hi hg hs) hstart h).mono
    fun s hi r size hpc hnil => ?_
  obtain ⟨hasks, hdata⟩ := hi r
  rw [hpc] at hasks hdata
  rcases List.take_eq_nil_iff.1 hnil with hzero | hempty
  · exact hasks hzero
  · exact hdata trivial hempty

/-- A byte is written, and reader `r` comes as far as its copy. -/
def oneByte : List SharedEvent :=
  [⟨0, .write 0 [7]⟩, ⟨0, .advanceWriter 0⟩, ⟨0, .advanceWriter 0⟩, ⟨0, .advanceWriter 0⟩]

def readUpTo (r size : ℕ) : List SharedEvent :=
  [⟨r, .read size⟩, ⟨r, .advanceReader⟩, ⟨r, .advanceReader⟩, ⟨r, .advanceReader⟩]

/-- Two readers that have both found two bytes, and take one each. -/
theorem pipe_reads_copy_bytes_two :
    Always sharedStep CopiesBytes {} (oneByte ++ oneByte ++ readUpTo 0 1 ++ readUpTo 1 1 ++
      [⟨0, .advanceReader⟩, ⟨1, .advanceReader⟩]) := by
  refine pipe_reads_copy_bytes _ (meets_of_unracedBelow 2 (fun _ _ => rfl) ?_)
  exact meets_of_check (by decide +kernel)

/-- A read of zero bytes gets to its copy with nothing to copy, and so does the second
of two readers that have found the same byte. -/
theorem pipe_reads_assert :
    ¬ Always sharedStep CopiesBytes {} (oneByte ++ readUpTo 0 0) ∧
      ¬ Always sharedStep CopiesBytes {}
        (oneByte ++ readUpTo 0 1 ++ readUpTo 1 1 ++ [⟨0, .advanceReader⟩]) := by
  refine ⟨fun h => ?_, fun h => ?_⟩
  · obtain ⟨t, ht⟩ : ∃ t, exec sharedStep {} (oneByte ++ readUpTo 0 0) = some t := ⟨_, rfl⟩
    exact h.last ht 0 0 (by cases ht; rfl) rfl
  · obtain ⟨t, ht⟩ : ∃ t, exec sharedStep {}
        (oneByte ++ readUpTo 0 1 ++ readUpTo 1 1 ++ [⟨0, .advanceReader⟩]) = some t := ⟨_, rfl⟩
    exact h.last ht 1 1 (by cases ht; rfl) (by cases ht; rfl)

end GzOS.Pipe
