import GzOS.CTypes
import GzOS.Runs
import Mathlib.Tactic

/-!
# The byte stream of a pipe

Any number of writers append to the buffer, one reader takes from its front, each under the
mutex. `read` waits while the buffer is empty and the write end is open, and then returns
zero if the write end is closed, whatever is buffered. So the end of the file comes too
early exactly when the write end is closed while bytes are buffered that the read under way
does not take. A waiting thread may go on at any time.
-/
namespace GzOS.Pipe
open Runs List

def pipeMaxSize : ℕ := 1 * 1024 * 1024

inductive ReadPc
  | idle
  /-- Before the test of `_readClosed`. -/
  | entered (size : ℕ)
  /-- At `isBufferEmptySafe`. -/
  | testing (size : ℕ)
  /-- The buffer was empty; before the test of `_writeClosed`. -/
  | foundEmpty (size : ℕ)
  | waiting (size : ℕ)
  /-- Behind the loop, before the test of `_writeClosed`. -/
  | leftLoop (size : ℕ)
  | locking (size : ℕ)
  deriving DecidableEq, Repr

inductive WritePc
  | idle
  /-- Before the test of the two flags. -/
  | entered (bytes : List Byte)
  /-- At `isBufferFullSafe`. -/
  | testing (bytes : List Byte)
  | waiting (bytes : List Byte)
  | locking (bytes : List Byte)
  deriving DecidableEq, Repr

inductive Direction
  | read
  | write
  deriving DecidableEq, Repr

/-- `written` and `returned` are the bytes of successful calls, `atClose` what was written
before the close, `eof` whether a read of non-zero size returned zero. -/
structure State where
  buffer : List Byte := []
  readClosed : Bool := false
  writeClosed : Bool := false
  reader : ReadPc := .idle
  writers : ℕ → WritePc := fun _ => .idle
  written : List Byte := []
  returned : List Byte := []
  atClose : List Byte := []
  eof : Bool := false

inductive Event
  | read (size : ℕ)
  | advanceReader
  | write (w : ℕ) (bytes : List Byte)
  | advanceWriter (w : ℕ)
  | close (direction : Direction)

/-- An empty copy fails the assertion. -/
def lockedRead (s : State) (size : ℕ) : Option State :=
  let bytes := s.buffer.take size
  if bytes = [] then none
  else
    some { s with
      buffer := s.buffer.drop size
      reader := .idle
      returned := s.returned ++ bytes }

def advanceReader (s : State) : Option State :=
  match s.reader with
  | .idle => none
  | .entered size =>
    some (if s.readClosed then { s with reader := .idle } else { s with reader := .testing size })
  | .testing size =>
    some { s with reader := if s.buffer = [] then .foundEmpty size else .leftLoop size }
  | .foundEmpty size =>
    some { s with reader := if s.writeClosed then .leftLoop size else .waiting size }
  | .waiting size => some { s with reader := .testing size }
  | .leftLoop size =>
    some (if s.writeClosed then { s with reader := .idle, eof := s.eof || decide (size ≠ 0) }
      else { s with reader := .locking size })
  | .locking size => lockedRead s size

def lockedWrite (s : State) (bytes : List Byte) : State :=
  { s with buffer := s.buffer ++ bytes, written := s.written ++ bytes }

def setWriter (s : State) (w : ℕ) (pc : WritePc) : State :=
  { s with writers := Function.update s.writers w pc }

def advanceWriter (s : State) (w : ℕ) : Option State :=
  match s.writers w with
  | .idle => none
  | .entered bytes =>
    some (setWriter s w (if s.writeClosed || s.readClosed then .idle else .testing bytes))
  | .testing bytes =>
    some (setWriter s w (if s.buffer.length ≥ pipeMaxSize then .waiting bytes else .locking bytes))
  | .waiting bytes => some (setWriter s w (.testing bytes))
  | .locking bytes => some (setWriter (lockedWrite s bytes) w .idle)

/-- The first close of the write end is the one that counts. -/
def close (s : State) : Direction → State
  | .read => { s with readClosed := true }
  | .write =>
    { s with
      writeClosed := true
      atClose := if s.writeClosed then s.atClose else s.written }

def step (s : State) : Event → Option State
  | .read size => if s.reader = .idle then some { s with reader := .entered size } else none
  | .advanceReader => advanceReader s
  | .write w bytes => if s.writers w = .idle then some (setWriter s w (.entered bytes)) else none
  | .advanceWriter w => advanceWriter s w
  | .close direction => some (close s direction)

def ReadPc.underWay : ReadPc → Bool
  | .testing size | .foundEmpty size | .waiting size | .leftLoop size => decide (size ≠ 0)
  | _ => false

/-- The reader will copy at least `n` bytes or fail its assertion. -/
def ReadPc.takes (n : ℕ) : ReadPc → Bool
  | .locking size => decide (size = 0 ∨ n ≤ size)
  | _ => false

/-- Nothing is buffered, or the reader is about to take it, or no read can return zero any
more. -/
def SafeClose (s : State) : Prop :=
  s.buffer = [] ∨ s.reader.takes s.buffer.length = true ∨
    (s.readClosed = true ∧ s.reader.underWay = false)

def Guard (s : State) : Event → Prop
  | .close .write => s.writeClosed = false → SafeClose s
  | _ => True

instance (s : State) : Decidable (SafeClose s) := inferInstanceAs (Decidable (_ ∨ _ ∨ _))

instance (s : State) (ev : Event) : Decidable (Guard s ev) := by
  unfold Guard
  split <;> infer_instance

def EofComplete (s : State) : Prop := s.eof = true → s.writeClosed = true ∧ s.atClose <+: s.returned

/-- Reads give the written bytes in order, and an end of file comes after all of them. -/
def PipeStream (s : State) : Prop := s.returned <+: s.written ∧ EofComplete s

/-! The stream is conserved, in every run. -/

/-- What was written was read or is buffered; the close came somewhere in it. -/
structure Conserved (s : State) : Prop where
  stream : s.written = s.returned ++ s.buffer
  atClose : s.atClose <+: s.written

variable {s s' : State} {size : ℕ}

lemma conserved_setWriter (h : Conserved s) (w : ℕ) (pc : WritePc) :
    Conserved (setWriter s w pc) := ⟨h.stream, h.atClose⟩

lemma conserved_lockedWrite (h : Conserved s) (bytes : List Byte) :
    Conserved (lockedWrite s bytes) where
  stream := by simp [lockedWrite, h.stream]
  atClose := h.atClose.trans (prefix_append _ _)

lemma lockedRead_spec (hs : lockedRead s size = some s') :
    s.buffer.take size ≠ [] ∧ s' = { s with
      buffer := s.buffer.drop size, reader := .idle,
      returned := s.returned ++ s.buffer.take size } := by
  unfold lockedRead at hs
  dsimp only at hs
  split_ifs at hs with hne
  exact ⟨hne, (Option.some.inj hs).symm⟩

lemma conserved_advanceReader (h : Conserved s) (hs : advanceReader s = some s') :
    Conserved s' := by
  unfold advanceReader at hs
  split at hs
  case h_1 => cases hs
  case h_7 =>
    obtain ⟨_, rfl⟩ := lockedRead_spec hs
    exact ⟨by simp [h.stream], h.atClose⟩
  all_goals
    cases hs
    try split_ifs
    all_goals exact ⟨h.stream, h.atClose⟩

lemma conserved_advanceWriter {w : ℕ} (h : Conserved s) (hs : advanceWriter s w = some s') :
    Conserved s' := by
  unfold advanceWriter at hs
  split at hs
  · cases hs
  · cases hs
    exact conserved_setWriter h w _
  · cases hs
    exact conserved_setWriter h w _
  · cases hs
    exact conserved_setWriter h w _
  · cases hs
    exact conserved_setWriter (conserved_lockedWrite h _) w _

lemma conserved_step {ev : Event} (h : Conserved s) (hs : step s ev = some s') :
    Conserved s' := by
  cases ev with
  | read size =>
    simp only [step] at hs
    split_ifs at hs
    cases hs
    exact ⟨h.stream, h.atClose⟩
  | advanceReader => exact conserved_advanceReader h hs
  | write w bytes =>
    simp only [step] at hs
    split_ifs at hs
    cases hs
    exact conserved_setWriter h w _
  | advanceWriter w => exact conserved_advanceWriter h hs
  | close direction =>
    cases hs
    cases direction with
    | read => exact ⟨h.stream, h.atClose⟩
    | write =>
      refine ⟨h.stream, ?_⟩
      simp only [close]
      split_ifs
      · exact h.atClose
      · exact prefix_rfl

/-- The order of the bytes needs no condition. -/
theorem returned_prefix_written (events : List Event) :
    Always step (fun s => s.returned <+: s.written) {} events := by
  have hstart : Conserved {} := ⟨rfl, prefix_rfl⟩
  exact (always_of_step (fun _ _ _ h hs => conserved_step h hs) hstart events).mono
    fun _ h => h.stream ▸ prefix_append _ _

/-! The end of the file, in runs with safe closes. -/

/-- What was written before the close was read, or is about to be, or no read will return
zero. -/
def Ending (s : State) : Prop :=
  s.writeClosed = true → s.atClose.length ≤ s.returned.length ∨
    s.reader.takes (s.atClose.length - s.returned.length) = true ∨
    (s.readClosed = true ∧ s.reader.underWay = false)

structure Inv (s : State) : Prop where
  conserved : Conserved s
  ending : Ending s
  eof : EofComplete s

lemma Inv.goto (h : Inv s) {pc : ReadPc} (htakes : ∀ n, s.reader.takes n → pc.takes n)
    (hway : s.readClosed → pc.underWay → s.reader.underWay) :
    Inv { s with reader := pc } := by
  refine ⟨⟨h.conserved.stream, h.conserved.atClose⟩, fun hclosed => ?_, h.eof⟩
  rcases h.ending hclosed with hread | htake | ⟨hrc, hnot⟩
  · exact .inl hread
  · exact .inr (.inl (htakes _ htake))
  · refine .inr (.inr ⟨hrc, ?_⟩)
    by_contra hpc
    simp [hway hrc (by simpa using hpc)] at hnot

lemma inv_lockedRead (h : Inv s) (hpc : s.reader = .locking size)
    (hs : lockedRead s size = some s') : Inv s' := by
  have hcons : Conserved s' := conserved_advanceReader h.conserved (by
    rw [advanceReader, hpc]
    exact hs)
  obtain ⟨hne, rfl⟩ := lockedRead_spec hs
  have hsize : size ≠ 0 := by
    rintro rfl
    exact hne take_zero
  refine ⟨hcons, fun hclosed => ?_, fun heof => ?_⟩
  · -- the copy takes at least what was written before the close
    rcases h.ending hclosed with hread | htake | hrc
    · exact .inl (hread.trans (by simp))
    · left
      simp only [hpc, ReadPc.takes, decide_eq_true_eq] at htake
      have hlen := h.conserved.atClose.length_le
      rw [h.conserved.stream, length_append] at hlen
      simp only [length_append, length_take]
      omega
    · exact .inr (.inr ⟨hrc.1, rfl⟩)
  · obtain ⟨hclosed, hall⟩ := h.eof heof
    exact ⟨hclosed, hall.trans (prefix_append _ _)⟩

lemma inv_advanceReader (h : Inv s) (hs : advanceReader s = some s') : Inv s' := by
  unfold advanceReader at hs
  split at hs
  · cases hs
  · next size hpc =>
    cases hs
    split_ifs with hrc
    · exact h.goto (by simp [hpc, ReadPc.takes]) (by simp [ReadPc.underWay])
    · exact h.goto (by simp [hpc, ReadPc.takes]) fun hrc' => absurd hrc' hrc
  · next size hpc =>
    cases hs
    refine h.goto (by simp [hpc, ReadPc.takes]) fun _ hway => ?_
    split_ifs at hway <;> simpa [hpc, ReadPc.underWay] using hway
  · next size hpc =>
    cases hs
    refine h.goto (by simp [hpc, ReadPc.takes]) fun _ hway => ?_
    split_ifs at hway <;> simpa [hpc, ReadPc.underWay] using hway
  · next size hpc =>
    cases hs
    exact h.goto (by simp [hpc, ReadPc.takes]) (by simp [hpc, ReadPc.underWay])
  · next size hpc =>
    cases hs
    split_ifs with hclosed
    · have hgo : Inv { s with reader := .idle } :=
        h.goto (by simp [hpc, ReadPc.takes]) (by simp [ReadPc.underWay])
      refine ⟨⟨h.conserved.stream, h.conserved.atClose⟩, hgo.ending, fun heof => ?_⟩
      simp only [Bool.or_eq_true] at heof
      rcases heof with heof | hsize
      · exact h.eof heof
      · -- here the read returns zero: of the three cases only the first is possible
        refine ⟨hclosed, prefix_of_prefix_length_le h.conserved.atClose
    (h.conserved.stream ▸ prefix_append _ _) ?_⟩
        have hend := h.ending hclosed
        simpa [hpc, ReadPc.takes, ReadPc.underWay, hsize] using hend
    · refine ⟨⟨h.conserved.stream, h.conserved.atClose⟩, fun hc => absurd hc hclosed, h.eof⟩
  · next size hpc => exact inv_lockedRead h hpc hs

lemma inv_advanceWriter {w : ℕ} (h : Inv s) (hs : advanceWriter s w = some s') : Inv s' := by
  have hcons := conserved_advanceWriter h.conserved hs
  unfold advanceWriter at hs
  split at hs
  · cases hs
  all_goals
    cases hs
    exact ⟨hcons, h.ending, h.eof⟩

lemma inv_close (h : Inv s) (direction : Direction) (hg : Guard s (.close direction)) :
    Inv (close s direction) := by
  have hstep : step s (.close direction) = some (close s direction) := rfl
  have hcons := conserved_step h.conserved hstep
  cases direction with
  | read =>
    refine ⟨hcons, fun hclosed => ?_, h.eof⟩
    rcases h.ending hclosed with hread | htake | ⟨_, hnot⟩
    · exact .inl hread
    · exact .inr (.inl htake)
    · exact .inr (.inr ⟨rfl, hnot⟩)
  | write =>
    cases hclosed : s.writeClosed with
    | true =>
      have hsame : close s .write = s := by
        cases s
        simp_all [close]
      rw [hsame]
      exact h
    | false =>
      have hat : (close s .write).atClose = s.written := by simp [close, hclosed]
      refine ⟨hcons, fun _ => ?_, fun heof => absurd (h.eof heof).1 (by simp [hclosed])⟩
      rw [hat, h.conserved.stream]
      rcases hg hclosed with hempty | htake | hrc
      · exact .inl (by simp [hempty, close])
      · refine .inr (.inl ?_)
        simpa [close] using htake
      · exact .inr (.inr hrc)

lemma inv_step {ev : Event} (h : Inv s) (hg : Guard s ev) (hs : step s ev = some s') :
    Inv s' := by
  cases ev with
  | read size =>
    simp only [step] at hs
    split_ifs at hs with hidle
    cases hs
    exact h.goto (by simp [hidle, ReadPc.takes]) (by simp [ReadPc.underWay])
  | advanceReader => exact inv_advanceReader h hs
  | write w bytes =>
    have hcons := conserved_step h.conserved hs
    simp only [step] at hs
    split_ifs at hs
    cases hs
    exact ⟨hcons, h.ending, h.eof⟩
  | advanceWriter w => exact inv_advanceWriter h hs
  | close direction =>
    cases hs
    exact inv_close h direction hg

/-- In every run in which the write end is closed safely, reads return a prefix of
what was written, and zero only after all of it. -/
theorem pipe_stream (events : List Event) (h : Meets step Guard {} events) :
    Always step PipeStream {} events := by
  have hstart : Inv {} := ⟨⟨rfl, prefix_rfl⟩, nofun, nofun⟩
  exact (always_of_meets (fun _ _ _ hi hg hs => inv_step hi hg hs) hstart h).mono
    fun _ hi => ⟨hi.conserved.stream ▸ prefix_append _ _, hi.eof⟩

/-- Some continuation returns zero too early. -/
def Early (s : State) : Prop := ∃ events t, exec step s events = some t ∧ ¬ EofComplete t

lemma Early.step {e : Event} (hs : step s e = some s') (h : Early s') : Early s := by
  obtain ⟨events, t, ht, hn⟩ := h
  exact ⟨e :: events, t, exec_cons_some.2 ⟨s', hs, ht⟩, hn⟩

structure Unread (s : State) : Prop where
  closed : s.writeClosed = true
  buffer : s.buffer ≠ []
  stream : s.atClose = s.returned ++ s.buffer

lemma Unread.not_complete (h : Unread s) (heof : s.eof) : ¬ EofComplete s := by
  intro hc
  have hlen := (hc heof).2.length_le
  rw [h.stream, length_append] at hlen
  exact h.buffer (eq_nil_of_length_eq_zero (by omega))

lemma Unread.idle (h : Unread s) (hpc : s.reader = .idle) (hopen : s.readClosed = false) :
    Early s := by
  refine ⟨[.read 1, .advanceReader, .advanceReader, .advanceReader],
    { s with reader := .idle, eof := true }, ?_, ?_⟩
  · simp [exec, Pipe.step, advanceReader, hpc, hopen, h.buffer, h.closed]
  · exact Unread.not_complete ⟨h.closed, h.buffer, h.stream⟩ rfl

/-- The reader leaves its loop and returns; if it was to read nothing, the next read does. -/
lemma Unread.looping (h : Unread s) (hopen : size = 0 → s.readClosed = false)
    (hpc : s.reader = .testing size ∨ s.reader = .foundEmpty size ∨ s.reader = .waiting size ∨
      s.reader = .leftLoop size) : Early s := by
  have hleft : Early { s with reader := .leftLoop size } := by
    have hs : Pipe.step { s with reader := .leftLoop size } .advanceReader =
        some { s with reader := .idle, eof := s.eof || decide (size ≠ 0) } := by
      simp [Pipe.step, advanceReader, h.closed]
    refine Early.step hs ?_
    by_cases hsize : size = 0
    · exact Unread.idle ⟨h.closed, h.buffer, h.stream⟩ rfl (hopen hsize)
    · exact ⟨[], _, rfl, Unread.not_complete ⟨h.closed, h.buffer, h.stream⟩ (by simp [hsize])⟩
  have htest : Early { s with reader := .testing size } :=
    hleft.step (e := .advanceReader) (by simp [Pipe.step, advanceReader, h.buffer])
  rcases hpc with hpc | hpc | hpc | hpc
  · exact hleft.step (e := .advanceReader) (by simp [Pipe.step, advanceReader, hpc, h.buffer])
  · exact hleft.step (e := .advanceReader) (by simp [Pipe.step, advanceReader, hpc, h.closed])
  · exact htest.step (e := .advanceReader) (by simp [Pipe.step, advanceReader, hpc])
  · rwa [← hpc] at hleft

lemma Unread.early (h : Unread s) (htakes : s.reader.takes s.buffer.length = false)
    (hread : s.readClosed → s.reader.underWay) : Early s := by
  have hopen : s.reader.underWay = false → s.readClosed = false := by
    intro hway
    by_contra hc
    simp [hread (by simpa using hc)] at hway
  cases hpc : s.reader with
  | idle => exact h.idle hpc (hopen (by rw [hpc]; rfl))
  | entered size =>
    have hs : Pipe.step s .advanceReader = some { s with reader := .testing size } := by
      simp [Pipe.step, advanceReader, hpc, hopen (by rw [hpc]; rfl)]
    refine Early.step hs (Unread.looping ⟨h.closed, h.buffer, h.stream⟩ ?_ (.inl rfl))
    exact fun _ => hopen (by rw [hpc]; rfl)
  | locking size =>
    obtain ⟨hsize, hlt⟩ : size ≠ 0 ∧ size < s.buffer.length := by
      simpa [hpc, ReadPc.takes] using htakes
    have hs : Pipe.step s .advanceReader = some { s with
        buffer := s.buffer.drop size, reader := .idle
        returned := s.returned ++ s.buffer.take size } := by
      simp [Pipe.step, advanceReader, lockedRead, hpc, h.buffer, hsize]
    refine Early.step hs (Unread.idle ⟨h.closed, ?_, ?_⟩ rfl (hopen (by rw [hpc]; rfl)))
    · simpa using hlt
    · simp [h.stream]
  | testing size | foundEmpty size | waiting size | leftLoop size =>
    refine h.looping (fun hsize : size = 0 => hopen ?_) (by simp [hpc])
    simp [hpc, ReadPc.underWay, hsize]

lemma writeClosed_step {ev : Event} (h : s.writeClosed) (hs : step s ev = some s') :
    s'.writeClosed := by
  cases ev with
  | close direction => cases direction <;> cases hs <;> simp [close, h]
  | _ => grind [step, advanceReader, advanceWriter, lockedRead, lockedWrite, setWriter]

lemma guard_of_closed (h : s.writeClosed) (events : List Event) : Meets step Guard s events := by
  intro pre ev _ t ht
  have hclosed := (always_of_step (fun _ _ _ h hs => writeClosed_step h hs) h pre).last ht
  cases ev with
  | close direction => cases direction <;> simp [Guard, hclosed]
  | _ => trivial

lemma inv_of_open {events : List Event} (hrun : exec step {} events = some s)
    (hopen : s.writeClosed = false) : Inv s := by
  refine (always_of_step (I := fun s => s.writeClosed = false → Inv s) (fun s ev t hi hs ht => ?_)
    (fun _ => ⟨⟨rfl, prefix_rfl⟩, by simp [Ending], by simp [EofComplete]⟩) events).last hrun hopen
  have hbefore : s.writeClosed = false := by
    by_contra hc
    simp [writeClosed_step (by simpa using hc) hs] at ht
  refine inv_step (hi hbefore) ?_ hs
  cases ev with
  | close direction =>
    cases hs
    cases direction <;> simp_all [Guard, close]
  | _ => trivial

/-- Closing the write end lets some read return zero too early exactly if it is not safe. -/
theorem close_early_iff {events : List Event} (hrun : exec step {} events = some s)
    (hopen : s.writeClosed = false) : Early (close s .write) ↔ ¬ SafeClose s := by
  have hinv := inv_of_open hrun hopen
  have hclosed : (close s .write).writeClosed := rfl
  constructor
  · rintro ⟨later, t, ht, hearly⟩ hsafe
    have hclose := inv_close hinv .write fun _ => hsafe
    exact hearly ((always_of_meets (fun _ _ _ hi hg hs => inv_step hi hg hs) hclose
      (guard_of_closed hclosed later)).last ht).eof
  · intro hbad
    obtain ⟨hbuf, htakes, hread⟩ : s.buffer ≠ [] ∧ s.reader.takes s.buffer.length = false ∧
        (s.readClosed = true → s.reader.underWay = true) := by
      simpa [SafeClose] using hbad
    refine Unread.early ⟨hclosed, hbuf, ?_⟩ htakes hread
    simp [close, hopen, hinv.conserved.stream]

theorem close_early_iff_one_byte : ∃ s : State, s.buffer = [7] ∧ Early (close s .write) := by
  have hrun : exec step {} [.write 0 [7], .advanceWriter 0, .advanceWriter 0, .advanceWriter 0] =
      some _ := rfl
  exact ⟨_, rfl, (close_early_iff hrun rfl).2 (by decide +kernel)⟩

def readThenClose : List Event :=
  [.write 0 [7], .advanceWriter 0, .advanceWriter 0, .advanceWriter 0, .read 1, .advanceReader,
    .advanceReader, .advanceReader, .advanceReader, .close .write, .read 1, .advanceReader,
    .advanceReader, .advanceReader, .advanceReader]

theorem pipe_stream_one_byte :
    Always step PipeStream {} readThenClose ∧
      ((exec step {} readThenClose).map fun s => (s.eof, s.returned)) = some (true, [7]) :=
  ⟨pipe_stream readThenClose (meets_of_check (by decide +kernel)), by decide +kernel⟩

/-- The write end is closed while the byte is buffered: the read returns zero. -/
theorem eof_with_byte_buffered :
    ∃ s, exec step {}
        [.write 0 [7], .advanceWriter 0, .advanceWriter 0, .advanceWriter 0, .close .write, .read 1,
          .advanceReader, .advanceReader, .advanceReader] = some s ∧
      s.buffer = [7] ∧ ¬ PipeStream s := by
  refine ⟨_, rfl, rfl, fun h => ?_⟩
  exact absurd (h.2 rfl).2 (by decide +kernel)

end GzOS.Pipe
