import GzOS.Bindings
import GzOS.CTypes
import GzOS.Runs
import Mathlib.Data.Finset.Erase
import Mathlib.Data.Finset.Insert

/-!
# Local ports of TCP descriptors

`bind` takes a port out of a global set, and only the close of a session that `listen`
or `connect` made for the port puts it back. So a port comes back when its descriptor
has such a session when it is closed, and nothing overwrites the port in between.
-/
namespace GzOS.TcpPorts
open Bindings Runs List Option

structure Session where
  localPort : ℕ
  releasePortOnClose : Bool
  deriving DecidableEq, Repr

/-- The code keeps neither `bound` (through `bind`) nor `closed`. -/
structure Descriptor where
  localPort : ℕ
  session : Option Session
  bound : Bool := false
  closed : Bool := false
  deriving DecidableEq, Repr

structure State where
  ports : Finset ℕ
  basePort : ℕ
  fds : ℕ → Option Descriptor

def State.boot : State := ⟨∅, 0, fun _ => none⟩

def State.set (s : State) (d : ℕ) (fd : Option Descriptor) : State :=
  { s with fds := Function.update s.fds d fd }

/-- Chosen at the first call with the value of `rand`. -/
def State.base (s : State) (rand : ℕ) : ℕ :=
  if s.basePort = 0 then max 10000 (rand % uint16Max) else s.basePort

/-- The loop goes up to, but does not reach, `UINT16_MAX`. -/
def allocatePort (s : State) (port rand : ℕ) : ℕ × State :=
  let base := s.base rand
  let s := { s with basePort := base }
  if port ≠ 0 then
    if port ∈ s.ports then (0, s) else (port, { s with ports := insert port s.ports })
  else
    match (range' base (uint16Max - base)).find? fun i => decide (i ∉ s.ports) with
    | some i => (i, { s with ports := insert i s.ports })
    | none => (0, s)

def releasePort (s : State) (port : ℕ) : State := { s with ports := s.ports.erase port }

/-- With whether it returned 0. Only `IPADDR_ANY`, which is 0, is accepted. -/
def bind (s : State) (d : ℕ) (fd : Descriptor) (address port rand : ℕ) :
    Bool × Descriptor × State :=
  if address ≠ 0 then (false, fd, s)
  else
    let (allocated, s) := allocatePort s port rand
    if allocated = 0 then (false, fd, s)
    else
      let fd := { fd with localPort := allocated, bound := true }
      (true, fd, s.set d (some fd))

/-- A port if there is none, and then a session if there is memory. -/
def openSession (s : State) (d : ℕ) (fd : Descriptor) (rand : ℕ) (created : Bool) : State :=
  if fd.session.isSome then s
  else
    let (bound, fd, s) := if fd.localPort = 0 then bind s d fd 0 0 rand else (true, fd, s)
    if bound = false then s
    else s.set d (some { fd with session := if created then some ⟨fd.localPort, true⟩ else none })

/-- Once the state change it waits for has come. -/
def Session.close (session : Session) (s : State) : Session × State :=
  ({ session with localPort := 0 },
    if session.localPort ≠ 0 ∧ session.releasePortOnClose = true then
      releasePort s session.localPort
    else s)

def close (s : State) (d : ℕ) (fd : Descriptor) : State :=
  match fd.session with
  | some session =>
    let (session, s) := session.close s
    s.set d (some { fd with localPort := 0, session := some session, closed := true })
  | none => s.set d (some { fd with localPort := 0, closed := true })

inductive Event
  | create (d : ℕ)
  /-- Made by the stack for a remote end, to reject or to accept it. -/
  | incoming (d port : ℕ) (created : Bool)
  | bind (d address port rand : ℕ)
  | listen (d rand : ℕ) (created : Bool)
  | connect (d address port rand : ℕ) (created : Bool)
  | close (d : ℕ)
  | destroy (d : ℕ)
  deriving DecidableEq, Repr

/-- The destructor closes once more; the session's own finds no port left. -/
def step (s : State) : Event → Option State
  | .create d => if s.fds d = none then some (s.set d (some ⟨0, none, false, false⟩)) else none
  | .incoming d port created =>
    if s.fds d = none then
      some (s.set d (some ⟨port, if created then some ⟨port, false⟩ else none, false, false⟩))
    else none
  | .bind d address port rand => (s.fds d).map fun fd => (bind s d fd address port rand).2.2
  | .listen d rand created => (s.fds d).map fun fd => openSession s d fd rand created
  | .connect d address port rand created =>
    (s.fds d).map fun fd =>
      if address = 0 ∨ port = 0 then s else openSession s d fd rand created
  | .close d => (s.fds d).map fun fd => close s d fd
  | .destroy d => (s.fds d).map fun fd => (close s d fd).set d none

/-- An unclosed descriptor that obtained the port through `bind`. -/
def Descriptor.Holds (fd : Descriptor) (port : ℕ) : Prop :=
  fd.closed = false ∧ fd.bound = true ∧ fd.localPort = port ∧ port ≠ 0

def Held (s : State) (port d : ℕ) : Prop := ∃ fd, s.fds d = some fd ∧ fd.Holds port

/-- Ports in use are those of open bound descriptors, each of one. -/
structure Books (s : State) : Prop where
  exact : ∀ port, port ∈ s.ports ↔ ∃ d, Held s port d
  distinct : ∀ port d d', Held s port d → Held s port d' → d = d'

/-- A port is bound when there is none, a session opened on a bound port, and no port
dropped without a session. -/
def Proper (s : State) : Event → Prop
  | .bind d _ _ _ => ∀ fd ∈ s.fds d, fd.closed = false ∧ fd.localPort = 0 ∧ fd.session = none
  | .listen d _ _ => ∀ fd ∈ s.fds d, fd.closed = false ∧ (fd.localPort = 0 ∨ fd.bound = true)
  | .connect d _ _ _ _ =>
    ∀ fd ∈ s.fds d, fd.closed = false ∧ (fd.localPort = 0 ∨ fd.bound = true)
  | .close d => ∀ fd ∈ s.fds d, fd.session = none → fd.localPort = 0
  | .destroy d => ∀ fd ∈ s.fds d, fd.session = none → fd.localPort = 0
  | _ => True

instance (s : State) (e : Event) : Decidable (Proper s e) := by
  cases e <;> unfold Proper <;> infer_instance

/-! ## Allocation -/

/-- The base port is not chosen yet, or in range. -/
def BaseOk (s : State) : Prop := s.basePort = 0 ∨ 10000 ≤ s.basePort ∧ s.basePort < uint16Max

variable {s : State} {d : ℕ}

lemma BaseOk.base (h : BaseOk s) (rand : ℕ) : 10000 ≤ s.base rand ∧ s.base rand < uint16Max := by
  unfold State.base
  split_ifs with hz
  · have hmod : rand % uint16Max < uint16Max := Nat.mod_lt _ (by decide)
    exact ⟨le_max_left _ _, max_lt (by decide) hmod⟩
  · exact h.resolve_left hz

lemma allocatePort_spec (s : State) (port rand : ℕ) :
    (allocatePort s port rand = (0, { s with basePort := s.base rand }) ∧
      (port = 0 → ∀ i, s.base rand ≤ i → i < uint16Max → i ∈ s.ports)) ∨
    ∃ p, p ∉ s.ports ∧ (port ≠ 0 → p = port) ∧ (port = 0 → s.base rand ≤ p ∧ p < uint16Max) ∧
      allocatePort s port rand =
        (p, { s with basePort := s.base rand, ports := insert p s.ports }) := by
  unfold allocatePort
  by_cases hport : port = 0
  · subst hport
    simp only [ne_eq, not_true_eq_false]
    cases hfind : (range' (s.base rand) (uint16Max - s.base rand)).find?
        fun i => decide (i ∉ s.ports) with
    | none =>
      refine .inl ⟨rfl, fun _ i hlow hhigh => ?_⟩
      have hmem : i ∈ range' (s.base rand) (uint16Max - s.base rand) :=
        mem_range'_1.2 ⟨hlow, by omega⟩
      simpa using find?_eq_none.1 hfind i hmem
    | some i =>
      have hmem := mem_range'_1.1 (mem_of_find?_eq_some hfind)
      refine .inr ⟨i, by simpa using find?_some hfind, fun h => h.elim,
        fun _ => ⟨hmem.1, by omega⟩, rfl⟩
  · simp only [ne_eq, hport, not_false_eq_true, if_true]
    split_ifs with hin
    · exact .inl ⟨rfl, fun h => h.elim⟩
    · exact .inr ⟨port, hin, fun _ => rfl, fun h => h.elim, rfl⟩

structure Descriptor.Sound (fd : Descriptor) : Prop where
  port : fd.closed = false → fd.bound = true → fd.localPort ≠ 0
  released : ∀ session, fd.session = some session → session.localPort ≠ 0 →
    session.releasePortOnClose = true → fd.Holds session.localPort
  kept : ∀ session port, fd.session = some session → fd.Holds port → session = ⟨port, true⟩

structure Ledger (s : State) : Prop where
  books : Books s
  base : BaseOk s
  sound : ∀ d fd, s.fds d = some fd → fd.Sound

variable {port : ℕ} {ports : Finset ℕ} {fd fd' : Descriptor} {t : State}

lemma held_set {fd : Option Descriptor} {e : ℕ} : Held (s.set d fd) port e ↔
      if e = d then ∃ fd', fd = some fd' ∧ fd'.Holds port else Held s port e := by
  unfold Held State.set
  by_cases he : e = d
  · subst he
    simp
  · simp [he]

lemma held_iff (hd : s.fds d = some fd) : Held s port d ↔ fd.Holds port := by
  simp [Held, hd]

lemma Books.set (h : Books s) {fd : Option Descriptor} (hports : ∀ port, port ∈ ports ↔
      (port ∈ s.ports ∧ ¬Held s port d) ∨ ∃ fd', fd = some fd' ∧ fd'.Holds port)
    (hfresh : ∀ port, (∃ fd', fd = some fd' ∧ fd'.Holds port) →
      port ∈ s.ports → Held s port d) (base : ℕ) :
    Books ({ s with ports, basePort := base }.set d fd) where
  exact port := by
    show port ∈ ports ↔ _
    rw [hports, h.exact]
    constructor
    · rintro (⟨⟨e, he⟩, hnot⟩ | hnew)
      · have hne : e ≠ d := fun heq => hnot (heq ▸ he)
        exact ⟨e, held_set.2 (by rw [if_neg hne]; exact he)⟩
      · exact ⟨d, held_set.2 (by rw [if_pos rfl]; exact hnew)⟩
    · rintro ⟨e, he⟩
      rw [held_set] at he
      split_ifs at he with heq
      · exact .inr he
      · exact .inl ⟨⟨e, he⟩, fun hd => heq (h.distinct port e d he hd)⟩
  distinct port e e' he he' := by
    -- a port that the descriptor begins to hold is held by no other
    have hother : ∀ e, e ≠ d → Held s port e → ¬∃ fd', fd = some fd' ∧ fd'.Holds port := by
      intro e hne he hnew
      have hd := hfresh port hnew ((h.exact port).2 ⟨e, he⟩)
      exact hne (h.distinct port e d he hd)
    rw [held_set] at he he'
    split_ifs at he he' with h1 h2 h2
    · exact h1.trans h2.symm
    · exact absurd he (hother e' h2 he')
    · exact absurd he' (hother e h1 he)
    · exact h.distinct port e e' he he'

lemma Ledger.set (h : Ledger s) {fd : Option Descriptor} {base : ℕ} (hports : ∀ port, port ∈ ports ↔
      (port ∈ s.ports ∧ ¬Held s port d) ∨ ∃ fd', fd = some fd' ∧ fd'.Holds port)
    (hfresh : ∀ port, (∃ fd', fd = some fd' ∧ fd'.Holds port) →
      port ∈ s.ports → Held s port d) (hbase : base = 0 ∨ 10000 ≤ base ∧ base < uint16Max)
    (hsound : ∀ fd', fd = some fd' → fd'.Sound) :
    Ledger ({ s with ports, basePort := base }.set d fd) where
  books := h.books.set hports hfresh base
  base := hbase
  sound e fd' he := by
    cases fd with
    | none => exact h.sound e fd' (update_none_cases he).2
    | some fd =>
      rcases update_some_cases he with ⟨-, rfl⟩ | ⟨-, hold⟩
      · exact hsound fd' rfl
      · exact h.sound e fd' hold

lemma Ledger.keep (h : Ledger s) {fd : Option Descriptor}
    (hsame : ∀ port, (∃ fd', fd = some fd' ∧ fd'.Holds port) ↔ Held s port d)
    (hsound : ∀ fd', fd = some fd' → fd'.Sound) : Ledger (s.set d fd) := by
  refine h.set (fun port => ?_) (fun port hnew _ => (hsame port).1 hnew) h.base hsound
  rw [hsame]
  constructor
  · intro hin
    by_cases hd : Held s port d
    · exact .inr hd
    · exact .inl ⟨hin, hd⟩
  · rintro (⟨hin, -⟩ | hd)
    · exact hin
    · exact (h.books.exact port).2 ⟨d, hd⟩

lemma not_holds_of_port (h : fd.localPort = 0) (port : ℕ) : ¬fd.Holds port := by
  rintro ⟨-, -, he, hne⟩
  exact hne (he ▸ h)

lemma Ledger.gain (h : Ledger s) {p base : ℕ} (hd : s.fds d = some fd)
    (hold : fd.localPort = 0) (hnew : ∀ port, fd'.Holds port ↔ port = p) (hfree : p ∉ s.ports)
    (hbase : base = 0 ∨ 10000 ≤ base ∧ base < uint16Max) (hsound : fd'.Sound) :
    Ledger ({ s with ports := insert p s.ports, basePort := base }.set d (some fd')) := by
  have hnot : ∀ port, ¬Held s port d := fun port hheld =>
    not_holds_of_port hold port ((held_iff hd).1 hheld)
  refine h.set (fun port => ?_) (fun port hn hin => ?_) hbase
    fun _ he => some.inj he ▸ hsound
  · simp [hnot, hnew, or_comm]
  obtain ⟨_, he, hholds⟩ := hn
  cases he
  rw [(hnew port).1 hholds] at hin
  exact absurd hin hfree

lemma Ledger.bind (h : Ledger s) (hd : s.fds d = some fd) (hopen : fd.closed = false)
    (hport : fd.localPort = 0) (hsession : fd.session = none) (address port rand : ℕ)
    {ok : Bool} (ht : bind s d fd address port rand = (ok, fd', t)) :
    Ledger t ∧ (ok → t.fds d = some fd' ∧ fd'.closed = false ∧ fd'.bound ∧
      fd'.session = none) := by
  unfold TcpPorts.bind at ht
  split_ifs at ht with haddr
  · cases ht
    exact ⟨h, fun hok => absurd hok (by decide)⟩
  rcases allocatePort_spec s port rand with ⟨he, -⟩ | ⟨p, hfree, hgiven, hany, he⟩
  · simp only [he] at ht
    cases ht
    exact ⟨⟨⟨h.books.exact, h.books.distinct⟩, .inr (h.base.base rand), h.sound⟩,
    fun hok => absurd hok (by decide)⟩
  · have hp : p ≠ 0 := by
      by_cases hz : port = 0
      · have := (h.base.base rand).1
        omega
      · rw [hgiven hz]
        exact hz
    simp only [he, hp] at ht
    cases ht
    refine ⟨h.gain hd hport (fun q => ?_) hfree (.inr (h.base.base rand)) ?_, fun _ => ?_⟩
    · simp only [Descriptor.Holds, hopen, true_and]
      constructor
      · exact fun hq => hq.1.symm
      · rintro rfl
        exact ⟨rfl, hp⟩
    · exact ⟨fun _ _ => hp, by simp [hsession], by simp [hsession]⟩
    · exact ⟨by simp [State.set], hopen, rfl, hsession⟩

lemma Ledger.attach (h : Ledger s) (hd : s.fds d = some fd) (hopen : fd.closed = false)
    (hbound : fd.bound) (created : Bool) :
    Ledger (s.set d (some { fd with
      session := if created then some ⟨fd.localPort, true⟩ else none })) := by
  have hport := (h.sound d fd hd).port hopen hbound
  have hholds : fd.Holds fd.localPort := ⟨hopen, hbound, rfl, hport⟩
  refine h.keep (fun port => ?_) fun fd' he => ?_
  · rw [held_iff hd]
    simp [Descriptor.Holds]
  cases he
  refine ⟨fun _ _ => hport, fun session hs _ _ => ?_, fun session port hs hp => ?_⟩
  · cases created <;> simp at hs
    subst hs
    exact hholds
  · cases created <;> simp at hs
    subst hs
    rw [← hp.2.2.1]

lemma Ledger.openSession (h : Ledger s) (hd : s.fds d = some fd) (hopen : fd.closed = false)
    (hport : fd.localPort = 0 ∨ fd.bound) (rand : ℕ) (created : Bool) :
    Ledger (openSession s d fd rand created) := by
  by_cases hsession : fd.session.isSome
  · simp only [TcpPorts.openSession, hsession]
    exact h
  have hnone : fd.session = none := by simpa using hsession
  by_cases hzero : fd.localPort = 0
  · rcases hb : TcpPorts.bind s d fd 0 0 rand with ⟨ok, fd', t⟩
    obtain ⟨ht, hok⟩ := h.bind hd hopen hzero hnone 0 0 rand hb
    simp only [TcpPorts.openSession, hsession, hzero, hb]
    cases ok with
    | false => exact ht
    | true =>
      obtain ⟨hd', hopen', hbound', -⟩ := hok rfl
      exact ht.attach hd' hopen' hbound' created
  · simp only [TcpPorts.openSession, hsession, hzero]
    exact h.attach hd hopen (hport.resolve_left hzero) created

lemma Ledger.drop (h : Ledger s) (hd : s.fds d = some fd)
    (hports : ∀ port, port ∈ ports ↔ port ∈ s.ports ∧ ¬fd.Holds port) {fd' : Option Descriptor}
    (hnone : ∀ fd'' port, fd' = some fd'' → ¬fd''.Holds port)
    (hsound : ∀ fd'', fd' = some fd'' → fd''.Sound) : Ledger ({ s with ports }.set d fd') := by
  have hno : ∀ port, ¬∃ fd'', fd' = some fd'' ∧ fd''.Holds port := by
    rintro port ⟨fd'', he, hh⟩
    exact hnone fd'' port he hh
  refine h.set (fun port => ?_) (fun port hn => absurd hn (hno port)) h.base hsound
  rw [hports, held_iff hd]
  simp [hno port]

def Descriptor.shut (fd : Descriptor) : Descriptor :=
  { fd with
    localPort := 0
    session := fd.session.map fun session => { session with localPort := 0 }
    closed := true }

lemma Descriptor.shut_not_holds (fd : Descriptor) (port : ℕ) : ¬fd.shut.Holds port :=
  not_holds_of_port rfl port

lemma Descriptor.shut_sound (fd : Descriptor) : fd.shut.Sound where
  port h := absurd h (by simp [Descriptor.shut])
  released session hs hne := by
    obtain ⟨_, -, rfl⟩ := map_eq_some_iff.1 hs
    exact absurd rfl hne
  kept session port _ hp := absurd hp (fd.shut_not_holds port)

lemma close_eq (s : State) (d : ℕ) (fd : Descriptor) :
    close s d fd = { s with ports := (close s d fd).ports }.set d (some fd.shut) := by
  unfold TcpPorts.close Descriptor.shut
  split
  · rename_i session hsome
    simp only [Session.close, hsome]
    split_ifs <;> rfl
  · rename_i hnone
    simp only [hnone]
    rfl

lemma mem_ports_close {s : State} {d : ℕ} {fd : Descriptor} (hs : fd.Sound)
    (hsession : fd.session = none → fd.localPort = 0) (port : ℕ) :
    port ∈ (close s d fd).ports ↔ port ∈ s.ports ∧ ¬fd.Holds port := by
  unfold TcpPorts.close
  split
  · rename_i session hsome
    simp only [Session.close, State.set]
    split_ifs with hrelease
    · have hheld := hs.released session hsome hrelease.1 hrelease.2
      have hiff : fd.Holds port ↔ port = session.localPort := by
        constructor
        · exact fun hp => hp.2.2.1.symm.trans hheld.2.2.1
        · rintro rfl
          exact hheld
      simp [releasePort, hiff, and_comm]
    · have hno : ¬fd.Holds port := by
        intro hp
        rw [hs.kept session port hsome hp] at hrelease
        exact hrelease ⟨hp.2.2.2, rfl⟩
      simp [hno]
  · rename_i hnone
    simp [State.set, not_holds_of_port (hsession hnone) port]

lemma Ledger.close (h : Ledger s) (hd : s.fds d = some fd)
    (hsession : fd.session = none → fd.localPort = 0) : Ledger (close s d fd) := by
  rw [close_eq]
  refine h.drop hd (mem_ports_close (h.sound d fd hd) hsession) ?_ ?_
  · rintro fd'' port he
    exact some.inj he ▸ fd.shut_not_holds port
  · rintro fd'' he
    exact some.inj he ▸ fd.shut_sound

lemma Ledger.step {e : Event} (h : Ledger s) (hg : Proper s e)
    (ht : step s e = some t) : Ledger t := by
  cases e with
  | create d =>
    simp only [TcpPorts.step] at ht
    split_ifs at ht with hnone
    cases ht
    refine h.keep (fun port => ?_) fun fd' he => ?_
    · simp [Held, hnone, Descriptor.Holds]
    · cases he
      constructor <;> simp
  | incoming d port created =>
    by_cases hnone : s.fds d = none
    · rw [TcpPorts.step, if_pos hnone] at ht
      cases ht
      refine h.keep (fun port => ?_) fun fd' he => ?_
      · simp [Held, hnone, Descriptor.Holds]
      · cases he
        cases created <;> constructor <;> simp [Descriptor.Holds]
    · rw [TcpPorts.step, if_neg hnone] at ht
      cases ht
  | bind d address port rand =>
    obtain ⟨fd, hd, rfl⟩ := map_eq_some_iff.1 ht
    obtain ⟨hopen, hport, hsession⟩ := hg fd hd
    exact (h.bind hd hopen hport hsession address port rand rfl).1
  | listen d rand created =>
    obtain ⟨fd, hd, rfl⟩ := map_eq_some_iff.1 ht
    obtain ⟨hopen, hport⟩ := hg fd hd
    exact h.openSession hd hopen hport rand created
  | connect d address port rand created =>
    obtain ⟨fd, hd, rfl⟩ := map_eq_some_iff.1 ht
    obtain ⟨hopen, hport⟩ := hg fd hd
    split_ifs
    · exact h
    · exact h.openSession hd hopen hport rand created
  | close d =>
    obtain ⟨fd, hd, rfl⟩ := map_eq_some_iff.1 ht
    exact h.close hd (hg fd hd)
  | destroy d =>
    obtain ⟨fd, hd, rfl⟩ := map_eq_some_iff.1 ht
    have hclosed := h.close hd (hg fd hd)
    have hd' : (TcpPorts.close s d fd).fds d = some fd.shut := by
      rw [close_eq]
      exact Function.update_self ..
    refine hclosed.keep (fun port => ?_) fun fd' he => by cases he
    rw [held_iff hd']
    simp [fd.shut_not_holds port]

lemma Ledger.boot : Ledger .boot where
  books := by constructor <;> simp [State.boot, Held]
  base := Or.inl rfl
  sound := by simp [State.boot]

end GzOS.TcpPorts
