import GzOS.InternetChecksum

/-!
# Echo replies

The reply is made in the buffer of the request. `icmpv4_reply` looks for the message right
behind an IP header without options, and it takes the checksum up to the end of the buffer,
where a short frame has its padding.
-/
namespace GzOS.Net
open OnesComplement List Function

/-! ### The code -/

def exchange (mem : Memory) (a b size : ℕ) : Memory :=
  fun i => if a ≤ i ∧ i < a + size then mem (i - a + b)
    else if b ≤ i ∧ i < b + size then mem (i - b + a) else mem i

def ipOutput (mem : Memory) : Memory :=
  let mem := zeroField mem (l3Offset + 10)
  storeHalf mem (l3Offset + 10) (checksum mem l3Offset (4 * ((mem l3Offset).toNat % 16)) 0)

def answered (f : Frame) : Memory :=
  let mem := exchange f.memory 0 6 6
  let mem := exchange mem (l3Offset + 12) (l3Offset + 16) 4
  let mem := zeroField mem (l4Offset + 2)
  update mem l4Offset 0

/-- A negative count sums nothing, as a count of zero does. -/
def icmpv4Reply (f : Frame) : Memory :=
  ipOutput (storeHalf (answered f) (l4Offset + 2)
    (checksum (answered f) l4Offset (f.size - l4Offset) 0))

def icmpInput (f : Frame) : Option Memory :=
  if (f.size + 2 ^ 32 - l4Offset) % 2 ^ 32 < 4 then none
  else if f.memory l4Offset = 8 then some (icmpv4Reply f)
  else none

/-! ### Requests and replies -/

namespace Frame

def message (f : Frame) : ℕ := l3Offset + 4 * f.ihl

def messageLength (f : Frame) : ℕ := f.len - 4 * f.ihl

end Frame

/-- A whole echo request for this host with right checksums. -/
structure EchoRequest (f : Frame) (interface : Interface) : Prop where
  version : f.version = 4
  header : 5 ≤ f.ihl
  length : 4 * f.ihl + 8 ≤ f.len
  inside : l3Offset + f.len ≤ f.size
  whole : Unfragmented f
  proto : f.proto = 1
  forHost : ForInterface f (some interface)
  headerSum : ChecksumValid f
  echo : f.memory f.message = 8
  messageSum : onesSum (bytes f.memory f.message f.messageLength) = 0xffff

/-- Addresses are exchanged, the type is that of a reply, the rest is kept and the checksums
are right. -/
structure EchoReplied (f : Frame) (mem : Memory) : Prop where
  saddr : word mem (l3Offset + 12) = f.daddr
  daddr : word mem (l3Offset + 16) = f.saddr
  headerSum : fold 65536 2 (sumEvery16Bits mem l3Offset (4 * f.ihl)) = 65535
  type : mem f.message = 0
  -- the code, the identifier, the sequence number and the payload
  rest : ∀ i < f.messageLength, i ≠ 0 → i ≠ 2 → i ≠ 3 →
    mem (f.message + i) = f.memory (f.message + i)
  messageSum : half mem (f.message + 2) =
    (rfcChecksum (bytes (zeroField mem (f.message + 2)) f.message f.messageLength)).toNat

variable {mem mem' : Memory} {addr i : ℕ}

lemma bytes_congr (h : ∀ i, addr ≤ i → mem i = mem' i)
    (count : ℕ) : bytes mem addr count = bytes mem' addr count := by
  induction count generalizing addr with
  | zero => rfl
  | succ count ih =>
    rw [bytes, bytes, h addr le_rfl, ih fun i hi => h i (by omega)]

lemma bytes_add (mem : Memory) (addr m n : ℕ) :
    bytes mem addr (m + n) = bytes mem addr m ++ bytes mem (addr + m) n := by
  induction m generalizing addr with
  | zero => simp [bytes]
  | succ m ih =>
    rw [Nat.add_right_comm, bytes, bytes, ih, cons_append, Nat.add_assoc, Nat.add_comm 1]

lemma length_bytes (mem : Memory) (addr count : ℕ) : (bytes mem addr count).length = count := by
  induction count generalizing addr with
  | zero => rfl
  | succ count ih => rw [bytes, length_cons, ih]

lemma ipOutput_of_ne (mem : Memory) (h : i ≠ l3Offset + 10) (h' : i ≠ l3Offset + 11) :
    ipOutput mem i = mem i := by
  rw [ipOutput, storeHalf_of_ne _ _ h h', zeroField, if_neg (by omega)]

lemma answered_message (f : Frame) (h : l4Offset ≤ i) :
    answered f i = if i = l4Offset ∨ i = l4Offset + 2 ∨ i = l4Offset + 3 then 0
      else f.memory i := by
  simp only [answered, exchange, zeroField, update_apply, l4Offset, l3Offset] at *
  grind

lemma icmpv4Reply_message (f : Frame) (h : l4Offset ≤ i) (htwo : i ≠ l4Offset + 2)
    (hthree : i ≠ l4Offset + 3) : icmpv4Reply f i = if i = l4Offset then 0 else f.memory i := by
  have hheader : l3Offset + 11 < i := lt_of_lt_of_le (by decide) h
  rw [icmpv4Reply, ipOutput_of_ne _ (by omega) (by omega), storeHalf_of_ne _ _ htwo hthree,
    answered_message f h]
  simp [htwo, hthree]

/-! ### The header -/

lemma checksum_lt (mem : Memory) (addr count sum : ℕ) : checksum mem addr count sum < 65536 := by
  unfold checksum
  omega

lemma sum_storeHalf (mem : Memory) {k count : ℕ} (hk : 2 * k + 2 ≤ count)
    (hcount : count ≤ 65535) (hfield : half mem (addr + 2 * k) = 0) : fold 65536 2 (sumEvery16Bits
      (storeHalf mem (addr + 2 * k) (checksum mem addr count 0)) addr count) = 65535 := by
  have hle := sumEvery16Bits_le mem addr count
  have hlt := sumEvery16Bits_lt mem addr hcount
  rw [sumEvery16Bits_zeroField _ k addr count hk, half_storeHalf _ _ (checksum_lt _ _ _ _),
    zeroField_storeHalf, zeroField_of_half hfield, checksum_eq hcount]
  exact fold_add_complement (by decide) hlt (by omega)

lemma ipOutput_headerSum (mem : Memory) (h : 5 ≤ (mem l3Offset).toNat % 16) :
    fold 65536 2 (sumEvery16Bits (ipOutput mem) l3Offset (4 * ((mem l3Offset).toNat % 16))) =
      65535 := by
  have hihl : zeroField mem (l3Offset + 10) l3Offset = mem l3Offset := by
    rw [zeroField, if_neg (by omega)]
  rw [ipOutput, hihl]
  exact sum_storeHalf (zeroField mem (l3Offset + 10)) (k := 5) (by omega) (by omega)
    (by simp [half, zeroField])

/-! ### The padding -/

lemma sum_rfcWords_append (l r : List Byte) :
    (rfcWords (l ++ r)).sum =
      (rfcWords l).sum + (rfcWords ((if l.length % 2 = 1 then [0] else []) ++ r)).sum := by
  induction l using rfcWords.induct with
  | case1 => simp [rfcWords]
  | case2 a =>
    cases r with
    | nil => simp [rfcWords]
    | cons b r =>
      simp [rfcWords]
      omega
  | case3 a b rest ih =>
    have hparity : (a :: b :: rest).length % 2 = rest.length % 2 := by
      simp only [length_cons]
      omega
    rw [cons_append, cons_append, rfcWords, rfcWords, sum_cons, sum_cons,
       hparity]
    omega

def paddingSum (f : Frame) : ℕ :=
  (rfcWords ((if f.messageLength % 2 = 1 then [0] else []) ++
    bytes f.memory (l3Offset + f.len) (f.size - (l3Offset + f.len)))).sum

def restSum (f : Frame) : ℕ :=
  sumEvery16Bits (zeroField (update f.memory f.message 0) (f.message + 2)) f.message
    f.messageLength

/-- The sum of the bytes behind the message changes nothing. -/
def PaddingCancels (f : Frame) : Prop :=
  paddingSum f % 65535 = 0 ∧ (restSum f = 0 → paddingSum f = 0)

lemma fold_add_eq_iff {sum more : ℕ} (h : sum + more < 65536 * 65536) :
    fold 65536 2 (sum + more) = fold 65536 2 sum ↔
      more % 65535 = 0 ∧ (sum = 0 → more = 0) := by
  have hsum : sum < 65536 * 65536 := by omega
  have hlt : fold 65536 2 sum < 65536 := fold_lt (by decide) hsum
  have hlt' : fold 65536 2 (sum + more) < 65536 := fold_lt (by decide) h
  have hmod : fold 65536 2 sum ≡ sum [MOD 65535] := fold_modEq (by decide) 2 sum
  have hmod' : fold 65536 2 (sum + more) ≡ sum + more [MOD 65535] := fold_modEq (by decide) 2 _
  have hzero : fold 65536 2 sum = 0 ↔ sum = 0 := fold_eq_zero_iff 2
  have hzero' : fold 65536 2 (sum + more) = 0 ↔ sum + more = 0 := fold_eq_zero_iff 2
  unfold Nat.ModEq at hmod hmod'
  omega

/-! ### The reply -/

variable {f : Frame} {interface : Interface}

lemma icmpv4Reply_address (f : Frame) (h : l3Offset + 12 ≤ i) (h' : i < l3Offset + 20) :
    icmpv4Reply f i = if i < l3Offset + 16 then f.memory (i + 4) else f.memory (i - 4) := by
  have hfour : i < l4Offset := lt_of_lt_of_le h' (by decide)
  rw [icmpv4Reply, ipOutput_of_ne _ (by omega) (by omega),
    storeHalf_of_ne _ _ (by omega) (by omega)]
  simp only [answered, exchange, zeroField, update_apply] at *
  grind

lemma word_of_bytes {pos pos' : ℕ}
    (h : ∀ i < 4, mem (pos + i) = mem' (pos' + i)) : word mem pos = word mem' pos' := by
  have h0 := h 0 (by decide)
  have h1 := h 1 (by decide)
  have h2 := h 2 (by decide)
  have h3 := h 3 (by decide)
  simp only [Nat.add_zero] at h0
  simp [word, half, h0, h1, h2, h3]

lemma zeroField_icmpv4Reply (f : Frame) (h : l4Offset ≤ i) :
    zeroField (icmpv4Reply f) (l4Offset + 2) i = answered f i := by
  rw [answered_message f h, zeroField]
  split_ifs with hfield hany hany
  · rfl
  · omega
  · rw [icmpv4Reply_message f h (by omega) (by omega), if_pos (by omega)]
  · rw [icmpv4Reply_message f h (by omega) (by omega), if_neg (by omega)]

lemma half_icmpv4Reply (f : Frame) : half (icmpv4Reply f) (l4Offset + 2) =
    checksum (answered f) l4Offset (f.size - l4Offset) 0 := by
  rw [half, icmpv4Reply, ipOutput_of_ne _ (by decide) (by decide),
    ipOutput_of_ne _ (by decide) (by decide)]
  exact half_storeHalf _ _ (checksum_lt _ _ _ _)

section WithoutOptions

variable (h : EchoRequest f interface) (hihl : f.ihl = 5)

include hihl

lemma message_eq : f.message = l4Offset := by
  rw [Frame.message, hihl]
  rfl

lemma sum_answered_message :
    sumEvery16Bits (answered f) l4Offset f.messageLength = restSum f := by
  rw [restSum, message_eq hihl, ← sum_rfcWords, ← sum_rfcWords]
  congr 2
  refine bytes_congr (fun i hi => ?_) _
  rw [answered_message f hi, zeroField, update_apply]
  split_ifs <;> first | rfl | omega

include h

lemma icmpInput_eq : icmpInput f = some (icmpv4Reply f) := by
  have hsize := h.inside
  have hlength := h.length
  have hfits := f.fits
  have hecho := h.echo
  rw [message_eq hihl] at hecho
  rw [icmpInput, if_neg, if_pos hecho]
  unfold l3Offset packetSize l4Offset at *
  omega

lemma sum_answered :
    sumEvery16Bits (answered f) l4Offset (f.size - l4Offset) = restSum f + paddingSum f := by
  have hsize := h.inside
  have hlength := h.length
  have hsplit : f.size - l4Offset = f.messageLength + (f.size - (l3Offset + f.len)) := by
    unfold Frame.messageLength l4Offset l3Offset at *
    omega
  have hend : l4Offset + f.messageLength = l3Offset + f.len := by
    unfold Frame.messageLength l4Offset l3Offset at *
    omega
  rw [← sum_answered_message hihl, ← sum_rfcWords, ← sum_rfcWords, hsplit, bytes_add,
     sum_rfcWords_append, length_bytes, hend]
  congr 3
  refine congrArg _ (bytes_congr (fun i hi => ?_) _)
  have hbeyond : l4Offset + 3 < i := by
    unfold l4Offset l3Offset at *
    omega
  rw [answered_message f (by omega), if_neg (by omega)]

lemma messageSum_iff : half (icmpv4Reply f) (f.message + 2) =
      (rfcChecksum (bytes (zeroField (icmpv4Reply f) (f.message + 2)) f.message
        f.messageLength)).toNat ↔ PaddingCancels f := by
  have hsize := h.inside
  have hfits := f.fits
  have hbytes : bytes (zeroField (icmpv4Reply f) (l4Offset + 2)) l4Offset f.messageLength =
      bytes (answered f) l4Offset f.messageLength :=
    bytes_congr (fun i hi => zeroField_icmpv4Reply f hi) _
  have hcount : f.messageLength ≤ 65535 := by
    unfold Frame.messageLength packetSize at *
    omega
  have hcount' : f.size - l4Offset ≤ 65535 := by
    unfold packetSize at *
    omega
  have hlt := sumEvery16Bits_lt (answered f) l4Offset hcount'
  rw [sum_answered h hihl] at hlt
  rw [message_eq hihl, half_icmpv4Reply, hbytes, rfcChecksum_bytes _ _ hcount,
    checksum_eq hcount, checksum_eq hcount', sum_answered h hihl, sum_answered_message hihl,
    PaddingCancels, ← fold_add_eq_iff hlt]
  have hfold := fold_lt (by decide) hlt
  have hfold' : fold 65536 2 (restSum f) < 65536 := fold_lt (by decide) (by omega)
  omega

end WithoutOptions

/-- The reply is right exactly if the request has no IP options and the bytes behind its end
that are summed cancel. -/
theorem echo_reply_iff (f : Frame) (interface : Interface) (h : EchoRequest f interface) :
    (∃ mem, icmpInput f = some mem ∧ EchoReplied f mem) ↔ f.ihl = 5 ∧ PaddingCancels f := by
  constructor
  · rintro ⟨mem, hmem, hreplied⟩
    have hreply : mem = icmpv4Reply f := by
      unfold icmpInput at hmem
      split_ifs at hmem
      exact (Option.some.inj hmem).symm
    subst hreply
    have hihl : f.ihl = 5 := by
      by_contra hne
      -- behind options the type is never written
      have hheader := h.header
      have hbeyond : l4Offset + 3 < f.message := by
        unfold Frame.message l4Offset l3Offset
        omega
      have htype := hreplied.type
      rw [icmpv4Reply_message f (by omega) (by omega) (by omega), if_neg (by omega),
        h.echo] at htype
      exact absurd htype (by decide)
    exact ⟨hihl, (messageSum_iff h hihl).1 hreplied.messageSum⟩
  · rintro ⟨hihl, hpadding⟩
    refine ⟨icmpv4Reply f, icmpInput_eq h hihl, ?_⟩
    have hmessage := message_eq hihl
    exact {
      saddr := by
        refine word_of_bytes fun i hi => ?_
        rw [icmpv4Reply_address f (by omega) (by omega), if_pos (by omega)]
        congr 1
        omega
      daddr := by
        refine word_of_bytes fun i hi => ?_
        rw [icmpv4Reply_address f (by omega) (by omega), if_neg (by omega)]
        congr 1
        omega
      headerSum := ipOutput_headerSum (storeHalf (answered f) (l4Offset + 2)
        (checksum (answered f) l4Offset (f.size - l4Offset) 0)) h.header
      type := by
        rw [hmessage, icmpv4Reply_message f le_rfl (by omega) (by omega), if_pos rfl]
      rest := by
        intro i _ hzero htwo hthree
        rw [icmpv4Reply_message f (by omega) (by omega) (by omega), if_neg (by omega)]
      messageSum := (messageSum_iff h hihl).2 hpadding }

/-! ### Some frames -/

instance (f : Frame) (interface : Interface) : Decidable (EchoRequest f interface) :=
  decidable_of_iff
    (f.version = 4 ∧ 5 ≤ f.ihl ∧ 4 * f.ihl + 8 ≤ f.len ∧ l3Offset + f.len ≤ f.size ∧
      (f.fragOffset / 2 ^ 13 % 2 = 0 ∧ f.fragOffset % 2 ^ 13 = 0) ∧ f.proto = 1 ∧
      interface.address = f.daddr ∧ ChecksumValid f ∧ f.memory f.message = 8 ∧
      onesSum (bytes f.memory f.message f.messageLength) = 0xffff)
    ⟨fun ⟨h₁, h₂, h₃, h₄, h₅, h₆, h₇, h₈, h₉, h₁₀⟩ =>
      ⟨h₁, h₂, h₃, h₄, h₅, h₆, congrArg some h₇, h₈, h₉, h₁₀⟩,
    fun h => ⟨h.version, h.header, h.length, h.inside, h.whole, h.proto,
      Option.some.inj h.forHost, h.headerSum, h.echo, h.messageSum⟩⟩

lemma pingFrame_ethernet : l3Offset ≤ 60 := by decide

lemma pingFrame_fits : 60 ≤ packetSize := by decide

/-- An echo request without payload in a frame of the smallest size, with a first byte of
padding. -/
def pingFrame (header : List Byte) (pad : Byte) : Frame where
  memory i := ([0x52, 0x54, 0, 0, 0, 1, 0x52, 0x54, 0, 0, 0, 2, 8, 0] ++ header ++
    [8, 0, 0xe5, 0xca, 0x12, 0x34, 0, 1, pad]).getD i 0
  size := 60
  ethernet := pingFrame_ethernet
  fits := pingFrame_fits

def plainHeader : List Byte :=
  [0x45, 0, 0, 0x1c, 0, 1, 0, 0, 64, 1, 0x66, 0xde, 10, 0, 0, 2, 10, 0, 0, 1]

def optionHeader : List Byte :=
  [0x46, 0, 0, 0x20, 0, 1, 0, 0, 64, 1, 0x63, 0xd9, 10, 0, 0, 2, 10, 0, 0, 1, 1, 1, 1, 0]

def pingHost : Interface := ⟨0x0a000001, 0xffffff00⟩

theorem echo_reply_padded : EchoRequest (pingFrame plainHeader 0) pingHost ∧
    ∃ mem, icmpInput (pingFrame plainHeader 0) = some mem ∧
      EchoReplied (pingFrame plainHeader 0) mem := by
  have h : EchoRequest (pingFrame plainHeader 0) pingHost := by decide +kernel
  refine ⟨h, (echo_reply_iff _ _ h).2 ⟨by decide, ?_⟩⟩
  have hpadding : paddingSum (pingFrame plainHeader 0) = 0 := by decide +kernel
  exact ⟨by rw [hpadding], fun _ => hpadding⟩

/-- A byte of padding that is not zero, and a header with options. -/
theorem echo_reply_wrong :
    (EchoRequest (pingFrame plainHeader 1) pingHost ∧
      ¬ ∃ mem, icmpInput (pingFrame plainHeader 1) = some mem ∧
        EchoReplied (pingFrame plainHeader 1) mem) ∧
    EchoRequest (pingFrame optionHeader 0) pingHost ∧
      icmpInput (pingFrame optionHeader 0) = none := by
  refine ⟨⟨by decide +kernel, ?_⟩, by decide +kernel, ?_⟩
  · rintro ⟨mem, hmem, hreplied⟩
    have hreply : mem = icmpv4Reply (pingFrame plainHeader 1) := by
      rw [icmpInput, if_neg (by decide)] at hmem
      exact (Option.some.inj hmem).symm
    have hsum := hreplied.messageSum
    rw [hreply] at hsum
    exact absurd hsum (by decide +kernel)
  · rw [icmpInput, if_neg (by decide), if_neg (by decide)]

end GzOS.Net
