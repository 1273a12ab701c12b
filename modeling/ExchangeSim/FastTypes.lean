import ExchangeSim.Readers

/-!
The primitive encodings of `fast_types.h`. A number is split into groups of seven bits; the last
byte of a field, and no other, has the stop bit.
-/

namespace ExchangeSim

open List

def dataBits (b : UInt8) : Nat :=
  b.toNat % 128

def stopBit (b : UInt8) : Bool :=
  128 ≤ b.toNat

def signBit (group : Nat) : Bool :=
  64 ≤ group

/-- The groups in front of the last one, as long as `value` is not done with; `last` is the group
that was split off before. At most `n` groups have room in `tmp`. -/
def leadingGroups (done : Nat → Int → Bool) : Nat → Nat → Int → Bytes
  | 0, _, _ => []
  | n + 1, last, value =>
    if done last value then []
    else leadingGroups done n (value % 128).toNat (value / 128) ++
      [.ofNat (value % 128).toNat]

/-- Both encoders: groups from the low end, in reverse, with the stop bit in the last byte. -/
def stopBitBytes (done : Nat → Int → Bool) (value : Int) : Bytes :=
  leadingGroups done 9 (value % 128).toNat (value / 128) ++ [.ofNat ((value % 128).toNat + 128)]

def unsignedDone (_ : Nat) (value : Int) : Bool :=
  value == 0

def signedDone (last : Nat) (value : Int) : Bool :=
  (value == 0 && !signBit last) || (value == -1 && signBit last)

def u64Bytes (value : BitVec 64) : Bytes :=
  stopBitBytes unsignedDone value.toNat

def i64Bytes (value : Int64) : Bytes :=
  stopBitBytes signedDone value.toInt

def encodeU64 (value : BitVec 64) : Nat → Option Bytes :=
  put (u64Bytes value)

def encodeI64 (value : Int64) : Nat → Option Bytes :=
  put (i64Bytes value)

/-- The loop of the decoders at byte `b`, with `n` bytes more at most. -/
def readStop {σ : Type} (step : σ → UInt8 → σ) : Nat → σ → UInt8 → Reader σ
  | n, s, b =>
    if stopBit b then pure (step s b)
    else match n with
      | 0 => .fail
      | n + 1 => do readStop step n (step s b) (← .byte)

/-- `(value << 7) | (byte & 0x7F)` in 64 bits. -/
def shiftIn (value : BitVec 64) (b : UInt8) : BitVec 64 :=
  value * 128 + .ofNat 64 (dataBits b)

def decodeU64 : Reader (BitVec 64) := do
  readStop shiftIn 9 0 (← .byte)

/-- `decode_i64` after it has looked at the first byte. -/
def decodeI64From (first : UInt8) : Reader Int64 :=
  let start := if signBit (dataBits first) then -1 else 0
  Int64.ofBitVec <$> readStop shiftIn 9 (.ofInt 64 start) first

def decodeI64 : Reader Int64 := do
  decodeI64From (← .byte)

def nullByte : UInt8 := 0x80

def encodeNullableU64 : Option (BitVec 64) → Nat → Option Bytes
  | none => put [nullByte]
  | some value => encodeU64 (value + 1)

/-- The sum wraps around, where the source leaves it undefined. -/
def wireI64 (value : Int64) : Int64 :=
  if 0 ≤ value then value + 1 else value

def encodeNullableI64 : Option Int64 → Nat → Option Bytes
  | none => put [nullByte]
  | some value => encodeI64 (wireI64 value)

def decodeNullableU64 : Reader (Option (BitVec 64)) :=
  (fun wire => if wire = 0 then none else some (wire - 1)) <$> decodeU64

def decodeNullableI64 : Reader (Option Int64) := do
  let first ← .byte
  if first = nullByte then return none
  else (fun wire => some (if 0 ≤ wire then wire - 1 else wire)) <$> decodeI64From first

/-! The bytes of a field. -/

/-- All but the last byte lack the stop bit. -/
def Framed : Bytes → Prop
  | [] => False
  | [b] => stopBit b = true
  | b :: bs => stopBit b = false ∧ Framed bs

theorem framed_append : ∀ {l : Bytes} {b : UInt8}, (∀ x ∈ l, stopBit x = false) →
    stopBit b = true → Framed (l ++ [b])
  | [], _, _, hb => hb
  | [x], _, h, hb => ⟨h x (by simp), hb⟩
  | x :: y :: bs, _, h, hb =>
    ⟨h x (by simp), framed_append (l := y :: bs) (fun z hz => h z (mem_cons_of_mem x hz)) hb⟩

theorem reads_readStop {σ : Type} (step : σ → UInt8 → σ) : ∀ {t : Bytes} {n : Nat} {s : σ}
    {b : UInt8}, Framed (b :: t) → t.length ≤ n →
    (readStop step n s b).Reads t ((b :: t).foldl step s)
  | [], n, s, b, h, _ => by
    unfold readStop
    rw [if_pos (show stopBit b = true from h)]
    exact Reader.reads_pure _
  | c :: tail, n + 1, s, b, h, hn => by
    unfold readStop
    rw [if_neg (by simp [h.1])]
    exact (Reader.reads_byte c).bind (reads_readStop step h.2 (Nat.le_of_succ_le_succ hn))

theorem readStop_read {σ : Type} (step : σ → UInt8 → σ) : ∀ {n : Nat} {s a : σ} {b : UInt8}
    {input rest : Bytes}, (readStop step n s b).read input = some (a, rest) →
    ∃ tail, input = tail ++ rest ∧ tail.length ≤ n ∧ a = (b :: tail).foldl step s := by
  intro n
  induction n with
  | zero =>
    intro s a b input rest h
    unfold readStop at h
    split at h
    · cases h
      exact ⟨[], rfl, le_rfl, rfl⟩
    · simp [Reader.fail] at h
  | succ n ih =>
    intro s a b input rest h
    unfold readStop at h
    split at h
    · cases h
      exact ⟨[], rfl, Nat.zero_le _, rfl⟩
    · cases input with
      | nil => simp [Reader.bind_read, Reader.byte] at h
      | cons c input =>
        obtain ⟨tail, rfl, hlen, rfl⟩ := ih h
        exact ⟨c :: tail, rfl, Nat.succ_le_succ hlen, rfl⟩

/-- The number that the groups make up, after `start`. -/
def glue (start : Int) (bs : Bytes) : Int :=
  bs.foldl (fun value b => value * 128 + dataBits b) start

theorem glue_append (start : Int) (bs : Bytes) (b : UInt8) :
    glue start (bs ++ [b]) = glue start bs * 128 + dataBits b := by
  simp [glue]

theorem foldl_shiftIn (start : Int) (bs : Bytes) :
    bs.foldl shiftIn (.ofInt 64 start) = .ofInt 64 (glue start bs) := by
  induction bs generalizing start with
  | nil => rfl
  | cons b bs ih =>
    have hstep : shiftIn (.ofInt 64 start) b = .ofInt 64 (start * 128 + dataBits b) := by
      rw [BitVec.ofInt_add, BitVec.ofInt_mul, BitVec.ofInt_natCast]
      rfl
    rw [foldl_cons, hstep, ih]
    rfl

theorem dataBits_lt (b : UInt8) : dataBits b < 128 :=
  Nat.mod_lt _ (by decide)

theorem dataBits_ofNat {g : Nat} (h : g < 128) (stop : Nat) (hs : stop = 0 ∨ stop = 128) :
    dataBits (.ofNat (g + stop)) = g ∧ (stopBit (.ofNat (g + stop)) = true ↔ stop = 128) := by
  have hbyte : (UInt8.ofNat (g + stop)).toNat = g + stop := by
    rw [UInt8.toNat_ofNat']
    omega
  simp only [dataBits, stopBit, hbyte, decide_eq_true_eq]
  omega

theorem group_add (value : Int) : value / 128 * 128 + (value % 128).toNat = value := by
  omega

section groups

variable {d : Nat → Int → Bool} {n m k : Nat} {v : Int}

theorem leadingGroups_open : ∀ x ∈ leadingGroups d n k v, stopBit x = false := by
  induction n generalizing k v with
  | zero => simp [leadingGroups]
  | succ n ih =>
    unfold leadingGroups
    split
    · simp
    · intro x hx
      rcases mem_append.mp hx with hx | hx
      · exact ih x hx
      · obtain rfl := mem_singleton.mp hx
        have := dataBits_ofNat (g := (v % 128).toNat) (by omega) 0 (.inl rfl)
        simpa using this.2

theorem framed_stopBitBytes (d : Nat → Int → Bool) (v : Int) :
    Framed (stopBitBytes d v) :=
  framed_append leadingGroups_open
    ((dataBits_ofNat (by omega) 128 (.inr rfl)).2.mpr rfl)

theorem length_leadingGroups : (leadingGroups d n k v).length ≤ n := by
  induction n generalizing k v with
  | zero => simp [leadingGroups]
  | succ n ih =>
    unfold leadingGroups
    split
    · simp
    · simpa using ih

def signOf (v : Int) : Int :=
  if v < 0 then -1 else 0

theorem glue_leadingGroups (hdone : ∀ k v, d k v = true → v = signOf v)
    (hlow : -128 ^ n ≤ v) (hhigh : v < 128 ^ n) :
    glue (signOf v) (leadingGroups d n k v) = v := by
  induction n generalizing k v with
  | zero =>
    change signOf v = v
    unfold signOf
    split <;> omega
  | succ n ih =>
    unfold leadingGroups
    split
    next h => exact (hdone k v h).symm
    · have hsign : signOf v = signOf (v / 128) := by
        unfold signOf
        split <;> split <;> omega
      have hgroup := (dataBits_ofNat (g := (v % 128).toNat) (by omega) 0 (.inl rfl)).1
      rw [glue_append, hsign, ih (by omega) (by omega)]
      simp only [add_zero] at hgroup
      omega

/-- The groups of `v`, `k` being the lowest, make up a number of `n + 1` groups. -/
def Within (n : Nat) (v : Int) : Prop :=
  -(64 * 128 ^ n) ≤ v ∧ v < 64 * 128 ^ n

theorem Within.div (h : Within (n + 1) v) : Within n (v / 128) := by
  unfold Within at h ⊢
  omega

theorem signedDone_iff (hlast : k < 128) :
    signedDone k v = true ↔ Within 0 (v * 128 + k) := by
  simp [signedDone, signBit, Within]
  omega

theorem head_leadingGroups (hlast : k < 128) (h : Within n (v * 128 + k)) {b : UInt8}
    (hb : dataBits b = k) (rest : Bytes) : ∃ first tail,
      leadingGroups signedDone n k v ++ b :: rest = first :: tail ∧
      (signBit (dataBits first) = true ↔ v < 0) := by
  induction n generalizing k v b rest with
  | zero =>
    refine ⟨b, rest, rfl, ?_⟩
    simp only [hb, signBit, decide_eq_true_eq, Within] at h ⊢
    omega
  | succ n ih =>
    unfold leadingGroups
    split
    next hd =>
      have hsmall := (signedDone_iff hlast).mp hd
      refine ⟨b, rest, rfl, ?_⟩
      simp only [hb, signBit, decide_eq_true_eq, Within] at hsmall ⊢
      omega
    · have hgroup := (dataBits_ofNat (g := (v % 128).toNat) (by omega) 0 (.inl rfl)).1
      have hdiv : (v * 128 + k) / 128 = v := by omega
      obtain ⟨first, tail, he, hsign⟩ := ih
        (by omega) (by rw [group_add, ← hdiv]; exact h.div) hgroup (b :: rest)
      refine ⟨first, tail, by simpa using he, ?_⟩
      rw [hsign]
      omega

theorem length_unsigned (hpos : 0 ≤ v) (h : v < 128 ^ m) :
    (leadingGroups unsignedDone n k v).length ≤ m := by
  induction n generalizing k v m with
  | zero => simp [leadingGroups]
  | succ n ih =>
    unfold leadingGroups
    split
    · simp
    next hd =>
      cases m with
      | zero =>
        simp only [unsignedDone, beq_iff_eq] at hd
        omega
      | succ m =>
        simpa using ih (by omega) (by omega)

theorem length_signed (hlast : k < 128) (h : Within m (v * 128 + k)) :
    (leadingGroups signedDone n k v).length ≤ m := by
  induction n generalizing k v m with
  | zero => simp [leadingGroups]
  | succ n ih =>
    unfold leadingGroups
    split
    · simp
    next hd =>
      cases m with
      | zero => exact absurd ((signedDone_iff hlast).mpr h) hd
      | succ m =>
        have hdiv : (v * 128 + k) / 128 = v := by omega
        simpa using ih (by omega)
          (by rw [group_add, ← hdiv]; exact h.div)

end groups

/-! What the decoders return. -/

theorem glue_stopBitBytes {d : Nat → Int → Bool} {v : Int}
    (hdone : ∀ k v, d k v = true → v = signOf v)
    (hlow : -128 ^ 10 ≤ v) (hhigh : v < 128 ^ 10) :
    glue (signOf v) (stopBitBytes d v) = v := by
  have hsign : signOf v = signOf (v / 128) := by
    unfold signOf
    split <;> split <;> omega
  have hgroup := (dataBits_ofNat (g := (v % 128).toNat) (by omega) 128 (.inr rfl)).1
  rw [stopBitBytes, glue_append, hsign, glue_leadingGroups hdone (by omega) (by omega), hgroup]
  omega

theorem length_stopBitBytes (done : Nat → Int → Bool) (value : Int) :
    (stopBitBytes done value).length ≤ 10 := by
  rw [stopBitBytes, length_append]
  exact Nat.succ_le_succ length_leadingGroups

theorem reads_stopBitBytes {done : Nat → Int → Bool} {value : Int} {b : UInt8} {tail : Bytes}
    (hb : stopBitBytes done value = b :: tail) (start : Int) :
    (readStop shiftIn 9 (.ofInt 64 start) b).Reads tail
      (.ofInt 64 (glue start (stopBitBytes done value))) := by
  have hframed := framed_stopBitBytes done value
  have hlen := length_stopBitBytes done value
  rw [hb] at hframed hlen
  rw [← foldl_shiftIn, hb]
  exact reads_readStop shiftIn hframed (Nat.le_of_succ_le_succ hlen)

theorem reads_decodeU64 (value : BitVec 64) : decodeU64.Reads (u64Bytes value) value := by
  have hglue := glue_stopBitBytes (d := unsignedDone) (v := value.toNat)
    (fun _ value h => by simp_all [unsignedDone, signOf]) (by omega) (by omega)
  rw [signOf, if_neg (by omega)] at hglue
  cases hb : stopBitBytes unsignedDone value.toNat with
  | nil => exact absurd hb (by simp [stopBitBytes])
  | cons b tail =>
    have hread := (Reader.reads_byte b).bind (reads_stopBitBytes hb 0)
    rw [hglue, BitVec.ofInt_natCast, BitVec.ofNat_toNat, BitVec.setWidth_eq] at hread
    rw [u64Bytes, hb]
    exact hread

theorem within_toInt (value : Int64) : Within 9 value.toInt := by
  have := value.toInt_lt
  have := value.le_toInt
  unfold Within
  omega

theorem signedDone_signOf (last : Nat) (value : Int) (h : signedDone last value = true) :
    value = signOf value := by
  simp only [signedDone, signOf, Bool.or_eq_true, Bool.and_eq_true, beq_iff_eq] at h ⊢
  split <;> omega

theorem reads_decodeI64From (value : Int64) : ∃ b tail, i64Bytes value = b :: tail ∧
    (decodeI64From b).Reads tail value := by
  have hwithin := within_toInt value
  have hglue := glue_stopBitBytes (v := value.toInt) signedDone_signOf
    (by unfold Within at hwithin; omega) (by unfold Within at hwithin; omega)
  obtain ⟨b, tail, hb, hsign⟩ := head_leadingGroups
    (by omega) (group_add value.toInt ▸ hwithin)
    (dataBits_ofNat (by omega) 128 (.inr rfl)).1 []
  have hstart : (if signBit (dataBits b) then -1 else 0) = signOf value.toInt :=
    if_congr (hsign.trans (by omega)) rfl rfl
  refine ⟨b, tail, hb, ?_⟩
  have hread := (reads_stopBitBytes hb (signOf value.toInt)).map Int64.ofBitVec
  rw [hglue, Int64.ofBitVec_ofInt, Int64.ofInt_toInt, ← hstart] at hread
  exact hread

theorem glue_mem {s l u : Int} (hlow : l ≤ s) (hhigh : s < u) (bs : Bytes) :
    l * 128 ^ bs.length ≤ glue s bs ∧ glue s bs < u * 128 ^ bs.length := by
  induction bs generalizing s l u with
  | nil => simpa [glue] using ⟨hlow, hhigh⟩
  | cons b bs ih =>
    have := dataBits_lt b
    have hrest := ih (s := s * 128 + dataBits b) (l := l * 128) (u := u * 128)
      (by omega) (by omega)
    simpa [glue, pow_succ', mul_assoc] using hrest

theorem length_u64Bytes_le {other : Bytes} {value : BitVec 64}
    (h : decodeU64.read other = some (value, [])) : (u64Bytes value).length ≤ other.length := by
  cases other with
  | nil => simp [decodeU64, Reader.bind_read, Reader.byte] at h
  | cons b input =>
    obtain ⟨tail, rfl, hlen, hvalue⟩ := readStop_read shiftIn h
    simp only [append_nil, length_cons]
    have hglue := (foldl_shiftIn 0 (b :: tail)).symm.trans hvalue.symm
    obtain ⟨hlow, hhigh⟩ := glue_mem (le_refl 0) one_pos (b :: tail)
    by_cases hshort : tail.length ≤ 8
    · have hpow : (128 : Int) ^ tail.length ≤ 128 ^ 8 := pow_le_pow_right₀ (by omega) hshort
      simp only [length_cons, pow_succ, zero_mul, one_mul] at hlow hhigh
      have hnat : (value.toNat : Int) = glue 0 (b :: tail) := by
        rw [← hglue, BitVec.toNat_ofInt]
        omega
      rw [u64Bytes, stopBitBytes, length_append]
      exact Nat.succ_le_succ (length_unsigned (by omega) (by omega))
    · have := length_stopBitBytes unsignedDone value.toNat
      unfold u64Bytes
      omega

theorem length_i64Bytes_le {other : Bytes} {value : Int64}
    (h : decodeI64.read other = some (value, [])) : (i64Bytes value).length ≤ other.length := by
  cases other with
  | nil => simp [decodeI64, Reader.bind_read, Reader.byte] at h
  | cons b input =>
    obtain ⟨⟨bits, _⟩, hread, he⟩ := Option.bind_eq_some_iff.mp h
    obtain ⟨rfl, rfl⟩ := Prod.mk.inj (Option.some.inj he)
    obtain ⟨tail, rfl, hlen, rfl⟩ := readStop_read shiftIn hread
    rw [foldl_shiftIn, Int64.ofBitVec_ofInt]
    have hfirst := dataBits_lt b
    have hwithin : Within tail.length
        (glue (if signBit (dataBits b) then -1 else 0) (b :: tail)) := by
      have hmem := glue_mem (l := -64) (u := 64)
        (s := (if signBit (dataBits b) then -1 else 0) * 128 + dataBits b)
        (by simp only [signBit, decide_eq_true_eq]; split <;> omega)
        (by simp only [signBit, decide_eq_true_eq]; split <;> omega) tail
      rwa [neg_mul] at hmem
    generalize glue (if signBit (dataBits b) then -1 else 0) (b :: tail) = value at hwithin ⊢
    simp only [append_nil, length_cons]
    by_cases hshort : tail.length ≤ 8
    · have hpow : (128 : Int) ^ tail.length ≤ 128 ^ 8 := pow_le_pow_right₀ (by omega) hshort
      have hint : (Int64.ofInt value).toInt = value :=
        Int64.toInt_ofInt_of_le (by unfold Within at hwithin; omega) (by unfold Within at hwithin; omega)
      rw [i64Bytes, hint, stopBitBytes, length_append]
      exact Nat.succ_le_succ (length_signed (by omega) (by rwa [group_add]))
    · have := length_stopBitBytes signedDone (Int64.ofInt value).toInt
      unfold i64Bytes
      omega

/-- What is written for a value is read back, and nothing shorter is read as this value. -/
structure Minimal {α : Type} (encode : α → Nat → Option Bytes) (x : Reader α) (value : α)
    (bytes : Bytes) : Prop where
  length_le : bytes.length ≤ 10
  encode_eq : ∀ room, encode value room = if bytes.length ≤ room then some bytes else none
  read_eq : ∀ trailing, x.read (bytes ++ trailing) = some (value, trailing)
  least : ∀ other, x.read other = some (value, []) → bytes.length ≤ other.length

theorem stopBit_roundTrip :
    (∀ value : BitVec 64, ∃ bytes, Minimal encodeU64 decodeU64 value bytes) ∧
      ∀ value : Int64, ∃ bytes, Minimal encodeI64 decodeI64 value bytes := by
  refine ⟨fun value => ⟨u64Bytes value, length_stopBitBytes .., fun _ => rfl, reads_decodeU64 value,
    fun _ => length_u64Bytes_le⟩, fun value => ?_⟩
  obtain ⟨b, tail, hb, hread⟩ := reads_decodeI64From value
  refine ⟨i64Bytes value, length_stopBitBytes .., fun _ => rfl, ?_, fun _ => length_i64Bytes_le⟩
  rw [hb]
  exact (Reader.reads_byte b).bind hread

/-! Nullable fields. -/

def RoundTrips {α : Type} (encode : α → Nat → Option Bytes) (x : Reader α) (value : α) : Prop :=
  ∃ bytes, bytes.length ≤ 10 ∧ encode value = put bytes ∧ x.Reads bytes value

theorem put_injective {bytes bytes' : Bytes} (h : put bytes = put bytes') : bytes = bytes' := by
  have := congrFun h bytes.length
  simp only [put, le_refl, if_true] at this
  split at this
  · exact Option.some.inj this
  · simp at this

theorem nullableU64_iff (value : Option (BitVec 64)) :
    RoundTrips encodeNullableU64 decodeNullableU64 value ↔ value ≠ some (BitVec.allOnes 64) := by
  constructor
  · rintro ⟨bytes, -, hput, hread⟩ rfl
    obtain rfl : [nullByte] = bytes := put_injective hput
    exact absurd (hread []) (by decide +kernel)
  · intro hmax
    cases value with
    | none => exact ⟨u64Bytes 0, length_stopBitBytes .., rfl, (reads_decodeU64 0).map _⟩
    | some value =>
      have hread := (reads_decodeU64 (value + 1)).map
        fun wire => if wire = 0 then none else some (wire - 1)
      have hwire : value + 1 ≠ 0 := by
        grind
      rw [if_neg hwire, BitVec.add_sub_cancel] at hread
      exact ⟨u64Bytes (value + 1), length_stopBitBytes .., rfl, hread⟩

theorem wireI64_back {value : Int64} (h : value ≠ Int64.maxValue) : wireI64 value ≠ 0 ∧
    (if 0 ≤ wireI64 value then wireI64 value - 1 else wireI64 value) = value := by
  have hmax : value.toInt ≠ 2 ^ 63 - 1 := fun he => h (Int64.toInt_inj.mp he)
  have := value.toInt_lt
  unfold wireI64
  by_cases hpos : 0 ≤ value
  · have hpos' : 0 ≤ value.toInt := Int64.le_iff_toInt_le.mp hpos
    have hsum : (value + 1).toInt = value.toInt + 1 := by
      rw [Int64.toInt_add]
      exact Int.bmod_eq_of_le (by simp; omega) (by simp; omega)
    have hwire : 0 ≤ value + 1 := Int64.le_iff_toInt_le.mpr (by rw [hsum]; simp; omega)
    simp only [if_pos hpos, if_pos hwire, Int64.add_sub_cancel, and_true]
    intro h
    simp only [h, Int64.toInt_zero] at hsum
    omega
  · grind

theorem nullableI64_iff (value : Option Int64) :
    RoundTrips encodeNullableI64 decodeNullableI64 value ↔ value ≠ some Int64.maxValue := by
  constructor
  · rintro ⟨bytes, -, hput, hread⟩ rfl
    obtain rfl := put_injective hput
    exact absurd (hread []) (by decide +kernel)
  · intro hmax
    cases value with
    | none => exact ⟨[nullByte], by simp, rfl, fun _ => rfl⟩
    | some value =>
      obtain ⟨b, tail, hb, hread⟩ := reads_decodeI64From (wireI64 value)
      obtain ⟨hzero, hback⟩ := wireI64_back fun h => hmax (congrArg some h)
      have hnull : b ≠ nullByte := by
        rintro rfl
        exact hzero (Prod.mk.inj (Option.some.inj (hread []))).1.symm
      have hmap := hread.map fun wire => some (if 0 ≤ wire then wire - 1 else wire)
      rw [hback] at hmap
      refine ⟨b :: tail, hb ▸ length_stopBitBytes .., congrArg put hb, ?_⟩
      refine (Reader.reads_byte b).bind ?_
      rw [if_neg hnull]
      exact hmap

theorem nullable_roundTrip_iff (unsigned : Option (BitVec 64)) (signed : Option Int64) :
    (RoundTrips encodeNullableU64 decodeNullableU64 unsigned ↔
      unsigned ≠ some (BitVec.allOnes 64)) ∧
    (RoundTrips encodeNullableI64 decodeNullableI64 signed ↔ signed ≠ some Int64.maxValue) :=
  ⟨nullableU64_iff unsigned, nullableI64_iff signed⟩

/-- The largest number is written as null. -/
theorem nullableU64_max : encodeNullableU64 (some (BitVec.allOnes 64)) 10 = some [nullByte] ∧
    decodeNullableU64.read [nullByte] = some (none, []) := by
  decide +kernel

end ExchangeSim
