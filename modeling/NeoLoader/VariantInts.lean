import NeoLoader.Variant

/-!
# Integers in variants

A variant that is made from an integer keeps its bytes, the least one first. A conversion copies the
bytes that are there and fills up with zeros, so it does not extend a sign: a negative integer becomes
another one when a wider conversion reads it.
-/

namespace NeoLoader.VariantInts

open ByteReader Variant

section Conversions

def eSInt : ℕ := 16

def eUInt : ℕ := 17

def eInvalid : ℕ := 63

/-- The types of integers for which there are a constructor and a conversion. -/
inductive IntType where
  | sint8
  | uint8
  | sint16
  | uint16
  | sint32
  | uint32
  /-- `time_t`, which is kept as `sint64`. -/
  | time
  | sint64
  | uint64
  deriving DecidableEq

/-- `sizeof`. -/
def IntType.size : IntType → ℕ
  | .sint8 | .uint8 => 1
  | .sint16 | .uint16 => 2
  | .sint32 | .uint32 => 4
  | .time | .sint64 | .uint64 => 8

/-- Whether there are negative integers of a type. -/
def IntType.signed : IntType → Bool
  | .sint8 | .sint16 | .sint32 | .time | .sint64 => true
  | .uint8 | .uint16 | .uint32 | .uint64 => false

/-- The type of the variant that a constructor makes. -/
def IntType.type : IntType → ℕ
  | .sint8 | .sint16 | .sint32 | .sint64 => eSInt
  | .uint8 | .uint16 | .uint32 | .time | .uint64 => eUInt

/-- The integers of a type. -/
def IntType.Holds (t : IntType) (n : ℤ) : Prop :=
  if t.signed then -256 ^ t.size ≤ 2 * n ∧ 2 * n < 256 ^ t.size else 0 ≤ n ∧ n < 256 ^ t.size

/-- The bytes of an integer in memory. -/
def intBytes (size : ℕ) (n : ℤ) : Bytes := littleEndian size (n % 256 ^ size).toNat

/-- The integer that has these bytes in memory. -/
def IntType.ofBytes (t : IntType) (bytes : Bytes) : ℤ :=
  if t.signed ∧ 256 ^ t.size ≤ 2 * ofLittleEndian bytes then ofLittleEndian bytes - 256 ^ t.size
  else ofLittleEndian bytes

/-- The constructor for an integer. -/
def ofInt (t : IntType) (n : ℤ) : CVariant := .raw t.type (intBytes t.size n)

/-- The constructor for a `bool`. -/
def ofBool (b : Bool) : CVariant := .raw eSInt (intBytes 1 b.toInt)

/-- Why there is no integer. -/
inductive Fault where
  /-- An exception. -/
  | thrown (text : String)
  /-- Bytes are read where there are none. -/
  | null
  deriving DecidableEq

def size : CVariant → ℕ
  | .raw _ payload | .packet _ payload => payload.length
  | .map _ _ | .list _ => 0
  | .damaged _ size => size

/-- The bytes at `Payload`, as many as `Size` says. -/
def bytes : CVariant → Except Fault Bytes
  | .raw _ payload | .packet _ payload => .ok payload
  | .map _ _ | .list _ => .ok []
  | .damaged _ size => if size = 0 then .ok [] else .error .null

/-- `CVariant::GetInt`. -/
def getInt (Size : ℕ) (v : CVariant) : Except Fault Bytes :=
  if v.type = eInvalid then .ok (List.replicate Size 0)
  else if v.type ≠ eSInt ∧ v.type ≠ eUInt then
    .error (.thrown "Int Value can not be pulled form a incomatible type")
  else if Size < size v then .error (.thrown "Int Value pulled is shorter than int value present")
  else (bytes v).map (fun Payload => Payload ++ List.replicate (Size - size v) 0)

/-- The conversion to an integer. -/
def toInt (t : IntType) (v : CVariant) : Except Fault ℤ := (getInt t.size v).map t.ofBytes

end Conversions

section Bytes

theorem ofLittleEndian_append_zeros (l : Bytes) (n : ℕ) :
    ofLittleEndian (l ++ List.replicate n 0) = ofLittleEndian l := by
  induction l with
  | nil =>
    induction n with
    | zero => simp
    | succ n ih => simpa [List.replicate_succ, ofLittleEndian] using ih
  | cons b l ih => simp [ofLittleEndian, ih]

theorem ofLittleEndian_intBytes (size : ℕ) (n : ℤ) : (ofLittleEndian (intBytes size n) : ℤ) = n % 256 ^ size := by
  have hpos : (0 : ℤ) < 256 ^ size := by positivity
  have hnonneg := Int.emod_nonneg n hpos.ne'
  have hlt := Int.emod_lt_of_pos n hpos
  have hlow : (n % 256 ^ size).toNat < 256 ^ size := by
    zify
    simpa [hnonneg] using hlt
  simp [intBytes, ofLittleEndian_littleEndian, Nat.mod_eq_of_lt hlow, hnonneg]

theorem type_isInt (t : IntType) : t.type ≠ eInvalid ∧ (t.type = eSInt ∨ t.type = eUInt) := by
  cases t <;> simp [IntType.type, eSInt, eUInt, eInvalid]

theorem getInt_raw {Size type : ℕ} {payload : Bytes} (hvalid : type ≠ eInvalid)
    (htype : type = eSInt ∨ type = eUInt) (hsize : payload.length ≤ Size) :
    getInt Size (.raw type payload) = .ok (payload ++ List.replicate (Size - payload.length) 0) := by
  have hint : ¬ (type ≠ eSInt ∧ type ≠ eUInt) := by tauto
  simp [getInt, CVariant.type, size, bytes, hvalid, hint, Nat.not_lt.mpr hsize, Except.map]

theorem toInt_ofInt (s r : IntType) (n : ℤ) (hsize : s.size ≤ r.size) :
    toInt r (ofInt s n) = .ok (if r.signed ∧ (256 : ℤ) ^ r.size ≤ 2 * (n % 256 ^ s.size) then
      n % 256 ^ s.size - 256 ^ r.size else n % 256 ^ s.size) := by
  have hlength : (intBytes s.size n).length ≤ r.size := by simpa [intBytes] using hsize
  have hbytes := ofLittleEndian_intBytes s.size n
  have hcond : ∀ m : ℕ, (256 ^ r.size ≤ 2 * m) = ((256 : ℤ) ^ r.size ≤ 2 * m) := by
    intro m
    zify
  rw [toInt, ofInt, getInt_raw (type_isInt s).1 (type_isInt s).2 hlength]
  simp only [Except.map, IntType.ofBytes, ofLittleEndian_append_zeros, hcond, hbytes]

end Bytes

section Results

/-- A conversion of the same width gives the integer back. -/
theorem toInt_ofInt_same {s r : IntType} {n : ℤ} (hn : s.Holds n) (hsign : s.signed = r.signed)
    (hsize : s.size = r.size) : toInt r (ofInt s n) = .ok n := by
  rw [toInt_ofInt s r n hsize.le, ← hsign, ← hsize]
  congr 1
  by_cases hs : s.signed = true
  · simp only [IntType.Holds, hs, if_true] at hn
    by_cases hneg : n < 0
    · have hmod : n % 256 ^ s.size = n + 256 ^ s.size := by
        rw [← Int.add_emod_right, Int.emod_eq_of_lt (by omega) (by omega)]
      rw [hmod, if_pos ⟨hs, by omega⟩]
      omega
    · rw [Int.emod_eq_of_lt (by omega) (by omega), if_neg (by omega)]
  · simp only [IntType.Holds, hs] at hn
    rw [Int.emod_eq_of_lt hn.1 hn.2, if_neg (by simp [hs])]

theorem toInt_ofInt_wider {s r : IntType} (n : ℤ) (hsize : s.size < r.size) :
    toInt r (ofInt s n) = .ok (n % 256 ^ s.size) := by
  have hpos : (0 : ℤ) < 256 ^ s.size := by positivity
  have hlt := Int.emod_lt_of_pos n hpos
  have hwide : (256 : ℤ) ^ s.size * 256 ≤ 256 ^ r.size := by
    rw [← pow_succ]
    exact pow_le_pow_right₀ (by norm_num) hsize
  rw [toInt_ofInt s r n hsize.le, if_neg (by omega)]

/-- An integer is read back through a conversion of the same signedness that is no narrower if and only
if the conversion is no wider either, or the integer is not negative. -/
theorem toInt_ofInt_iff (s r : IntType) (n : ℤ) (hn : s.Holds n) (hsign : s.signed = r.signed)
    (hsize : s.size ≤ r.size) :
    toInt r (ofInt s n) = .ok n ↔ s.size = r.size ∨ 0 ≤ n := by
  have hpos : (0 : ℤ) < 256 ^ s.size := by positivity
  rcases hsize.lt_or_eq with hlt | heq
  · rw [toInt_ofInt_wider n hlt]
    constructor
    · intro h
      have hmod : n % 256 ^ s.size = n := by simpa using h
      have hnonneg := Int.emod_nonneg n hpos.ne'
      exact Or.inr (by omega)
    · rintro (h | h)
      · omega
      · have hbound : n < 256 ^ s.size := by
          by_cases hs : s.signed = true
          · simp only [IntType.Holds, hs, if_true] at hn
            omega
          · simp only [IntType.Holds, hs] at hn
            exact hn.2
        rw [Int.emod_eq_of_lt h hbound]
  · simp [toInt_ofInt_same hn hsign heq, heq]

/-- The smallest integer of 16 bits is read back as one of 16 bits. -/
theorem toInt_ofInt_sint16 : toInt .sint16 (ofInt .sint16 (-32768)) = .ok (-32768) :=
  (toInt_ofInt_iff .sint16 .sint16 (-32768) (by simp [IntType.Holds, IntType.signed, IntType.size])
    rfl le_rfl).mpr (Or.inl rfl)

/-- Minus one in 8 bits is read as 255 in 32 bits. -/
theorem toInt_negative : IntType.Holds .sint8 (-1) ∧ IntType.signed .sint8 = IntType.signed .sint32 ∧
      IntType.size .sint8 ≤ IntType.size .sint32 ∧ toInt .sint32 (ofInt .sint8 (-1)) = .ok 255 ∧
      toInt .sint32 (ofInt .sint8 (-1)) ≠ .ok (-1) := by
  have hread := toInt_ofInt_wider (s := .sint8) (r := .sint32) (-1) (by simp [IntType.size])
  simp [IntType.Holds, IntType.signed, IntType.size, hread]

end Results

end NeoLoader.VariantInts
