import Mathlib.Data.List.Lex
import Mathlib.Tactic.Linarith

/-!
# Readers of bytes

A reader takes a value off the front of some bytes, or fails. It reads a value from
bytes when it takes exactly them, whatever follows. Numbers are little endian.
-/

namespace NeoLoader.ByteReader

/-- A reader takes a value off the front of some bytes, or fails. -/
abbrev Reader (β : Type) := StateT (List UInt8) Option β

/-- Bytes compare by their numbers. -/
instance linearOrderUInt8 : LinearOrder UInt8 where
  le_refl := UInt8.le_refl
  le_trans _ _ _ := UInt8.le_trans
  le_antisymm _ _ := UInt8.le_antisymm
  le_total := UInt8.le_total
  lt_iff_le_not_ge _ _ := by simp only [UInt8.lt_iff_toNat_lt, UInt8.le_iff_toNat_le]; omega
  toDecidableLE := inferInstance

/-- Words of two bytes compare by their numbers. -/
instance linearOrderUInt16 : LinearOrder UInt16 where
  le_refl := UInt16.le_refl
  le_trans _ _ _ := UInt16.le_trans
  le_antisymm _ _ := UInt16.le_antisymm
  le_total := UInt16.le_total
  lt_iff_le_not_ge _ _ := by simp only [UInt16.lt_iff_toNat_lt, UInt16.le_iff_toNat_le]; omega
  toDecidableLE := inferInstance

/-- Take so many bytes. -/
def readBytes (n : ℕ) : Reader (List UInt8) := fun s =>
  if n ≤ s.length then some (s.take n, s.drop n) else none

/-- The lowest bytes of a number, the least one first. -/
def littleEndian : ℕ → ℕ → List UInt8
  | 0, _ => []
  | n + 1, k => UInt8.ofNat k :: littleEndian n (k / 256)

/-- The number of little endian bytes. -/
def ofLittleEndian : List UInt8 → ℕ
  | [] => 0
  | b :: l => b.toNat + 256 * ofLittleEndian l

/-- Take a number of so many bytes. -/
def readNumber (n : ℕ) : Reader ℕ := do
  let bytes ← readBytes n
  return ofLittleEndian bytes

/-- Run a reader so many times, with a state. -/
def readTimes {σ : Type} (step : σ → Reader σ) : ℕ → σ → Reader σ
  | 0, s => pure s
  | n + 1, s => do
    let s ← step s
    readTimes step n s

/-- A reader takes exactly these bytes for a value, whatever follows. -/
def Reads {β : Type} (p : Reader β) (x : List UInt8) (v : β) : Prop :=
  ∀ rest, p (x ++ rest) = some (v, rest)

@[simp] theorem length_littleEndian (n k : ℕ) : (littleEndian n k).length = n := by
  induction n generalizing k with
  | zero => rfl
  | succ n ih => rw [littleEndian, List.length_cons, ih]

theorem ofLittleEndian_lt (l : List UInt8) : ofLittleEndian l < 256 ^ l.length := by
  induction l with
  | nil => exact Nat.one_pos
  | cons b l ih =>
    have hbyte := b.toNat_lt
    rw [ofLittleEndian, List.length_cons, Nat.pow_succ]
    omega

theorem ofLittleEndian_littleEndian (n k : ℕ) : ofLittleEndian (littleEndian n k) = k % 256 ^ n := by
  induction n generalizing k with
  | zero => rw [littleEndian, ofLittleEndian, Nat.pow_zero, Nat.mod_one]
  | succ n ih =>
    have hbyte : (UInt8.ofNat k).toNat = k % 256 := UInt8.toNat_ofNat'
    rw [littleEndian, ofLittleEndian, ih, hbyte, Nat.pow_succ, Nat.mul_comm (256 ^ n), Nat.mod_mul]

section Rules

variable {β γ : Type}

theorem reads_pure (v : β) : Reads (pure v) [] v := fun _ => rfl

theorem reads_bind {p : Reader β} {f : β → Reader γ} {x y : List UInt8} {v : β} {w : γ}
    (hp : Reads p x v) (hf : Reads (f v) y w) : Reads (p >>= f) (x ++ y) w := by
  intro rest
  change (p (x ++ y ++ rest)).bind (fun r => f r.1 r.2) = _
  rw [List.append_assoc, hp]
  exact hf rest

theorem reads_bind_pure {p : Reader β} {f : β → γ} {x : List UInt8} {v : β} (hp : Reads p x v) :
    Reads (p >>= fun v => pure (f v)) x (f v) := by
  have h := reads_bind hp (f := fun v => pure (f v)) (reads_pure (f v))
  rwa [List.append_nil] at h

theorem reads_bytes (x : List UInt8) : Reads (readBytes x.length) x x := by
  intro rest
  rw [readBytes, if_pos (by rw [List.length_append]; omega), List.take_left, List.drop_left]

theorem reads_number {n k : ℕ} (h : k < 256 ^ n) : Reads (readNumber n) (littleEndian n k) k := by
  have hbytes : Reads (readBytes n) (littleEndian n k) (littleEndian n k) := by
    have h := reads_bytes (littleEndian n k)
    rwa [length_littleEndian] at h
  have hread := reads_bind_pure (f := ofLittleEndian) hbytes
  rwa [ofLittleEndian_littleEndian, Nat.mod_eq_of_lt h] at hread

theorem reads_times {ι : Type*} {step : β → Reader β} {write : ι → List UInt8} {f : β → ι → β}
    {l : List ι} (h : ∀ s, ∀ i ∈ l, Reads (step s) (write i) (f s i)) (s : β) :
    Reads (readTimes step l.length s) (l.flatMap write) (l.foldl f s) := by
  induction l generalizing s with
  | nil => exact reads_pure s
  | cons i l ih =>
    rw [List.flatMap_cons, List.foldl_cons]
    exact reads_bind (h s i List.mem_cons_self) (ih (fun s j hj => h s j (List.mem_cons_of_mem _ hj)) (f s i))

end Rules

end NeoLoader.ByteReader
