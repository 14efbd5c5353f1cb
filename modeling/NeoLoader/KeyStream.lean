import Mathlib.Data.List.Basic

/-!
# Key streams

A stream cipher adds the bytes of a key stream to the data and goes on in it. Data that was processed twice
from the same place is the data again, and data can be processed piece by piece.
-/

namespace NeoLoader.KeyStream

/-- A key stream, and how far it is used. -/
structure Cipher where
  /-- The bytes of the stream. -/
  stream : ℕ → UInt8
  /-- The next one. -/
  place : ℕ

namespace Cipher

/-- The next bytes of the stream are not used. -/
def discard (c : Cipher) (n : ℕ) : Cipher := { c with place := c.place + n }

/-- The data with the next bytes of the stream. -/
def process (c : Cipher) : List UInt8 → List UInt8
  | [] => []
  | b :: data => (b ^^^ c.stream c.place) :: process (c.discard 1) data
termination_by structural data => data

variable (c : Cipher)

@[simp] theorem discard_zero : c.discard 0 = c := rfl

@[simp] theorem discard_discard (n k : ℕ) : (c.discard n).discard k = c.discard (n + k) := by
  simp [discard, Nat.add_assoc]

@[simp] theorem length_process (data : List UInt8) : (c.process data).length = data.length := by
  induction data generalizing c with
  | nil => rfl
  | cons b data ih => simp [process, ih]

@[simp] theorem process_process (data : List UInt8) : c.process (c.process data) = data := by
  induction data generalizing c with
  | nil => rfl
  | cons b data ih => simp [process, ih, UInt8.xor_assoc]

end Cipher

end NeoLoader.KeyStream
