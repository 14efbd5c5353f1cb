import NeoLoader.BufferRuns
import NeoLoader.ByteReader

/-!
# Reading from a buffer

Reading data at the position of a buffer is reading the bytes that are left, and writing
data at the end of a buffer puts it behind the content.
-/

namespace NeoLoader.BufferReader

open Splice Buffer CBuffer BufferRuns ByteReader

/-- The bytes that are left to read. -/
def left (b : CBuffer) : List UInt8 := b.content.drop b.uPosition

/-- `ReadData`. There is an exception for a null pointer. -/
def readData (b : CBuffer) (uLength : ℕ) : Option (List UInt8 × CBuffer) :=
  (b.getData uLength).bind fun result => result.1.map fun data => (data, result.2)

/-- `WriteData`. There is an exception for a null pointer. -/
def writeData (garbage : ℕ → UInt8) (b : CBuffer) (pData : List UInt8) : Option CBuffer :=
  (b.setData garbage (SSource.bytes pData)).bind fun result =>
    if result.1 then some result.2 else none

/-- A reader at the position of a buffer. -/
def run {β : Type} (p : Reader β) (b : CBuffer) : Option (β × CBuffer) :=
  (p (left b)).map fun r => (r.1, { b with uPosition := b.uSize - r.2.length })

/-- A reader takes its bytes off the front. -/
def Takes {β : Type} (p : Reader β) : Prop := ∀ s v rest, p s = some (v, rest) → rest <:+ s

section Reading

variable {b : CBuffer}

theorem length_left (h : BufferOk b) : (left b).length = b.uSize - b.uPosition := by
  rw [left, List.length_drop, length_content h]

theorem run_reads {β : Type} (h : BufferOk b) {p : Reader β} {x rest : List UInt8} {v : β}
    (hp : Reads p x v) (hleft : left b = x ++ rest) :
    run p b = some (v, { b with uPosition := b.uPosition + x.length }) := by
  have hlen := length_left h
  have hpos := h.position
  rw [hleft, List.length_append] at hlen
  rw [run, hleft, hp rest, Option.map_some, show b.uSize - rest.length = b.uPosition + x.length by
    omega]

end Reading

section Writing

variable {b : CBuffer}

end Writing

end NeoLoader.BufferReader
