import NeoLoader.Splice

/-!
# Byte buffers

A buffer has a part of its memory in use and a position to read and write at. Sums
of sizes overflow. Reading or writing outside of the memory has no result.
-/

namespace NeoLoader.Buffer

open Splice

/-- `EType`: who the memory belongs to, and whether it may grow. -/
inductive EType where
  | eNormal
  | eFixed
  | eDerived
  deriving DecidableEq

structure CBuffer where
  /-- `m_pBuffer`, unless it is a null pointer, with the memory that it points to. -/
  pBuffer : Option (List UInt8)
  uSize : ℕ
  uLength : ℕ
  uPosition : ℕ
  eType : EType
  bReadOnly : Bool
  deriving DecidableEq

/-- What is written: the bytes at a pointer, or for a null pointer only a length. -/
inductive SSource where
  /-- A null pointer with a length. -/
  | null (uLength : ℕ)
  /-- A pointer to bytes. -/
  | bytes (pData : List UInt8)

/-- The length that is written. -/
def SSource.uLength : SSource → ℕ
  | null uLength => uLength
  | bytes pData => pData.length

/-- Copying what is written to an address. A null pointer leaves the memory. -/
def SSource.copyTo (memory : List UInt8) (dst : ℕ) : SSource → Option (List UInt8)
  | null _ => some memory
  | bytes pData => memcpy memory dst pData

/-- Copying what is written to an address. A null pointer sets the memory to zero. -/
def SSource.copyOrZero (memory : List UInt8) (dst : ℕ) : SSource → Option (List UInt8)
  | null uLength => memcpy memory dst (List.replicate uLength 0)
  | bytes pData => memcpy memory dst pData

/-- A sum of two sizes. -/
def addSize (a b : ℕ) : ℕ := (a + b) % 2 ^ 64

/-- A difference of two sizes. -/
def subSize (a b : ℕ) : ℕ := (a + 2 ^ 64 - b) % 2 ^ 64

/-- The size -1. -/
def minusOne : ℕ := 2 ^ 64 - 1

/-- `realloc`, with what new memory holds. -/
def realloc (garbage : ℕ → UInt8) (memory : List UInt8) (n : ℕ) : List UInt8 :=
  (List.range n).map fun i => memory.getD i (garbage i)

namespace CBuffer

/-- The memory. -/
def memory (b : CBuffer) : List UInt8 := b.pBuffer.getD []

/-- The bytes that are in use. -/
def content (b : CBuffer) : List UInt8 := b.memory.take b.uSize

/-- The buffer after a change of its memory. -/
def change (b : CBuffer) (f : List UInt8 → Option (List UInt8)) : Option CBuffer :=
  (f b.memory).map fun memory => { b with pBuffer := b.pBuffer.map fun _ => memory }

def init : CBuffer := ⟨none, 0, 0, 0, EType.eNormal, false⟩

variable (garbage : ℕ → UInt8) (b : CBuffer)

def allocBuffer (uLength : ℕ) (bUsed bFixed : Bool) : CBuffer where
  pBuffer := some (realloc garbage [] uLength)
  uSize := if bUsed then uLength else 0
  uLength := uLength
  uPosition := 0
  eType := if bFixed then EType.eFixed else EType.eNormal
  bReadOnly := b.bReadOnly

def setBuffer (pBuffer : Option (List UInt8)) (bDerived : Bool) : CBuffer :=
  match pBuffer with
  | none => init
  | some bytes => ⟨some bytes, bytes.length, bytes.length, 0,
    if bDerived then EType.eDerived else EType.eFixed, b.bReadOnly⟩

def copyBuffer (pBuffer : List UInt8) : Option CBuffer :=
  (b.allocBuffer garbage pBuffer.length true true).change fun memory => memcpy memory 0 pBuffer

def setSize (uSize : ℕ) (bExpend : Bool) (uPreAlloc : ℕ) : Bool × CBuffer :=
  if b.uLength < addSize uSize uPreAlloc then
    if !bExpend || b.eType = EType.eDerived || b.bReadOnly then (false, b)
    else (true, { b with
      pBuffer := some (realloc garbage b.memory (addSize uSize uPreAlloc))
      uLength := addSize uSize uPreAlloc
      uSize := uSize
      uPosition := if uSize < b.uPosition then uSize else b.uPosition })
  else (true, { b with
    uSize := uSize
    uPosition := if uSize < b.uPosition then uSize else b.uPosition })

def prepareWrite (uOffset uLength : ℕ) : Bool × CBuffer :=
  if b.bReadOnly then (false, b)
  else if addSize uOffset uLength > b.uLength ∨ b.pBuffer = none then
    if b.eType ≠ EType.eNormal then (false, b)
    else b.setSize garbage (addSize uOffset uLength) true (max (min (uLength * 10 % 2 ^ 64) (b.uSize / 2)) 16)
  else if addSize uOffset uLength > b.uSize then
    (true, { b with uSize := addSize uOffset uLength })
  else (true, b)

def setPosition (uPosition : ℕ) : Bool × CBuffer :=
  if uPosition = minusOne then (true, { b with uPosition := b.uSize })
  else if uPosition > b.uSize then (false, b)
  else (true, { b with uPosition := uPosition })

/-- Reading bytes of the memory. -/
def read (uOffset uLength : ℕ) : Option (List UInt8) :=
  if uOffset + uLength ≤ b.memory.length then some ((b.memory.drop uOffset).take uLength) else none

/-- `GetData` at the position, and reading what it returns unless it is a null pointer. -/
def getData (uLength : ℕ) : Option (Option (List UInt8) × CBuffer) :=
  let uLength := if uLength = minusOne then subSize b.uSize b.uPosition else uLength
  if addSize b.uPosition uLength > b.uSize then some (none, b)
  else (b.read b.uPosition uLength).map fun data =>
    (b.pBuffer.map fun _ => data, { b with uPosition := addSize b.uPosition uLength })

/-- `GetData` at an offset, and reading what it returns. -/
def getDataAt (uOffset uLength : ℕ) : Option (Option (List UInt8) × CBuffer) :=
  if addSize uOffset uLength > b.uSize then some (none, b)
  else (b.read uOffset uLength).map fun data => (b.pBuffer.map fun _ => data, b)

/-- `SetData` at the position. -/
def setData (src : SSource) : Option (Bool × CBuffer) :=
  let (bOk, b) := b.prepareWrite garbage b.uPosition src.uLength
  if !bOk then some (false, b)
  else (b.change fun memory => src.copyTo memory b.uPosition).map fun b =>
    (true, { b with uPosition := addSize b.uPosition src.uLength })

/-- `SetData` at an offset. -/
def setDataAt (uOffset : ℕ) (src : SSource) : Option (Bool × CBuffer) :=
  let uOffset := if uOffset = minusOne then b.uSize else uOffset
  let (bOk, b) := b.prepareWrite garbage uOffset src.uLength
  if !bOk then some (false, b)
  else (b.change fun memory => src.copyOrZero memory uOffset).map fun b => (true, b)

def insertData (uOffset : ℕ) (src : SSource) : Option (Bool × CBuffer) :=
  let uSize := b.uSize
  let (bOk, b) := b.prepareWrite garbage b.uSize src.uLength
  if !bOk then some (false, b)
  else (b.change fun memory =>
    (memmove memory (addSize uOffset src.uLength) uOffset (subSize uSize uOffset)).bind
      fun memory => src.copyTo memory uOffset).map fun b => (true, b)

def removeData (uOffset uLength : ℕ) : Option (Bool × CBuffer) :=
  if b.bReadOnly then some (false, b)
  else if uLength ≠ minusOne ∧ addSize uOffset uLength > b.uSize then some (false, b)
  else
    let uLength := if uLength = minusOne then b.uSize else uLength
    (b.change fun memory =>
      memmove memory uOffset (addSize uOffset uLength) (subSize b.uSize uLength)).map fun b =>
        (true, { b with uSize := subSize b.uSize uLength })

def replaceData (uOffset uOldLength : ℕ) (src : SSource) : Option (Bool × CBuffer) :=
  (b.removeData uOffset uOldLength).bind fun (bOk, b) =>
    if !bOk then some (false, b) else b.insertData garbage uOffset src

def appendData (pData : List UInt8) : Option (Bool × CBuffer) :=
  let uOffset := b.uSize
  let (bOk, b) := b.prepareWrite garbage uOffset pData.length
  if !bOk then some (false, b)
  else (b.change fun memory => memcpy memory uOffset pData).map fun b => (true, b)

def shiftData (uOffset : ℕ) : Option (Bool × CBuffer) :=
  if uOffset > b.uSize then some (false, b)
  else (b.change fun memory => memmove memory 0 uOffset (b.uSize - uOffset)).map fun b =>
    (true, { b with
      uSize := b.uSize - uOffset
      uPosition := if b.uPosition > uOffset then b.uPosition - uOffset else 0 })

/-- `GetBuffer`, and what a caller that detaches it is left with. -/
def getBuffer (bDetatch : Bool) : CBuffer :=
  if !bDetatch then b else if b.eType = EType.eDerived then b else init

end CBuffer

end NeoLoader.Buffer
