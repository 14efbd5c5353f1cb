import NeoLoader.Buffer

/-!
# Runs of byte buffers

The position stays within the used bytes and these within the memory, and operations
are splices of the content. Removing data takes more out of the memory than there is
behind the removed bytes, forgets the position, and takes -1 for all bytes of the
buffer instead of those from the offset on.
-/

namespace NeoLoader.BufferRuns

open Splice Buffer CBuffer

section Statement

/-- An operation on a buffer, with what new memory holds. -/
inductive Op where
  | allocBuffer (garbage : ℕ → UInt8) (uLength : ℕ) (bUsed bFixed : Bool)
  | setBuffer (pBuffer : Option (List UInt8)) (bDerived : Bool)
  | copyBuffer (garbage : ℕ → UInt8) (pBuffer : List UInt8)
  | getBuffer (bDetatch : Bool)
  | setSize (garbage : ℕ → UInt8) (uSize : ℕ) (bExpend : Bool) (uPreAlloc : ℕ)
  | setReadOnly (bReadOnly : Bool)
  | setPosition (uPosition : ℕ)
  /-- `GetData` at the position. -/
  | getData (uLength : ℕ)
  /-- `GetData` at an offset. -/
  | getDataAt (uOffset uLength : ℕ)
  /-- `SetData` at the position. -/
  | setData (garbage : ℕ → UInt8) (src : SSource)
  /-- `SetData` at an offset. -/
  | setDataAt (garbage : ℕ → UInt8) (uOffset : ℕ) (src : SSource)
  | insertData (garbage : ℕ → UInt8) (uOffset : ℕ) (src : SSource)
  | removeData (uOffset uLength : ℕ)
  | replaceData (garbage : ℕ → UInt8) (uOffset uOldLength : ℕ) (src : SSource)
  | appendData (garbage : ℕ → UInt8) (pData : List UInt8)
  | shiftData (uOffset : ℕ)

/-- What an operation does to a buffer, and whether it is accepted. -/
def step : Op → CBuffer → Option (Bool × CBuffer)
  | .allocBuffer garbage uLength bUsed bFixed, b =>
    some (true, b.allocBuffer garbage uLength bUsed bFixed)
  | .setBuffer pBuffer bDerived, b => some (true, b.setBuffer pBuffer bDerived)
  | .copyBuffer garbage pBuffer, b => (b.copyBuffer garbage pBuffer).map fun b => (true, b)
  | .getBuffer bDetatch, b => some (true, b.getBuffer bDetatch)
  | .setSize garbage uSize bExpend uPreAlloc, b =>
    some (b.setSize garbage uSize bExpend uPreAlloc)
  | .setReadOnly bReadOnly, b => some (true, { b with bReadOnly := bReadOnly })
  | .setPosition uPosition, b => some (b.setPosition uPosition)
  | .getData uLength, b => (b.getData uLength).map fun result => (result.1.isSome, result.2)
  | .getDataAt uOffset uLength, b =>
    (b.getDataAt uOffset uLength).map fun result => (result.1.isSome, result.2)
  | .setData garbage src, b => b.setData garbage src
  | .setDataAt garbage uOffset src, b => b.setDataAt garbage uOffset src
  | .insertData garbage uOffset src, b => b.insertData garbage uOffset src
  | .removeData uOffset uLength, b => b.removeData uOffset uLength
  | .replaceData garbage uOffset uOldLength src, b =>
    b.replaceData garbage uOffset uOldLength src
  | .appendData garbage pData, b => b.appendData garbage pData
  | .shiftData uOffset, b => b.shiftData uOffset

/-- A buffer whose position is within the used bytes, and these within the memory. -/
structure BufferOk (b : CBuffer) : Prop where
  /-- The position is within the used bytes. -/
  position : b.uPosition ≤ b.uSize
  /-- The used bytes are within the memory. -/
  size : b.uSize ≤ b.uLength
  /-- The memory has its length. -/
  memory : b.memory.length = b.uLength
  /-- Lengths are sizes. -/
  length : b.uLength < 2 ^ 64
  /-- A buffer without memory may get some. -/
  normal : b.pBuffer = none → b.eType = EType.eNormal

/-- Bytes that a source may give: its own, or any for a null pointer. -/
def SSource.Gives : SSource → List UInt8 → Prop
  | .null uLength, x => x.length = uLength
  | .bytes pData, x => x = pData

/-- Bytes that a source gives where a null pointer stands for zeros. -/
def SSource.orZeros : SSource → List UInt8
  | .null uLength => List.replicate uLength 0
  | .bytes pData => pData

/-- The splice of the content that an accepted operation is. One that is not accepted
changes nothing. -/
def Effect : Op → CBuffer → Bool → CBuffer → Prop
  | .setData _ src, b, true, b' =>
    ∃ x, SSource.Gives src x ∧ b'.content = splice b.content b.uPosition src.uLength x
  | .setDataAt _ uOffset src, b, true, b' => b'.content =
    splice b.content (if uOffset = minusOne then b.uSize else uOffset) src.uLength (SSource.orZeros src)
  | .insertData _ uOffset src, b, true, b' =>
    ∃ x, SSource.Gives src x ∧ b'.content = splice b.content uOffset 0 x
  | .removeData uOffset uLength, b, true, b' => b'.content =
    splice b.content uOffset (if uLength = minusOne then b.uSize - uOffset else uLength) []
  | .replaceData _ uOffset uOldLength src, b, true, b' =>
    ∃ x, SSource.Gives src x ∧ b'.content = splice b.content uOffset
        (if uOldLength = minusOne then b.uSize - uOffset else uOldLength) x
  | .appendData _ pData, b, true, b' => b'.content = b.content ++ pData
  | .shiftData uOffset, b, true, b' => b'.content = b.content.drop uOffset
  | .setPosition _, b, true, b' | .getData _, b, true, b' | .getDataAt _ _, b, true, b' =>
    b'.content = b.content
  | _, b, false, b' => b' = b
  | _, _, true, _ => True

/-- Writing so many bytes at an offset of the used bytes, or behind them, overflows no
size. -/
def WriteFits (uOffset uLength : ℕ) (b : CBuffer) : Prop :=
  uOffset ≤ b.uSize ∧ uOffset + uLength + max (b.uSize / 2) 16 < 2 ^ 64

/-- Removals that are rejected: the buffer is read only or has too little. -/
def RemoveRejected (uOffset uLength : ℕ) (b : CBuffer) : Prop :=
  b.bReadOnly = true ∨ uLength ≠ minusOne ∧ b.uSize < uOffset + uLength

/-- What `RemoveData` leaves of the used bytes. -/
def sizeLeft (uLength : ℕ) (b : CBuffer) : ℕ :=
  b.uSize - if uLength = minusOne then b.uSize else uLength

/-- Data that can be removed: the used bytes fit in the memory behind the offset too, and
the position is not behind what is left. With a length of -1 there are no used bytes, or
the offset and the position are 0. -/
def RemoveFits (uOffset uLength : ℕ) (b : CBuffer) : Prop :=
  (uLength = minusOne ∨ uOffset + uLength < 2 ^ 64) ∧ (RemoveRejected uOffset uLength b ∨
    if uLength = minusOne then b.uSize = 0 ∨ uOffset = 0 ∧ b.uPosition = 0
    else uOffset + b.uSize ≤ b.uLength ∧ b.uPosition + uLength ≤ b.uSize)

/-- What is inserted for removed data fits: a buffer that may not grow has the memory. -/
def ReplaceFits (uOffset uOldLength uNewLength : ℕ) (b : CBuffer) : Prop :=
  uOffset ≤ b.uSize ∧ sizeLeft uOldLength b + uNewLength + max (sizeLeft uOldLength b / 2) 16 <
    2 ^ 64 ∧ (b.eType = EType.eNormal ∨ sizeLeft uOldLength b + uNewLength ≤ b.uLength)

/-- The condition under which an operation does what it should. -/
def Meets : Op → CBuffer → Prop
  | .allocBuffer _ uLength _ _, _ => uLength < 2 ^ 64
  | .setBuffer pBuffer _, _ => ∀ bytes ∈ pBuffer, bytes.length < 2 ^ 64
  | .copyBuffer _ pBuffer, _ => pBuffer.length < 2 ^ 64
  | .setSize _ uSize _ uPreAlloc, _ => uSize + uPreAlloc < 2 ^ 64
  | .getData uLength, b => uLength = minusOne ∨ b.uPosition + uLength < 2 ^ 64
  | .getDataAt uOffset uLength, _ => uOffset + uLength < 2 ^ 64
  | .setData _ src, b => WriteFits b.uPosition src.uLength b
  | .setDataAt _ uOffset src, b =>
    WriteFits (if uOffset = minusOne then b.uSize else uOffset) src.uLength b
  | .insertData _ uOffset src, b => uOffset ≤ b.uSize ∧ WriteFits b.uSize src.uLength b
  | .removeData uOffset uLength, b => RemoveFits uOffset uLength b
  | .replaceData _ uOffset uOldLength src, b => RemoveFits uOffset uOldLength b ∧
    (RemoveRejected uOffset uOldLength b ∨ ReplaceFits uOffset uOldLength src.uLength b)
  | .appendData _ pData, b => WriteFits b.uSize pData.length b
  | _, _ => True

/-- Buffers that are reached by operations that meet their conditions. -/
inductive Reached : CBuffer → Prop where
  /-- A new buffer. -/
  | init : Reached init
  /-- An operation. -/
  | step {op : Op} {b b' : CBuffer} {bOk : Bool} : Reached b → Meets op b → step op b = some (bOk, b') → Reached b'

end Statement

section Writing

variable {garbage : ℕ → UInt8} {b b' : CBuffer}

@[simp] theorem length_realloc (garbage : ℕ → UInt8) (memory : List UInt8) (n : ℕ) :
    (realloc garbage memory n).length = n := by
  simp [realloc]

theorem take_realloc (garbage : ℕ → UInt8) {memory : List UInt8} {n s : ℕ} (hs : s ≤ memory.length) (hn : s ≤ n) :
    (realloc garbage memory n).take s = memory.take s := by
  refine List.ext_getElem? fun j => ?_
  simp only [realloc, List.getElem?_take, List.getElem?_map]
  grind

/-- What `PrepareWrite` does if it is accepted. -/
structure Prepared (uOffset uLength : ℕ) (b b' : CBuffer) : Prop where
  /-- The buffer is in order. -/
  ok : BufferOk b'
  /-- The used bytes reach to the end of what is written. -/
  size : b'.uSize = max b.uSize (uOffset + uLength)
  /-- The bytes that were used are kept. -/
  content : b'.memory.take b.uSize = b.content
  /-- The position is kept. -/
  position : b'.uPosition = b.uPosition

/-- `PrepareWrite` makes room, or changes nothing. -/
theorem prepareWrite_ok (h : BufferOk b) {uOffset uLength : ℕ} (hfits : WriteFits uOffset uLength b)
    (garbage : ℕ → UInt8) : (b.prepareWrite garbage uOffset uLength = (false, b) ∧
      (b.bReadOnly = true ∨ b.eType ≠ EType.eNormal ∧ b.uLength < uOffset + uLength)) ∨
      ∃ b', b.prepareWrite garbage uOffset uLength = (true, b') ∧ Prepared uOffset uLength b b' := by
  obtain ⟨hoff, hsum⟩ := hfits
  have hsize := h.size
  have hlen := h.memory
  have hpos := h.position
  have hend : addSize uOffset uLength = uOffset + uLength := Nat.mod_eq_of_lt (by omega)
  unfold prepareWrite
  rw [hend]
  split_ifs with hread hroom htype hmore
  · exact Or.inl ⟨rfl, Or.inl hread⟩
  · refine Or.inl ⟨rfl, Or.inr ⟨htype, hroom.resolve_right fun hnull => htype (h.normal hnull)⟩⟩
  · have htype := not_not.mp htype
    have hnone : b.pBuffer = none → b.uLength = 0 := fun hnull => by
      rw [← hlen, memory, hnull]
      rfl
    have hless : b.uLength ≤ uOffset + uLength := by
      rcases hroom with hroom | hnull
      · omega
      · rw [hnone hnull]
        exact Nat.zero_le _
    have hmin : min (uLength * 10 % 2 ^ 64) (b.uSize / 2) ≤ b.uSize / 2 := Nat.min_le_right _ _
    generalize min (uLength * 10 % 2 ^ 64) (b.uSize / 2) = uHalf at hmin
    have halloc : addSize (uOffset + uLength) (max uHalf 16) = uOffset + uLength + max uHalf 16 :=
      Nat.mod_eq_of_lt (by omega)
    refine Or.inr ⟨_, by
      rw [setSize, halloc, if_pos (by omega), if_neg (by simp [htype, hread]), if_neg (by omega)], ?_⟩
    refine ⟨⟨?_, ?_, ?_, ?_, (fun hnull => by cases hnull)⟩, ?_, ?_, rfl⟩
    · change b.uPosition ≤ uOffset + uLength
      omega
    · change uOffset + uLength ≤ uOffset + uLength + max uHalf 16
      omega
    · exact length_realloc _ _ _
    · change uOffset + uLength + max uHalf 16 < 2 ^ 64
      omega
    · change uOffset + uLength = max b.uSize (uOffset + uLength)
      omega
    · exact take_realloc garbage (by omega) (by omega)
  · rw [not_or] at hroom
    exact Or.inr ⟨_, rfl, ⟨⟨by change b.uPosition ≤ uOffset + uLength; omega,
      by change uOffset + uLength ≤ b.uLength; omega, hlen, h.length, h.normal⟩,
      by change uOffset + uLength = max b.uSize (uOffset + uLength); omega, rfl, rfl⟩⟩
  · rw [not_or] at hroom
    exact Or.inr ⟨_, rfl, ⟨h, by omega, rfl, rfl⟩⟩

/-- A buffer with other memory of the same length. -/
structure Changed (m : List UInt8) (b b' : CBuffer) : Prop where
  /-- The buffer is in order. -/
  ok : BufferOk b'
  /-- It has the memory. -/
  memory : b'.memory = m
  /-- The used bytes are as many. -/
  size : b'.uSize = b.uSize
  /-- The length is kept. -/
  length : b'.uLength = b.uLength
  /-- The position is kept. -/
  position : b'.uPosition = b.uPosition
  /-- The type is kept. -/
  type : b'.eType = b.eType
  /-- The buffer may be written to as before. -/
  readOnly : b'.bReadOnly = b.bReadOnly

/-- A change of the memory that keeps its length. -/
theorem change_ok (h : BufferOk b) {f : List UInt8 → Option (List UInt8)} {m : List UInt8}
    (hf : f b.memory = some m) (hlen : m.length = b.memory.length) : ∃ b', b.change f = some b' ∧ Changed m b b' := by
  refine ⟨{ b with pBuffer := b.pBuffer.map fun _ => m }, by rw [change, hf]; rfl, ?_⟩
  have hmemory : ({ b with pBuffer := b.pBuffer.map fun _ => m } : CBuffer).memory = m := by
    cases hbuf : b.pBuffer with
    | some m₀ => rfl
    | none =>
      rw [memory, hbuf] at hlen
      exact (List.length_eq_zero_iff.mp hlen).symm
  refine ⟨⟨h.position, h.size, (congrArg List.length hmemory).trans (hlen.trans h.memory),
    h.length, fun hnull => h.normal (Option.map_eq_none_iff.mp hnull)⟩, hmemory, rfl, rfl, rfl,
    rfl, rfl⟩

/-- What a source gives at an offset after a copy or without one. -/
theorem exists_gives {m : List UInt8} {i : ℕ} (src : SSource) (h : i + src.uLength ≤ m.length) :
    ∃ x, SSource.Gives src x ∧ x.length = src.uLength ∧ src.copyTo m i = some (write m i x) := by
  cases src with
  | bytes pData => exact ⟨pData, rfl, rfl, memcpy_eq h⟩
  | null uLength =>
    change i + uLength ≤ m.length at h
    have hx : ((m.drop i).take uLength).length = uLength := by
      rw [List.length_take, List.length_drop]
      omega
    refine ⟨(m.drop i).take uLength, hx, hx, congrArg some ?_⟩
    refine List.ext_getElem? fun j => ?_
    simp only [write, splice, List.getElem?_append, List.getElem?_take, List.getElem?_drop,
      List.length_append, List.length_take, List.length_drop]
    grind

end Writing

section Operations

variable {b : CBuffer} {src : SSource}

/-- What is written at an offset of the used bytes or right behind them. -/
theorem written_ok {uOffset : ℕ} (hfits : WriteFits uOffset src.uLength b) {b₁ : CBuffer}
    (hprep : Prepared uOffset src.uLength b b₁) {x : List UInt8} (hx : x.length = src.uLength)
    {f : List UInt8 → Option (List UInt8)} (hf : f b₁.memory = some (write b₁.memory uOffset x)) :
    ∃ b', b₁.change f = some b' ∧ BufferOk b' ∧ b'.uPosition = b.uPosition ∧
      b'.uSize = max b.uSize (uOffset + src.uLength) ∧
      b'.content = splice b.content uOffset src.uLength x := by
  have hroom : uOffset + x.length ≤ b₁.memory.length := by
    have hsize := hprep.size
    have hin := hprep.ok.size
    rw [hprep.ok.memory, hx]
    omega
  obtain ⟨b', hchange, hch⟩ := change_ok hprep.ok hf (length_write hroom)
  refine ⟨b', hchange, hch.ok, hch.position.trans hprep.position, hch.size.trans hprep.size, ?_⟩
  rw [content, hch.memory, hch.size, hprep.size, ← hx, take_write hfits.1 hroom, hprep.content, hx]

section

variable (h : BufferOk b) (garbage : ℕ → UInt8)

include h garbage

theorem setData_ok (hfits : WriteFits b.uPosition src.uLength b) :
    ∃ bOk b', b.setData garbage src = some (bOk, b') ∧ BufferOk b' ∧ Effect (Op.setData garbage src) b bOk b' := by
  rcases prepareWrite_ok h hfits garbage with ⟨hno, -⟩ | ⟨b₁, hyes, hprep⟩
  · exact ⟨false, b, by rw [setData, hno]; rfl, h, rfl⟩
  · have hroom : b.uPosition + src.uLength ≤ b₁.memory.length := by
      have hsize := hprep.size
      have hin := hprep.ok.size
      rw [hprep.ok.memory]
      omega
    obtain ⟨x, hgives, hx, hcopy⟩ := exists_gives src hroom
    obtain ⟨b₂, hchange, hok, hpos, hsize, hcontent⟩ := written_ok hfits hprep hx
      (f := fun memory => src.copyTo memory b.uPosition) hcopy
    have hsum : addSize b₂.uPosition src.uLength = b.uPosition + src.uLength := by
      rw [hpos]
      exact Nat.mod_eq_of_lt (by have := hfits.2; omega)
    refine ⟨true, { b₂ with uPosition := addSize b₂.uPosition src.uLength }, ?_,
      ⟨?_, hok.size, hok.memory, hok.length, hok.normal⟩, x, hgives, hcontent⟩
    · rw [setData, hyes]
      dsimp only
      rw [hprep.position, hchange]
      rfl
    · change addSize b₂.uPosition src.uLength ≤ b₂.uSize
      rw [hsum, hsize]
      exact Nat.le_max_right _ _

theorem setDataAt_ok {uOffset : ℕ} (hfits : WriteFits (if uOffset = minusOne then b.uSize else uOffset) src.uLength b) :
    ∃ bOk b', b.setDataAt garbage uOffset src = some (bOk, b') ∧ BufferOk b' ∧
      Effect (Op.setDataAt garbage uOffset src) b bOk b' := by
  rcases prepareWrite_ok h hfits garbage with ⟨hno, -⟩ | ⟨b₁, hyes, hprep⟩
  · exact ⟨false, b, by rw [setDataAt, hno]; rfl, h, rfl⟩
  · have hx : (SSource.orZeros src).length = src.uLength := by
      cases src with
      | null uLength => exact List.length_replicate
      | bytes pData => rfl
    have hroom : (if uOffset = minusOne then b.uSize else uOffset) +
        (SSource.orZeros src).length ≤ b₁.memory.length := by
      have hsize := hprep.size
      have hin := hprep.ok.size
      rw [hprep.ok.memory, hx]
      omega
    obtain ⟨b₂, hchange, hok, -, -, hcontent⟩ := written_ok hfits hprep hx (f := fun memory => src.copyOrZero memory
        (if uOffset = minusOne then b.uSize else uOffset))
      (by cases src <;> exact memcpy_eq hroom)
    refine ⟨true, b₂, ?_, hok, hcontent⟩
    rw [setDataAt, hyes]
    dsimp only
    rw [hchange]
    rfl

theorem appendData_ok {pData : List UInt8} (hfits : WriteFits b.uSize pData.length b) :
    ∃ bOk b', b.appendData garbage pData = some (bOk, b') ∧ BufferOk b' ∧
      Effect (Op.appendData garbage pData) b bOk b' := by
  rcases prepareWrite_ok h hfits garbage with ⟨hno, -⟩ | ⟨b₁, hyes, hprep⟩
  · exact ⟨false, b, by rw [appendData, hno]; rfl, h, rfl⟩
  · have hroom : b.uSize + pData.length ≤ b₁.memory.length := by
      have hsize := hprep.size
      have hin := hprep.ok.size
      rw [hprep.ok.memory]
      omega
    obtain ⟨b₂, hchange, hok, -, -, hcontent⟩ := written_ok
      (show WriteFits b.uSize (SSource.bytes pData).uLength b from hfits) hprep rfl
      (f := fun memory => memcpy memory b.uSize pData) (memcpy_eq hroom)
    refine ⟨true, b₂, ?_, hok, ?_⟩
    · rw [appendData, hyes]
      dsimp only
      rw [hchange]
      rfl
    · have hall : b.content.length ≤ b.uSize := by
        rw [content, List.length_take]
        exact Nat.min_le_left _ _
      change b₂.content = b.content ++ pData
      rw [hcontent, splice, List.take_of_length_le hall, List.drop_of_length_le (by omega), List.append_nil]

/-- `InsertData`, and when it is accepted. -/
theorem insertData_ok {uOffset : ℕ} (hoff : uOffset ≤ b.uSize) (hfits : WriteFits b.uSize src.uLength b) :
    ∃ bOk b', b.insertData garbage uOffset src = some (bOk, b') ∧ BufferOk b' ∧
      Effect (Op.insertData garbage uOffset src) b bOk b' ∧
      (b.bReadOnly = false → b.eType = EType.eNormal ∨ b.uSize + src.uLength ≤ b.uLength → bOk = true) := by
  rcases prepareWrite_ok h hfits garbage with ⟨hno, hwhy⟩ | ⟨b₁, hyes, hprep⟩
  · refine ⟨false, b, by rw [insertData, hno]; rfl, h, rfl, fun hread hroom => ?_⟩
    rcases hwhy with hwhy | ⟨htype, hless⟩
    · rw [hread] at hwhy
      cases hwhy
    · rcases hroom with hroom | hroom
      · exact absurd hroom htype
      · omega
  · have hsizeb := h.size
    have hlenb := h.length
    have hsum := hfits.2
    have hroom : b.uSize + src.uLength ≤ b₁.memory.length := by
      have hsize := hprep.size
      have hin := hprep.ok.size
      rw [hprep.ok.memory]
      omega
    have hadd : addSize uOffset src.uLength = uOffset + src.uLength :=
      Nat.mod_eq_of_lt (by omega)
    have hsub : subSize b.uSize uOffset = b.uSize - uOffset := by
      unfold subSize
      omega
    have hmove : memmove b₁.memory (uOffset + src.uLength) uOffset (b.uSize - uOffset) =
        some (write b₁.memory (uOffset + src.uLength) ((b₁.memory.drop uOffset).take (b.uSize - uOffset))) :=
      memmove_eq (by omega) (by omega)
    have hlen : (write b₁.memory (uOffset + src.uLength)
        ((b₁.memory.drop uOffset).take (b.uSize - uOffset))).length = b₁.memory.length :=
      length_write (by rw [List.length_take, List.length_drop]; omega)
    obtain ⟨x, hgives, hx, hcopy⟩ := exists_gives (m := write b₁.memory (uOffset + src.uLength)
      ((b₁.memory.drop uOffset).take (b.uSize - uOffset))) (i := uOffset) src (by omega)
    obtain ⟨b₂, hchange, hch⟩ := change_ok hprep.ok
      (f := fun memory => (memmove memory (addSize uOffset src.uLength) uOffset
        (subSize b.uSize uOffset)).bind fun memory => src.copyTo memory uOffset)
      (by rw [hadd, hsub, hmove]; exact hcopy)
      (by rw [length_write (by omega), hlen])
    refine ⟨true, b₂, ?_, hch.ok, ⟨x, hgives, ?_⟩, fun _ _ => rfl⟩
    · rw [insertData, hyes]
      dsimp only
      rw [hchange]
      rfl
    · have hmax : max b.uSize (b.uSize + src.uLength) = b.uSize + x.length := by omega
      rw [content, hch.memory, hch.size, hprep.size, hmax, ← hx, take_write_insert hoff (by omega), hprep.content]

end

/-- What `RemoveData` does if it is accepted. -/
structure Removed (uOffset uLength : ℕ) (b b' : CBuffer) : Prop where
  /-- The buffer is in order. -/
  ok : BufferOk b'
  /-- The removed bytes are spliced out. -/
  content : b'.content = splice b.content uOffset (if uLength = minusOne then b.uSize - uOffset else uLength) []
  /-- The rest is left. -/
  size : b'.uSize = sizeLeft uLength b
  /-- The memory is kept. -/
  length : b'.uLength = b.uLength
  /-- The type is kept. -/
  type : b'.eType = b.eType
  /-- The buffer may be written to. -/
  writable : b'.bReadOnly = false

/-- Removing all bytes of a buffer whose position is 0. -/
theorem removeData_all (h : BufferOk b) (hread : b.bReadOnly = false) {uOffset : ℕ}
    (hfits : b.uSize = 0 ∨ uOffset = 0 ∧ b.uPosition = 0) :
    ∃ b', b.removeData uOffset minusOne = some (true, b') ∧ Removed uOffset minusOne b b' := by
  have hpos := h.position
  have hleft : subSize b.uSize b.uSize = 0 := by simp [subSize]
  have hmove : b.change (fun memory => memmove memory uOffset (addSize uOffset b.uSize) 0) =
      some b := by
    have hkeep : b.pBuffer.map (fun _ => b.memory) = b.pBuffer := by
      cases hbuf : b.pBuffer <;> simp [memory, hbuf]
    simp [change, memmove, hkeep]
  refine ⟨{ b with uSize := 0 }, ?_, ⟨?_, Nat.zero_le _, h.memory, h.length, h.normal⟩, ?_, ?_, rfl, rfl, hread⟩
  · rw [removeData, if_neg (by simp [hread]), if_neg (by simp)]
    simp only [if_pos, hleft, hmove, Option.map_some]
  · change b.uPosition ≤ 0
    omega
  · rw [if_pos rfl]
    change b.memory.take 0 = _
    rcases hfits with hfits | ⟨hoff, -⟩
    · simp [splice, content, hfits]
    · simp [splice, content, hoff]
  · rw [sizeLeft, if_pos rfl, Nat.sub_self]

variable {uOffset uLength : ℕ}

/-- Removing bytes of a buffer that fits in the memory behind the offset too. -/
theorem removeData_part (h : BufferOk b) (hread : b.bReadOnly = false)
    (hlen : uLength ≠ minusOne) (hin : uOffset + uLength ≤ b.uSize)
    (hroom : uOffset + b.uSize ≤ b.uLength) (hpos : b.uPosition + uLength ≤ b.uSize) :
    ∃ b', b.removeData uOffset uLength = some (true, b') ∧ Removed uOffset uLength b b' := by
  have hsize := h.size
  have hless := h.length
  have hadd : addSize uOffset uLength = uOffset + uLength := Nat.mod_eq_of_lt (by omega)
  have hsub : subSize b.uSize uLength = b.uSize - uLength := by
    unfold subSize
    omega
  have hmem : uOffset + b.uSize ≤ b.memory.length := h.memory.symm ▸ hroom
  have hmove : memmove b.memory uOffset (uOffset + uLength) (b.uSize - uLength) =
      some (write b.memory uOffset ((b.memory.drop (uOffset + uLength)).take (b.uSize - uLength))) :=
    memmove_eq (by omega) (by omega)
  have hpart : ((b.memory.drop (uOffset + uLength)).take (b.uSize - uLength)).length = b.uSize - uLength := by
    rw [List.length_take, List.length_drop]
    omega
  obtain ⟨b₁, hchange, hch⟩ := change_ok h
    (f := fun memory => memmove memory uOffset (uOffset + uLength) (b.uSize - uLength)) hmove
    (length_write (by omega))
  have hleft : sizeLeft uLength b = b.uSize - uLength := by rw [sizeLeft, if_neg hlen]
  refine ⟨{ b₁ with uSize := b.uSize - uLength }, ?_, ⟨?_, ?_, hch.ok.memory, hch.ok.length,
    hch.ok.normal⟩, ?_, hleft.symm, hch.length, hch.type, hch.readOnly.trans hread⟩
  · rw [removeData, if_neg (by simp [hread]), if_neg (by rw [hadd]; omega), if_neg hlen]
    dsimp only
    rw [hadd, hsub, hchange, Option.map_some, hch.size, hsub]
  · change b₁.uPosition ≤ b.uSize - uLength
    rw [hch.position]
    omega
  · change b.uSize - uLength ≤ b₁.uLength
    rw [hch.length]
    omega
  · rw [if_neg hlen]
    change b₁.memory.take (b.uSize - uLength) = _
    rw [hch.memory]
    exact take_write_remove hin (by omega) (by omega)

/-- `RemoveData` is rejected, or it splices the removed bytes out. -/
theorem removeData_ok (h : BufferOk b) (hfits : RemoveFits uOffset uLength b) :
    (b.removeData uOffset uLength = some (false, b) ∧ RemoveRejected uOffset uLength b) ∨
      (¬RemoveRejected uOffset uLength b ∧
        ∃ b', b.removeData uOffset uLength = some (true, b') ∧ Removed uOffset uLength b b') := by
  obtain ⟨hsum, hfits⟩ := hfits
  by_cases hrej : RemoveRejected uOffset uLength b
  · refine Or.inl ⟨?_, hrej⟩
    unfold removeData
    rcases hrej with hread | ⟨hlen, hless⟩
    · rw [if_pos hread]
    · have hadd : addSize uOffset uLength = uOffset + uLength :=
        Nat.mod_eq_of_lt (hsum.resolve_left hlen)
      simp [hlen, hadd, hless]
  · refine Or.inr ⟨hrej, ?_⟩
    have hfits := hfits.resolve_left hrej
    rw [RemoveRejected, not_or, not_and_or, not_not, Bool.not_eq_true] at hrej
    obtain ⟨hread, hin⟩ := hrej
    by_cases hlen : uLength = minusOne
    · rw [if_pos hlen] at hfits
      rw [hlen]
      exact removeData_all h hread hfits
    · rw [if_neg hlen] at hfits
      have hin := hin.resolve_left hlen
      exact removeData_part h hread hlen (by omega) hfits.1 hfits.2

theorem offset_le_sizeLeft (hfits : RemoveFits uOffset uLength b)
    (hrej : ¬RemoveRejected uOffset uLength b) (hoff : uOffset ≤ b.uSize) : uOffset ≤ sizeLeft uLength b := by
  have hfits := hfits.2.resolve_left hrej
  unfold RemoveRejected at hrej
  unfold sizeLeft
  split_ifs at hfits ⊢ <;> omega

section

variable (h : BufferOk b)

include h

theorem length_content : b.content.length = b.uSize := by
  rw [content, List.length_take, h.memory]
  exact Nat.min_eq_left h.size

theorem replaceData_ok (garbage : ℕ → UInt8) {uOffset uOldLength : ℕ} (hremove : RemoveFits uOffset uOldLength b)
    (hfits : RemoveRejected uOffset uOldLength b ∨ ReplaceFits uOffset uOldLength src.uLength b) :
    ∃ bOk b', b.replaceData garbage uOffset uOldLength src = some (bOk, b') ∧ BufferOk b' ∧
      Effect (Op.replaceData garbage uOffset uOldLength src) b bOk b' := by
  rcases removeData_ok h hremove with ⟨hno, -⟩ | ⟨hrej, b₁, hyes, hrem⟩
  · exact ⟨false, b, by rw [replaceData, hno]; rfl, h, rfl⟩
  · obtain ⟨hoff, hsum, hroom⟩ := hfits.resolve_left hrej
    have hleft := hrem.size
    have hin : uOffset ≤ b₁.uSize := hleft ▸ offset_le_sizeLeft hremove hrej hoff
    obtain ⟨bOk, b₂, hinsert, hok, heffect, haccept⟩ := insertData_ok hrem.ok garbage hin
      (show WriteFits b₁.uSize src.uLength b₁ from ⟨Nat.le_refl _, by rw [hleft]; exact hsum⟩)
    have htrue := haccept hrem.writable (by rw [hrem.type, hrem.length, hleft]; exact hroom)
    subst htrue
    obtain ⟨x, hgives, hcontent⟩ := heffect
    refine ⟨true, b₂, by rw [replaceData, hyes]; exact hinsert, hok, x, hgives, ?_⟩
    rw [hcontent, hrem.content]
    exact splice_remove_insert ((length_content h).symm ▸ hoff) _ _

theorem shiftData_ok (uOffset : ℕ) : ∃ bOk b', b.shiftData uOffset = some (bOk, b') ∧ BufferOk b' ∧
      Effect (Op.shiftData uOffset) b bOk b' := by
  have hsize := h.size
  have hpos := h.position
  have hlen := h.memory
  unfold shiftData
  split_ifs with hoff
  · exact ⟨false, b, rfl, h, rfl⟩
  · have hmove : memmove b.memory 0 uOffset (b.uSize - uOffset) =
        some (write b.memory 0 ((b.memory.drop uOffset).take (b.uSize - uOffset))) :=
      memmove_eq (by omega) (by omega)
    have hpart : ((b.memory.drop uOffset).take (b.uSize - uOffset)).length = b.uSize - uOffset := by
      rw [List.length_take, List.length_drop]
      omega
    obtain ⟨b₁, hchange, hch⟩ := change_ok h (f := fun memory => memmove memory 0 uOffset (b.uSize - uOffset)) hmove
      (length_write (by omega))
    rw [hchange]
    refine ⟨true, _, rfl, ⟨?_, ?_, hch.ok.memory, hch.ok.length, hch.ok.normal⟩, ?_⟩
    · change (if b₁.uPosition > uOffset then b₁.uPosition - uOffset else 0) ≤ b₁.uSize - uOffset
      rw [hch.position, hch.size]
      split_ifs <;> omega
    · change b₁.uSize - uOffset ≤ b₁.uLength
      rw [hch.size, hch.length]
      omega
    · change b₁.memory.take (b₁.uSize - uOffset) = (b.memory.take b.uSize).drop uOffset
      rw [hch.memory, hch.size]
      have hmoved : (write b.memory 0 ((b.memory.drop uOffset).take (b.uSize - uOffset))).take
          (b.uSize - uOffset) = splice (b.memory.take b.uSize) 0 uOffset [] := by
        have hmoved := take_write_remove (m := b.memory) (i := 0) (n := uOffset) (show 0 + uOffset ≤ b.uSize by omega)
          (show b.uSize - uOffset ≤ 0 + (b.uSize - uOffset) by omega) (by omega)
        rwa [Nat.zero_add] at hmoved
      rw [hmoved]
      simp [splice]

theorem setSize_ok (garbage : ℕ → UInt8) {uSize uPreAlloc : ℕ} (bExpend : Bool) (hsum : uSize + uPreAlloc < 2 ^ 64) :
    ∃ bOk b', b.setSize garbage uSize bExpend uPreAlloc = (bOk, b') ∧ BufferOk b' ∧
      Effect (Op.setSize garbage uSize bExpend uPreAlloc) b bOk b' := by
  have hadd : addSize uSize uPreAlloc = uSize + uPreAlloc := Nat.mod_eq_of_lt hsum
  have hpos : (if uSize < b.uPosition then uSize else b.uPosition) ≤ uSize := by
    split_ifs <;> omega
  unfold setSize
  rw [hadd]
  generalize (if uSize < b.uPosition then uSize else b.uPosition) = uPosition at hpos ⊢
  split_ifs with hroom hno
  · exact ⟨false, b, rfl, h, rfl⟩
  · exact ⟨true, _, rfl, ⟨hpos, Nat.le_add_right _ _, length_realloc _ _ _, hsum, fun hnull => by cases hnull⟩, trivial⟩
  · exact ⟨true, _, rfl, ⟨hpos, by change uSize ≤ b.uLength; omega, h.memory, h.length, h.normal⟩, trivial⟩

theorem setPosition_ok (uPosition : ℕ) : ∃ bOk b', b.setPosition uPosition = (bOk, b') ∧ BufferOk b' ∧
      Effect (Op.setPosition uPosition) b bOk b' := by
  unfold setPosition
  split_ifs with hend hout
  · exact ⟨true, _, rfl, ⟨Nat.le_refl _, h.size, h.memory, h.length, h.normal⟩, rfl⟩
  · exact ⟨false, b, rfl, h, rfl⟩
  · exact ⟨true, _, rfl, ⟨Nat.le_of_not_lt hout, h.size, h.memory, h.length, h.normal⟩, rfl⟩

theorem read_ok (hin : uOffset + uLength ≤ b.uSize) :
    b.read uOffset uLength = some ((b.content.drop uOffset).take uLength) := by
  have hsize := h.size
  unfold CBuffer.read
  rw [if_pos (by rw [h.memory]; omega), content, List.drop_take, List.take_take, Nat.min_eq_left (by omega)]

/-- A buffer that is read at the position it moves to. -/
theorem getData_ok {uLength : ℕ} (hsum : uLength = minusOne ∨ b.uPosition + uLength < 2 ^ 64) :
    ∃ result, b.getData uLength = some result ∧ BufferOk result.2 ∧
      Effect (Op.getData uLength) b result.1.isSome result.2 := by
  have hposition := h.position
  have hsize := h.size
  have hless := h.length
  have hlen : ∃ n, (if uLength = minusOne then subSize b.uSize b.uPosition else uLength) = n ∧
      b.uPosition + n < 2 ^ 64 := by
    refine ⟨_, rfl, ?_⟩
    split_ifs with hrest
    · unfold subSize
      omega
    · exact hsum.resolve_left hrest
  obtain ⟨n, hn, hsum⟩ := hlen
  have hadd : addSize b.uPosition n = b.uPosition + n := Nat.mod_eq_of_lt hsum
  unfold getData
  rw [hn]
  dsimp only
  rw [hadd]
  split_ifs with hout
  · exact ⟨(none, b), rfl, h, rfl⟩
  · have hin := Nat.le_of_not_lt hout
    rw [read_ok h hin]
    refine ⟨_, rfl, ⟨hin, h.size, h.memory, h.length, h.normal⟩, ?_⟩
    by_cases hbuf : b.pBuffer = none
    · have hnull : b.uLength = 0 := by
        rw [← h.memory, memory, hbuf]
        rfl
      have hzero : n = 0 := by omega
      subst hzero
      simp only [Effect, hbuf, Option.map_none, Option.isSome_none]
      exact congrArg (fun p => ({ b with pBuffer := p } : CBuffer)) hbuf.symm
    · obtain ⟨m, hm⟩ := Option.ne_none_iff_exists'.mp hbuf
      simp [Effect, hm, content, memory]

/-- A buffer that is read at an offset. -/
theorem getDataAt_ok (hsum : uOffset + uLength < 2 ^ 64) :
    ∃ result, b.getDataAt uOffset uLength = some result ∧ BufferOk result.2 ∧
      Effect (Op.getDataAt uOffset uLength) b result.1.isSome result.2 := by
  have hadd : addSize uOffset uLength = uOffset + uLength := Nat.mod_eq_of_lt hsum
  unfold getDataAt
  rw [hadd]
  split_ifs with hout
  · exact ⟨(none, b), rfl, h, rfl⟩
  · rw [read_ok h (Nat.le_of_not_lt hout)]
    refine ⟨_, rfl, h, ?_⟩
    cases hbuf : b.pBuffer <;> simp [Effect]

end

theorem init_ok : BufferOk init :=
  ⟨Nat.le_refl _, Nat.le_refl _, rfl, by change 0 < 2 ^ 64; omega, fun _ => rfl⟩

theorem allocated_ok {bytes : List UInt8} {uSize : ℕ} (hsize : uSize ≤ bytes.length)
    (hlen : bytes.length < 2 ^ 64) (eType : EType) (bReadOnly : Bool) :
    BufferOk ⟨some bytes, uSize, bytes.length, 0, eType, bReadOnly⟩ :=
  ⟨Nat.zero_le _, hsize, rfl, hlen, fun hnull => by cases hnull⟩

theorem allocBuffer_ok (garbage : ℕ → UInt8) (b : CBuffer) {uLength : ℕ} (hlen : uLength < 2 ^ 64)
    (bUsed bFixed : Bool) : BufferOk (b.allocBuffer garbage uLength bUsed bFixed) := by
  refine ⟨Nat.zero_le _, ?_, length_realloc _ _ _, hlen, fun hnull => by cases hnull⟩
  change (if bUsed = true then uLength else 0) ≤ uLength
  split_ifs
  · exact Nat.le_refl _
  · exact Nat.zero_le _

theorem copyBuffer_ok (garbage : ℕ → UInt8) (b : CBuffer) {pBuffer : List UInt8} (hlen : pBuffer.length < 2 ^ 64) :
    ∃ b', b.copyBuffer garbage pBuffer = some b' ∧ BufferOk b' := by
  have hroom : 0 + pBuffer.length ≤ (b.allocBuffer garbage pBuffer.length true true).memory.length := by
    rw [(allocBuffer_ok garbage b hlen true true).memory, Nat.zero_add]
    exact Nat.le_refl _
  obtain ⟨b', hchange, hch⟩ := change_ok (allocBuffer_ok garbage b hlen true true)
    (f := fun memory => memcpy memory 0 pBuffer) (memcpy_eq hroom) (length_write hroom)
  exact ⟨b', hchange, hch.ok⟩

/-- One operation that meets its condition keeps the order of the buffer, and is its
splice. -/
theorem step_ok (h : BufferOk b) {op : Op} (hmeets : Meets op b) :
    ∃ bOk b', step op b = some (bOk, b') ∧ BufferOk b' ∧ Effect op b bOk b' := by
  cases op with
  | allocBuffer garbage uLength bUsed bFixed =>
    exact ⟨true, _, rfl, allocBuffer_ok garbage b hmeets bUsed bFixed, trivial⟩
  | setBuffer pBuffer bDerived =>
    refine ⟨true, _, rfl, ?_, trivial⟩
    cases pBuffer with
    | none => exact init_ok
    | some bytes => exact allocated_ok (Nat.le_refl _) (hmeets bytes rfl) _ _
  | copyBuffer garbage pBuffer =>
    obtain ⟨b', hcopy, hok⟩ := copyBuffer_ok garbage b hmeets
    exact ⟨true, b', by rw [step, hcopy]; rfl, hok, trivial⟩
  | getBuffer bDetatch =>
    refine ⟨true, _, rfl, ?_, trivial⟩
    unfold getBuffer
    split_ifs
    · exact h
    · exact h
    · exact init_ok
  | setSize garbage uSize bExpend uPreAlloc =>
    obtain ⟨bOk, b', hsize, hok, heffect⟩ := setSize_ok h garbage bExpend hmeets
    exact ⟨bOk, b', congrArg some hsize, hok, heffect⟩
  | setReadOnly bReadOnly =>
    exact ⟨true, _, rfl, ⟨h.position, h.size, h.memory, h.length, h.normal⟩, trivial⟩
  | setPosition uPosition =>
    obtain ⟨bOk, b', hpos, hok, heffect⟩ := setPosition_ok h uPosition
    exact ⟨bOk, b', congrArg some hpos, hok, heffect⟩
  | getData uLength =>
    obtain ⟨result, hget, hok, heffect⟩ := getData_ok h hmeets
    exact ⟨_, result.2, by rw [step, hget]; rfl, hok, heffect⟩
  | getDataAt uOffset uLength =>
    obtain ⟨result, hget, hok, heffect⟩ := getDataAt_ok h hmeets
    exact ⟨_, result.2, by rw [step, hget]; rfl, hok, heffect⟩
  | setData garbage src => exact setData_ok h garbage hmeets
  | setDataAt garbage uOffset src => exact setDataAt_ok h garbage hmeets
  | insertData garbage uOffset src =>
    obtain ⟨bOk, b', hinsert, hok, heffect, -⟩ := insertData_ok h garbage hmeets.1 hmeets.2
    exact ⟨bOk, b', hinsert, hok, heffect⟩
  | removeData uOffset uLength =>
    rcases removeData_ok h hmeets with ⟨hno, -⟩ | ⟨-, b', hyes, hrem⟩
    · exact ⟨false, b, hno, h, rfl⟩
    · exact ⟨true, b', hyes, hrem.ok, hrem.content⟩
  | replaceData garbage uOffset uOldLength src =>
    exact replaceData_ok h garbage hmeets.1 hmeets.2
  | appendData garbage pData => exact appendData_ok h garbage hmeets
  | shiftData uOffset => exact shiftData_ok h uOffset

theorem reached_ok (h : Reached b) : BufferOk b := by
  induction h with
  | init => exact init_ok
  | @step op b b' bOk hreach hmeets hstep ih =>
    obtain ⟨bOk', b'', hresult, hok, -⟩ := step_ok ih hmeets
    have hsame : (bOk', b'') = (bOk, b') := Option.some.inj (hresult.symm.trans hstep)
    have hb : b'' = b' := congrArg Prod.snd hsame
    exact hb ▸ hok

end Operations

section Results

/-- In every run whose operations meet their conditions the position is within the used
bytes and these within the memory, and every operation that meets its condition has a
result, which is its splice. -/
theorem run_buffer {b : CBuffer} (h : Reached b) :
    (b.uPosition ≤ b.uSize ∧ b.uSize ≤ b.uLength ∧ b.memory.length = b.uLength) ∧
      ∀ op, Meets op b → ∃ bOk b', step op b = some (bOk, b') ∧ Effect op b bOk b' := by
  have hok := reached_ok h
  refine ⟨⟨hok.position, hok.size, hok.memory⟩, fun op hmeets => ?_⟩
  obtain ⟨bOk, b', hstep, -, heffect⟩ := step_ok hok hmeets
  exact ⟨bOk, b', hstep, heffect⟩

/-- Ten bytes in ten bytes of memory. -/
def tenBytes : CBuffer := ⟨some [0, 1, 2, 3, 4, 5, 6, 7, 8, 9], 10, 10, 0, EType.eFixed, false⟩

/-- A run that sets a buffer of ten bytes. -/
theorem run_buffer_ten : (tenBytes.uPosition ≤ tenBytes.uSize ∧ tenBytes.uSize ≤ tenBytes.uLength ∧
      tenBytes.memory.length = tenBytes.uLength) ∧
      ∀ op, Meets op tenBytes → ∃ bOk b', step op tenBytes = some (bOk, b') ∧ Effect op tenBytes bOk b' :=
  run_buffer (Reached.step Reached.init
    (show Meets (Op.setBuffer (some [0, 1, 2, 3, 4, 5, 6, 7, 8, 9]) false) init by simp [Meets])
    rfl)

/-- Removing a byte of ten reads behind the memory, removing the rest empties the buffer,
removing keeps a position behind the used bytes, and a replacement that does not fit is
rejected with the old data removed. -/
theorem removeData_wrong : tenBytes.removeData 5 1 = none ∧
      tenBytes.removeData 5 minusOne = some (true, { tenBytes with uSize := 0 }) ∧
      ({ tenBytes with uPosition := 10 } : CBuffer).removeData 0 4 =
        some (true, ⟨some [4, 5, 6, 7, 8, 9, 6, 7, 8, 9], 6, 10, 10, EType.eFixed, false⟩) ∧
      tenBytes.replaceData (fun _ => 0) 0 4 (SSource.bytes [1, 2, 3, 4, 5]) =
        some (false, ⟨some [4, 5, 6, 7, 8, 9, 6, 7, 8, 9], 6, 10, 0, EType.eFixed, false⟩) := by
  decide

end Results

end NeoLoader.BufferRuns
