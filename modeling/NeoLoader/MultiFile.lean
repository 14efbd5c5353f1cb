import NeoLoader.RandomAccess

/-!
# Files of several sub-files

Reading and writing a file that is made of sub-files is a loop over them: the part of the range that lies
in a sub-file is read from it or written to it, and the loop ends when a sub-file gives or takes less.
-/

namespace NeoLoader.MultiFile

open RandomAccess

section Code

/-- How many bytes a device reads and writes for an offset and a length, unless it fails. -/
structure Device where
  /-- Reading. -/
  reads : ℕ → ℕ → Option ℕ
  /-- Writing. -/
  writes : ℕ → ℕ → Option ℕ

structure CFileIo where
  /-- The bytes on disk. -/
  content : List UInt8
  m_ReadOnly : Bool
  /-- The device. -/
  device : Device

def CFileIo.read (f : CFileIo) (offset maxSize : ℕ) : Option (List UInt8) :=
  (f.device.reads offset maxSize).map fun k => (slice f.content offset maxSize).take k

/-- `CFileIO::Write`, with the number of bytes that were written. -/
def CFileIo.write (f : CFileIo) (offset : ℕ) (data : List UInt8) : Option ℕ × CFileIo :=
  if f.m_ReadOnly then (none, f)
  else match f.device.writes offset data.length with
    | none => (none, f)
    | some k => (some (min k data.length), { f with content := put 0 f.content offset (data.take k) })

/-- `SMultiIO`, with the file that its ID stands for if there is one. -/
structure SMultiIo where
  uFileSize : ℕ
  /-- The file. -/
  file : Option CFileIo

/-- `CIOManager::readData`. -/
def readData (SubFile : SMultiIo) (Offset maxlen : ℕ) : Option (List UInt8) :=
  SubFile.file.bind fun f => f.read Offset maxlen

/-- `CIOManager::writeData`. -/
def writeData (SubFile : SMultiIo) (Offset : ℕ) (data : List UInt8) : Option ℕ × SMultiIo :=
  match SubFile.file with
  | none => (none, SubFile)
  | some f => ((f.write Offset data).1, { SubFile with file := some (f.write Offset data).2 })

/-- The loop of `CMultiFileIO::Read`. -/
def readLoop : List SMultiIo → ℕ → ℕ → ℕ → List UInt8 → Option (List UInt8)
  | [], _, _, _, Buffer => some Buffer
  | SubFile :: SubFiles, CurIndex, StartOffset, Length, Buffer =>
    let CurSize := SubFile.uFileSize
    if Length = 0 then some Buffer
    else if CurIndex + CurSize > StartOffset then
      let Offset := StartOffset - CurIndex
      let ToGo := min Length (CurSize - Offset)
      match readData SubFile Offset ToGo with
      | none => none
      | some Read =>
        if Read.length ≠ ToGo then some (Buffer ++ Read)
        else readLoop SubFiles (CurIndex + CurSize) (StartOffset + Read.length) (Length - Read.length) (Buffer ++ Read)
    else readLoop SubFiles (CurIndex + CurSize) StartOffset Length Buffer

/-- `CMultiFileIO::Read`. -/
def read (SubFiles : List SMultiIo) (offset maxlen : ℕ) : Option (List UInt8) :=
  readLoop SubFiles 0 offset maxlen []

/-- The loop of `CMultiFileIO::Write`. -/
def writeLoop : List SMultiIo → ℕ → ℕ → List UInt8 → ℕ → Option ℕ × List SMultiIo
  | [], _, _, _, TotalWriten => (some TotalWriten, [])
  | SubFile :: SubFiles, CurIndex, StartOffset, Buffer, TotalWriten =>
    let CurSize := SubFile.uFileSize
    if Buffer.length = 0 then (some TotalWriten, SubFile :: SubFiles)
    else if CurIndex + CurSize > StartOffset then
      let Offset := StartOffset - CurIndex
      let ToGo := min Buffer.length (CurSize - Offset)
      let Result := writeData SubFile Offset (Buffer.take ToGo)
      match Result.1 with
      | none => (none, Result.2 :: SubFiles)
      | some Writen =>
        if Writen ≠ ToGo then (some (TotalWriten + Writen), Result.2 :: SubFiles)
        else
          let Rest := writeLoop SubFiles (CurIndex + CurSize) (StartOffset + Writen)
            (Buffer.drop Writen) (TotalWriten + Writen)
          (Rest.1, Result.2 :: Rest.2)
    else
      let Rest := writeLoop SubFiles (CurIndex + CurSize) StartOffset Buffer TotalWriten
      (Rest.1, SubFile :: Rest.2)

/-- `CMultiFileIO::Write`. -/
def write (SubFiles : List SMultiIo) (offset : ℕ) (data : List UInt8) : Option ℕ × List SMultiIo :=
  writeLoop SubFiles 0 offset data 0

end Code

section SubFiles

/-- The bytes on disk of a sub-file. -/
def SMultiIo.content (SubFile : SMultiIo) : List UInt8 := (SubFile.file.map CFileIo.content).getD []

/-- The bytes of a sub-file: so many as its size, and zeros where there are none on disk. -/
def SMultiIo.bytes (SubFile : SMultiIo) : List UInt8 :=
  (List.range SubFile.uFileSize).map fun i => SubFile.content.getD i 0

/-- The concatenation of sub-files. -/
def bytes (SubFiles : List SMultiIo) : List UInt8 := SubFiles.flatMap SMultiIo.bytes

/-- Reading within the size fails: there is no file, or the device gives less than it is asked for. -/
def SMultiIo.ReadFails (SubFile : SMultiIo) : Prop :=
  ∃ offset length, offset + length ≤ SubFile.uFileSize ∧
    ∀ f ∈ SubFile.file, ∀ k ∈ f.device.reads offset length, k < length

/-- Writing within the size fails: there is no file, it is only read, or the device takes less. -/
def SMultiIo.WriteFails (SubFile : SMultiIo) : Prop :=
  ∃ offset length, offset + length ≤ SubFile.uFileSize ∧
    ∀ f ∈ SubFile.file, f.m_ReadOnly = true ∨ ∀ k ∈ f.device.writes offset length, k < length

/-- A range is on disk. -/
def Allocated : List SMultiIo → ℕ → ℕ → Prop
  | [], _, _ => True
  | SubFile :: SubFiles, i, n =>
    (i + min n (SubFile.uFileSize - i) ≤ SubFile.content.length ∨ n = 0 ∨ SubFile.uFileSize ≤ i) ∧
      Allocated SubFiles (i - SubFile.uFileSize) (n - (SubFile.uFileSize - i))

@[simp] theorem SMultiIo.length_bytes (SubFile : SMultiIo) : SubFile.bytes.length = SubFile.uFileSize := by
  simp [bytes]

theorem SMultiIo.getElem?_bytes (SubFile : SMultiIo) (i : ℕ) :
    SubFile.bytes[i]? = if i < SubFile.uFileSize then some (SubFile.content.getD i 0) else none := by
  by_cases h : i < SubFile.uFileSize <;> simp [bytes, h]

theorem bytes_cons (SubFile : SMultiIo) (SubFiles : List SMultiIo) :
    bytes (SubFile :: SubFiles) = SubFile.bytes ++ bytes SubFiles := by
  simp [bytes]

section

variable {SubFile : SMultiIo} {Offset ToGo : ℕ} (h : Offset + ToGo ≤ SubFile.uFileSize)

include h

/-- What a sub-file gives is what it has there. -/
theorem readData_prefix {Read : List UInt8} (hread : readData SubFile Offset ToGo = some Read) :
    Read <+: slice SubFile.bytes Offset ToGo := by
  obtain ⟨f, hfile, hgiven⟩ := Option.bind_eq_some_iff.mp hread
  obtain ⟨k, -, rfl⟩ := Option.map_eq_some_iff.mp hgiven
  have hcontent : SubFile.content = f.content := by simp [SMultiIo.content, hfile]
  refine (List.take_prefix k _).trans ?_
  refine List.prefix_iff_eq_take.mpr (List.ext_getElem? fun i => ?_)
  rw [List.getElem?_take, getElem?_slice, getElem?_slice, length_slice, SMultiIo.getElem?_bytes, hcontent]
  grind

/-- A sub-file gives less only if reading fails, or its bytes are not on disk. -/
theorem readData_short (hshort : ∀ Read ∈ readData SubFile Offset ToGo, Read.length < ToGo)
    (hdisk : Offset + ToGo ≤ SubFile.content.length) : SubFile.ReadFails := by
  refine ⟨Offset, ToGo, h, fun f hf k hk => ?_⟩
  have hfile : SubFile.file = some f := hf
  have hcontent : SubFile.content = f.content := by simp [SMultiIo.content, hfile]
  have hread : readData SubFile Offset ToGo = some ((slice f.content Offset ToGo).take k) := by
    have hk : f.device.reads Offset ToGo = some k := hk
    simp [readData, hfile, CFileIo.read, hk]
  have hless := hshort _ hread
  rw [hcontent] at hdisk
  rw [List.length_take, length_slice] at hless
  omega

theorem readData_none (hnone : readData SubFile Offset ToGo = none) : SubFile.ReadFails := by
  refine ⟨Offset, ToGo, h, fun f hf k hk => ?_⟩
  have hfile : SubFile.file = some f := hf
  have hk : f.device.reads Offset ToGo = some k := hk
  simp [readData, hfile, CFileIo.read, hk] at hnone

end

/-- What writing to a sub-file does. -/
structure SubWritten (SubFile : SMultiIo) (Offset : ℕ) (data : List UInt8) (k : ℕ) (SubFile' : SMultiIo) :
    Prop where
  /-- The size is kept. -/
  size : SubFile'.uFileSize = SubFile.uFileSize
  /-- Not more is written than was given. -/
  le : k ≤ data.length
  /-- The bytes are written, and no others change. -/
  bytes : SubFile'.bytes = put 0 SubFile.bytes Offset (data.take k)
  /-- What is written is on disk. -/
  disk : SubFile'.content = put 0 SubFile.content Offset (data.take k)

theorem SMultiIo.bytes_put {SubFile SubFile' : SMultiIo} (hsize : SubFile'.uFileSize = SubFile.uFileSize)
    {Offset : ℕ} {x : List UInt8} (h : Offset + x.length ≤ SubFile.uFileSize)
    (hcontent : SubFile'.content = put 0 SubFile.content Offset x) : SubFile'.bytes = put 0 SubFile.bytes Offset x := by
  by_cases hx : x = []
  · rw [hx, put_nil] at hcontent
    simp [SMultiIo.bytes, hx, hsize, hcontent]
  · refine List.ext_getElem? fun i => ?_
    rw [SMultiIo.getElem?_bytes, hsize, hcontent, List.getD_eq_getElem?_getD, getElem?_put 0 _ _ hx,
      getElem?_put 0 _ _ hx, SMultiIo.getElem?_bytes, SMultiIo.length_bytes,
      List.getD_eq_getElem?_getD]
    grind

/-- A sub-file is written to, and nothing is if writing fails. -/
theorem writeData_written (SubFile : SMultiIo) (Offset : ℕ) (data : List UInt8)
    (h : Offset + data.length ≤ SubFile.uFileSize) :
    ∃ k, SubWritten SubFile Offset data k (writeData SubFile Offset data).2 ∧
      ((writeData SubFile Offset data).1 = some k ∨ (writeData SubFile Offset data).1 = none ∧ k = 0) ∧
      ((writeData SubFile Offset data).1 = some data.length ∨ SubFile.WriteFails) := by
  have hnothing : SubWritten SubFile Offset data 0 SubFile :=
    ⟨rfl, Nat.zero_le _, by simp, by simp⟩
  cases hfile : SubFile.file with
  | none =>
    have hwrite : writeData SubFile Offset data = (none, SubFile) := by simp [writeData, hfile]
    rw [hwrite]
    exact ⟨0, hnothing, Or.inr ⟨rfl, rfl⟩, Or.inr ⟨Offset, data.length, h, fun f hf => by simp [hfile] at hf⟩⟩
  | some f =>
    have hcontent : SubFile.content = f.content := by simp [SMultiIo.content, hfile]
    have hsame : SubFile = { SubFile with file := some f } := by rw [← hfile]
    by_cases hread : f.m_ReadOnly = true
    · have hwrite : writeData SubFile Offset data = (none, SubFile) := by
        simp [writeData, hfile, CFileIo.write, hread, ← hsame]
      rw [hwrite]
      exact ⟨0, hnothing, Or.inr ⟨rfl, rfl⟩,
        Or.inr ⟨Offset, data.length, h, fun f' hf' => by simp [hfile] at hf'; simp [← hf', hread]⟩⟩
    · cases htakes : f.device.writes Offset data.length with
      | none =>
        have hwrite : writeData SubFile Offset data = (none, SubFile) := by
          simp [writeData, hfile, CFileIo.write, hread, htakes, ← hsame]
        rw [hwrite]
        exact ⟨0, hnothing, Or.inr ⟨rfl, rfl⟩, Or.inr ⟨Offset, data.length, h, fun f' hf' => by
          simp [hfile] at hf'
          simp [← hf', htakes]⟩⟩
      | some k =>
        have hwrite : writeData SubFile Offset data = (some (min k data.length), { SubFile with
            file := some { f with content := put 0 f.content Offset (data.take k) } }) := by
          simp [writeData, hfile, CFileIo.write, hread, htakes]
        have htake : data.take (min k data.length) = data.take k := by
          rw [← List.take_take, List.take_length]
        have hdisk : SMultiIo.content { SubFile with
            file := some { f with content := put 0 f.content Offset (data.take k) } } =
              put 0 SubFile.content Offset (data.take k) := by
          rw [hcontent]
          simp [SMultiIo.content]
        have hfits : Offset + (data.take k).length ≤ SubFile.uFileSize := by
          rw [List.length_take]
          omega
        rw [hwrite]
        refine ⟨min k data.length, ⟨rfl, Nat.min_le_right _ _, ?_, ?_⟩, Or.inl rfl, ?_⟩
        · rw [htake]
          refine SMultiIo.bytes_put ?_ hfits hdisk
          rfl
        · rw [htake]
          exact hdisk
        · by_cases hall : data.length ≤ k
          · exact Or.inl (by simp [hall])
          · refine Or.inr ⟨Offset, data.length, h, fun f' hf' => ?_⟩
            simp [hfile] at hf'
            refine Or.inr fun k' hk' => ?_
            rw [← hf', htakes, Option.mem_some_iff] at hk'
            omega

end SubFiles

section Loops

/-- Some bytes of a range: all of them, unless reading a sub-file fails or the range is not on disk. -/
structure Given (SubFiles : List SMultiIo) (i n : ℕ) (got : List UInt8) : Prop where
  /-- They are the first bytes of the range. -/
  isPrefix : got <+: slice (bytes SubFiles) i n
  /-- They are all, or there is a reason. -/
  all : got = slice (bytes SubFiles) i n ∨ (∃ SubFile ∈ SubFiles, SubFile.ReadFails) ∨ ¬ Allocated SubFiles i n

/-- What a read of a range gives, behind what was read before. -/
def ReadOk (SubFiles : List SMultiIo) (i n : ℕ) (Buffer : List UInt8) (result : Option (List UInt8)) :
    Prop :=
  (∃ got, result = some (Buffer ++ got) ∧ Given SubFiles i n got) ∨
    (result = none ∧ ∃ SubFile ∈ SubFiles, SubFile.ReadFails)

theorem ReadOk.zero (SubFiles : List SMultiIo) (i : ℕ) (Buffer : List UInt8) :
    ReadOk SubFiles i 0 Buffer (some Buffer) :=
  Or.inl ⟨[], by simp, ⟨by simp, by simp⟩⟩

section Cons

variable {SubFile : SMultiIo} {SubFiles : List SMultiIo} {i n : ℕ} {Buffer : List UInt8}
  {result : Option (List UInt8)}

/-- What is read behind the part of a range in the first sub-file. -/
theorem ReadOk.cons {front : List UInt8} {i' n' : ℕ} (h : ReadOk SubFiles i' n' (Buffer ++ front) result)
    (hslice : slice (bytes (SubFile :: SubFiles)) i n = front ++ slice (bytes SubFiles) i' n')
    (hdisk : Allocated (SubFile :: SubFiles) i n → Allocated SubFiles i' n') :
    ReadOk (SubFile :: SubFiles) i n Buffer result := by
  have hfails : (∃ sub ∈ SubFiles, sub.ReadFails) → ∃ sub ∈ SubFile :: SubFiles, sub.ReadFails :=
    fun ⟨sub, hsub, hreads⟩ => ⟨sub, List.mem_cons_of_mem _ hsub, hreads⟩
  rcases h with ⟨got, hresult, hgiven⟩ | ⟨hresult, hbad⟩
  · refine Or.inl ⟨front ++ got, by rw [hresult, List.append_assoc], ⟨?_, ?_⟩⟩
    · rw [hslice, List.prefix_append_right_inj]
      exact hgiven.isPrefix
    · rcases hgiven.all with hall | hbad | hmissing
      · exact Or.inl (by rw [hslice, hall])
      · exact Or.inr (Or.inl (hfails hbad))
      · exact Or.inr (Or.inr fun hdisk' => hmissing (hdisk hdisk'))
  · exact Or.inr ⟨hresult, hfails hbad⟩

/-- A sub-file before the range is left out. -/
theorem ReadOk.skip (hi : SubFile.uFileSize ≤ i) (h : ReadOk SubFiles (i - SubFile.uFileSize) n Buffer result) :
    ReadOk (SubFile :: SubFiles) i n Buffer result := by
  have hleft : n - (SubFile.uFileSize - i) = n := by omega
  rw [← List.append_nil Buffer] at h
  refine h.cons ?_ fun hdisk => hleft ▸ hdisk.2
  rw [bytes_cons, slice_append_right _ _ _ (by simpa using hi), SMultiIo.length_bytes, List.nil_append]

/-- The range goes on behind a sub-file that gave all. -/
theorem ReadOk.next (hi : i ≤ SubFile.uFileSize) (h : ReadOk SubFiles 0 (n - (SubFile.uFileSize - i))
      (Buffer ++ slice SubFile.bytes i (min n (SubFile.uFileSize - i))) result) :
    ReadOk (SubFile :: SubFiles) i n Buffer result := by
  refine h.cons ?_ fun hdisk => Nat.sub_eq_zero_of_le hi ▸ hdisk.2
  rw [bytes_cons, slice_append _ _ _ (by simpa using hi), SMultiIo.length_bytes]

end Cons

/-- The loop reads the range. -/
theorem readLoop_ok (SubFiles : List SMultiIo) (CurIndex StartOffset Length : ℕ) (Buffer : List UInt8)
    (h : CurIndex ≤ StartOffset ∨ Length = 0) :
    ReadOk SubFiles (StartOffset - CurIndex) Length Buffer (readLoop SubFiles CurIndex StartOffset Length Buffer) := by
  induction SubFiles generalizing CurIndex StartOffset Length Buffer with
  | nil => exact Or.inl ⟨[], by simp [readLoop], ⟨by simp, by simp [bytes]⟩⟩
  | cons SubFile SubFiles ih =>
    by_cases hLength : Length = 0
    · subst hLength
      simpa [readLoop] using ReadOk.zero _ _ Buffer
    have hCur : CurIndex ≤ StartOffset := h.resolve_right hLength
    by_cases hin : CurIndex + SubFile.uFileSize > StartOffset
    · have hOffset : StartOffset - CurIndex ≤ SubFile.uFileSize := by omega
      have hrange : StartOffset - CurIndex + min Length (SubFile.uFileSize - (StartOffset - CurIndex)) ≤
          SubFile.uFileSize := by omega
      cases hread : readData SubFile (StartOffset - CurIndex)
          (min Length (SubFile.uFileSize - (StartOffset - CurIndex))) with
      | none =>
        have hloop : readLoop (SubFile :: SubFiles) CurIndex StartOffset Length Buffer = none := by
          simp [readLoop, hLength, hin, hread]
        rw [hloop]
        exact Or.inr ⟨rfl, SubFile, List.mem_cons_self, readData_none hrange hread⟩
      | some Read =>
        have hpart := readData_prefix hrange hread
        by_cases hall : Read.length = min Length (SubFile.uFileSize - (StartOffset - CurIndex))
        · -- The sub-file gave its whole part, so the loop goes on behind it.
          have hloop : readLoop (SubFile :: SubFiles) CurIndex StartOffset Length Buffer =
              readLoop SubFiles (CurIndex + SubFile.uFileSize) (StartOffset + Read.length)
                (Length - Read.length) (Buffer ++ Read) := by
            simp [readLoop, hLength, hin, hread, hall]
          have hRead : Read = slice SubFile.bytes (StartOffset - CurIndex)
              (min Length (SubFile.uFileSize - (StartOffset - CurIndex))) := by
            refine hpart.eq_of_length ?_
            rw [length_slice, SMultiIo.length_bytes, hall]
            omega
          have hrest := ih (CurIndex + SubFile.uFileSize) (StartOffset + Read.length)
            (Length - Read.length) (Buffer ++ Read) (by omega)
          have hzero : StartOffset + Read.length - (CurIndex + SubFile.uFileSize) = 0 := by omega
          have hleft : Length - Read.length = Length - (SubFile.uFileSize - (StartOffset - CurIndex)) := by
            omega
          rw [hzero, hleft] at hrest
          rw [hloop, hleft]
          rw [hRead] at hrest ⊢
          exact ReadOk.next hOffset hrest
        · have hloop : readLoop (SubFile :: SubFiles) CurIndex StartOffset Length Buffer = some (Buffer ++ Read) := by
            simp [readLoop, hLength, hin, hread, hall]
          rw [hloop]
          refine Or.inl ⟨Read, rfl, ⟨?_, ?_⟩⟩
          · rw [bytes_cons, slice_append _ _ _ (by simpa using hOffset), SMultiIo.length_bytes]
            exact hpart.trans (List.prefix_append _ _)
          · by_cases hdisk : StartOffset - CurIndex +
                min Length (SubFile.uFileSize - (StartOffset - CurIndex)) ≤ SubFile.content.length
            · refine Or.inr (Or.inl ⟨SubFile, List.mem_cons_self, readData_short hrange ?_ hdisk⟩)
              intro Read' hRead'
              rw [hread, Option.mem_some_iff] at hRead'
              have hle := hpart.length_le
              rw [length_slice, SMultiIo.length_bytes] at hle
              rw [← hRead']
              omega
            · refine Or.inr (Or.inr fun hdisk' => ?_)
              have hhead := hdisk'.1
              omega
    · have hloop : readLoop (SubFile :: SubFiles) CurIndex StartOffset Length Buffer =
          readLoop SubFiles (CurIndex + SubFile.uFileSize) StartOffset Length Buffer := by
        simp [readLoop, hLength, hin]
      have hrest := ih (CurIndex + SubFile.uFileSize) StartOffset Length Buffer (Or.inl (not_lt.mp hin))
      rw [hloop]
      refine ReadOk.skip (by omega) ?_
      rwa [Nat.sub_sub]

/-- The number of all bytes. -/
def total (SubFiles : List SMultiIo) : ℕ := (bytes SubFiles).length

theorem total_cons (SubFile : SMultiIo) (SubFiles : List SMultiIo) :
    total (SubFile :: SubFiles) = SubFile.uFileSize + total SubFiles := by
  rw [total, bytes_cons, List.length_append, SMultiIo.length_bytes, total]

theorem allocated_zero (SubFiles : List SMultiIo) (i : ℕ) : Allocated SubFiles i 0 := by
  induction SubFiles generalizing i with
  | nil => trivial
  | cons SubFile SubFiles ih =>
    refine ⟨Or.inr (Or.inl rfl), ?_⟩
    rw [Nat.zero_sub]
    exact ih _

/-- What writing so many bytes of some data does. -/
structure Taken (SubFiles : List SMultiIo) (i : ℕ) (data : List UInt8) (k : ℕ)
    (SubFiles' : List SMultiIo) : Prop where
  /-- Not more is written than was given. -/
  le : k ≤ data.length
  /-- It is written into the concatenation. -/
  inside : k = 0 ∨ i + k ≤ total SubFiles
  /-- The bytes are written, and no others change. -/
  bytes : bytes SubFiles' = put 0 (bytes SubFiles) i (data.take k)
  /-- What is written is on disk. -/
  disk : Allocated SubFiles' i k

/-- What a write gives, behind what was written before: all is written, up to the end of the
concatenation, unless writing a sub-file fails. -/
def WriteOk (SubFiles : List SMultiIo) (i : ℕ) (data : List UInt8) (TotalWriten : ℕ)
    (result : Option ℕ × List SMultiIo) : Prop :=
  ∃ k, Taken SubFiles i data k result.2 ∧
    ((result.1 = some (TotalWriten + k) ∧ k = min data.length (total SubFiles - i)) ∨
      ((result.1 = some (TotalWriten + k) ∨ result.1 = none) ∧ ∃ SubFile ∈ SubFiles, SubFile.WriteFails))

theorem Taken.zero (SubFiles : List SMultiIo) (i : ℕ) (data : List UInt8) : Taken SubFiles i data 0 SubFiles :=
  ⟨Nat.zero_le _, Or.inl rfl, by simp, allocated_zero _ _⟩

variable {data : List UInt8}

/-- A sub-file before the range is left out. -/
theorem WriteOk.skip {SubFile : SMultiIo} {SubFiles : List SMultiIo} {i : ℕ}
    {TotalWriten : ℕ} {result : Option ℕ × List SMultiIo} (hi : SubFile.uFileSize ≤ i)
    (h : WriteOk SubFiles (i - SubFile.uFileSize) data TotalWriten result) :
    WriteOk (SubFile :: SubFiles) i data TotalWriten (result.1, SubFile :: result.2) := by
  obtain ⟨k, htaken, hresult⟩ := h
  have hleft : k - (SubFile.uFileSize - i) = k := by omega
  refine ⟨k, ⟨htaken.le, ?_, ?_, Or.inr (Or.inr hi), ?_⟩, ?_⟩
  · rw [total_cons]
    exact htaken.inside.imp_right fun h => by omega
  · rw [bytes_cons, bytes_cons, htaken.bytes, put_append_right 0 _ _ (by simpa using hi), SMultiIo.length_bytes]
  · rw [hleft]
    exact htaken.disk
  · rw [total_cons]
    rcases hresult with ⟨hresult, hk⟩ | ⟨hresult, sub, hsub, hfails⟩
    · exact Or.inl ⟨hresult, by omega⟩
    · exact Or.inr ⟨hresult, sub, List.mem_cons_of_mem _ hsub, hfails⟩

/-- Some bytes of a sub-file are written, and no others. -/
theorem Taken.first {SubFile SubFile' : SMultiIo} (SubFiles : List SMultiIo) {i : ℕ}
    {ToGo k : ℕ} (hToGo : ToGo ≤ data.length) (hrange : i + ToGo ≤ SubFile.uFileSize)
    (hwritten : SubWritten SubFile i (data.take ToGo) k SubFile') :
    Taken (SubFile :: SubFiles) i data k (SubFile' :: SubFiles) := by
  have hk := hwritten.le
  rw [List.length_take_of_le hToGo] at hk
  have htake : (data.take ToGo).take k = data.take k := by
    rw [List.take_take, min_eq_left hk]
  have hlength : (data.take k).length = k := List.length_take_of_le (hk.trans hToGo)
  refine ⟨hk.trans hToGo, Or.inr ?_, ?_, ?_, ?_⟩
  · rw [total_cons]
    omega
  · rw [bytes_cons, bytes_cons, hwritten.bytes, htake, put_append_left]
    rw [SMultiIo.length_bytes, hlength]
    omega
  · by_cases hzero : k = 0
    · exact Or.inr (Or.inl hzero)
    · left
      have hne : data.take k ≠ [] := by
        intro hnil
        rw [hnil] at hlength
        exact hzero hlength.symm
      rw [hwritten.disk, htake, length_put 0 _ _ hne, hlength]
      exact (Nat.add_le_add_left (Nat.min_le_left _ _) _).trans (Nat.le_max_right _ _)
  · have hleft : k - (SubFile'.uFileSize - i) = 0 := by
      rw [hwritten.size]
      omega
    rw [hleft]
    exact allocated_zero _ _

/-- The range goes on behind a sub-file that took all. -/
theorem Taken.next {SubFile SubFile' : SMultiIo} {SubFiles SubFiles' : List SMultiIo} {i : ℕ} {k : ℕ}
    (hi : i < SubFile.uFileSize) (hroom : SubFile.uFileSize - i ≤ data.length)
    (hwritten : SubWritten SubFile i (data.take (SubFile.uFileSize - i)) (SubFile.uFileSize - i) SubFile')
    (h : Taken SubFiles 0 (data.drop (SubFile.uFileSize - i)) k SubFiles') :
    Taken (SubFile :: SubFiles) i data (SubFile.uFileSize - i + k) (SubFile' :: SubFiles') := by
  have hk := h.le
  rw [List.length_drop] at hk
  have hlength : (data.take (SubFile.uFileSize - i)).length = SubFile.uFileSize - i :=
    List.length_take_of_le hroom
  have hne : data.take (SubFile.uFileSize - i) ≠ [] := by
    intro hnil
    rw [hnil, List.length_nil] at hlength
    omega
  have hbytes := hwritten.bytes
  have hdisk := hwritten.disk
  rw [List.take_take, min_self] at hbytes hdisk
  refine ⟨by omega, Or.inr ?_, ?_, ?_, ?_⟩
  · have hinside := h.inside
    rw [total_cons]
    omega
  · rw [bytes_cons, bytes_cons, hbytes, h.bytes, List.take_add, put_append 0 _ _ ?_ hne]
    rw [hlength, SMultiIo.length_bytes]
    omega
  · left
    rw [hdisk, length_put 0 _ _ hne, hlength, hwritten.size]
    exact (Nat.add_le_add_left (Nat.min_le_right _ _) _).trans (Nat.le_max_right _ _)
  · rw [hwritten.size, Nat.sub_eq_zero_of_le hi.le, Nat.add_sub_cancel_left]
    exact h.disk

/-- The loop writes the range. -/
theorem writeLoop_ok (SubFiles : List SMultiIo) (CurIndex StartOffset : ℕ) (Buffer : List UInt8)
    (TotalWriten : ℕ) (h : CurIndex ≤ StartOffset ∨ Buffer.length = 0) :
    WriteOk SubFiles (StartOffset - CurIndex) Buffer TotalWriten
      (writeLoop SubFiles CurIndex StartOffset Buffer TotalWriten) := by
  induction SubFiles generalizing CurIndex StartOffset Buffer TotalWriten with
  | nil => exact ⟨0, Taken.zero _ _ _, Or.inl ⟨by simp [writeLoop], by simp [total, bytes]⟩⟩
  | cons SubFile SubFiles ih =>
    by_cases hBuffer : Buffer.length = 0
    · have hloop : writeLoop (SubFile :: SubFiles) CurIndex StartOffset Buffer TotalWriten =
          (some TotalWriten, SubFile :: SubFiles) := by
        simp [writeLoop, hBuffer]
      rw [hloop]
      exact ⟨0, Taken.zero _ _ _, Or.inl ⟨rfl, by rw [hBuffer, Nat.zero_min]⟩⟩
    have hCur : CurIndex ≤ StartOffset := h.resolve_right hBuffer
    by_cases hin : CurIndex + SubFile.uFileSize > StartOffset
    · have hOffset : StartOffset - CurIndex < SubFile.uFileSize := by omega
      generalize hToGo : min Buffer.length (SubFile.uFileSize - (StartOffset - CurIndex)) = ToGo
      have hle : ToGo ≤ Buffer.length := hToGo ▸ Nat.min_le_left _ _
      have hrange : StartOffset - CurIndex + ToGo ≤ SubFile.uFileSize := by omega
      have hlength : (Buffer.take ToGo).length = ToGo := List.length_take_of_le hle
      obtain ⟨k, hwritten, hresult, hfails⟩ :=
        writeData_written SubFile (StartOffset - CurIndex) (Buffer.take ToGo) (by rw [hlength]; exact hrange)
      rw [hlength] at hfails
      have hfirst := Taken.first SubFiles hle hrange hwritten
      by_cases hall : (writeData SubFile (StartOffset - CurIndex) (Buffer.take ToGo)).1 = some ToGo
      · -- The sub-file took its whole part, so the loop goes on behind it.
        have hloop : writeLoop (SubFile :: SubFiles) CurIndex StartOffset Buffer TotalWriten =
            ((writeLoop SubFiles (CurIndex + SubFile.uFileSize) (StartOffset + ToGo)
              (Buffer.drop ToGo) (TotalWriten + ToGo)).1,
              (writeData SubFile (StartOffset - CurIndex) (Buffer.take ToGo)).2 ::
                (writeLoop SubFiles (CurIndex + SubFile.uFileSize) (StartOffset + ToGo)
                  (Buffer.drop ToGo) (TotalWriten + ToGo)).2) := by
          simp [writeLoop, hBuffer, hin, hToGo, hall]
        have hk : k = ToGo := by
          rcases hresult with hresult | ⟨hresult, -⟩
          · rw [hall, Option.some.injEq] at hresult
            exact hresult.symm
          · rw [hall] at hresult
            cases hresult
        rw [hk] at hwritten hfirst
        rw [hloop]
        by_cases hend : ToGo = SubFile.uFileSize - (StartOffset - CurIndex)
        · have hrest := ih (CurIndex + SubFile.uFileSize) (StartOffset + ToGo) (Buffer.drop ToGo)
            (TotalWriten + ToGo) (by omega)
          have hzero : StartOffset + ToGo - (CurIndex + SubFile.uFileSize) = 0 := by omega
          rw [hzero] at hrest
          obtain ⟨k', htaken, hresult'⟩ := hrest
          refine ⟨ToGo + k', ?_, ?_⟩
          · subst hend
            exact Taken.next hOffset hle hwritten htaken
          · rw [← Nat.add_assoc, total_cons]
            rcases hresult' with ⟨hresult', hk'⟩ | ⟨hresult', sub, hsub, hbad⟩
            · rw [List.length_drop] at hk'
              exact Or.inl ⟨hresult', by omega⟩
            · exact Or.inr ⟨hresult', sub, List.mem_cons_of_mem _ hsub, hbad⟩
        · -- All data went into this sub-file.
          have hdone : ToGo = Buffer.length := by omega
          have hnone : Buffer.drop ToGo = [] := List.drop_eq_nil_of_le hdone.ge
          have hrest : writeLoop SubFiles (CurIndex + SubFile.uFileSize) (StartOffset + ToGo)
              (Buffer.drop ToGo) (TotalWriten + ToGo) = (some (TotalWriten + ToGo), SubFiles) := by
            rw [hnone]
            cases SubFiles <;> simp [writeLoop]
          rw [hrest]
          refine ⟨ToGo, hfirst, Or.inl ⟨rfl, ?_⟩⟩
          rw [total_cons]
          omega
      · have hbad := hfails.resolve_left hall
        have hloop : writeLoop (SubFile :: SubFiles) CurIndex StartOffset Buffer TotalWriten =
            ((writeData SubFile (StartOffset - CurIndex) (Buffer.take ToGo)).1.map (TotalWriten + ·),
              (writeData SubFile (StartOffset - CurIndex) (Buffer.take ToGo)).2 :: SubFiles) := by
          rcases hresult with hresult | ⟨hresult, -⟩
          · have hne : k ≠ ToGo := fun hk => hall (hk ▸ hresult)
            simp [writeLoop, hBuffer, hin, hToGo, hresult, hne]
          · simp [writeLoop, hBuffer, hin, hToGo, hresult]
        rw [hloop]
        refine ⟨k, hfirst, Or.inr ⟨?_, SubFile, List.mem_cons_self, hbad⟩⟩
        rcases hresult with hresult | ⟨hresult, -⟩
        · exact Or.inl (by simp [hresult])
        · exact Or.inr (by simp [hresult])
    · have hloop : writeLoop (SubFile :: SubFiles) CurIndex StartOffset Buffer TotalWriten =
          ((writeLoop SubFiles (CurIndex + SubFile.uFileSize) StartOffset Buffer TotalWriten).1,
            SubFile :: (writeLoop SubFiles (CurIndex + SubFile.uFileSize) StartOffset Buffer TotalWriten).2) := by
        simp [writeLoop, hBuffer, hin]
      have hrest := ih (CurIndex + SubFile.uFileSize) StartOffset Buffer TotalWriten (Or.inl (not_lt.mp hin))
      rw [hloop]
      refine WriteOk.skip (by omega) ?_
      rwa [Nat.sub_sub]

end Loops

section Results

theorem read_ok (SubFiles : List SMultiIo) (offset maxlen : ℕ) :
    ReadOk SubFiles offset maxlen [] (read SubFiles offset maxlen) :=
  readLoop_ok SubFiles 0 offset maxlen [] (Or.inl (Nat.zero_le _))

theorem write_ok (SubFiles : List SMultiIo) (offset : ℕ) (data : List UInt8) :
    WriteOk SubFiles offset data 0 (write SubFiles offset data) :=
  writeLoop_ok SubFiles 0 offset data 0 (Or.inl (Nat.zero_le _))

section

variable {SubFiles SubFiles' : List SMultiIo} {offset : ℕ} {data : List UInt8} {k : ℕ}
  (h : Taken SubFiles offset data k SubFiles')

include h

/-- What was written is read. -/
theorem Taken.read :
    MultiFile.read SubFiles' offset k = some (data.take k) ∨ ∃ SubFile ∈ SubFiles', SubFile.ReadFails := by
  have hlength : (data.take k).length = k := List.length_take_of_le h.le
  have hslice : slice (MultiFile.bytes SubFiles') offset k = data.take k := by
    rw [h.bytes, slice_put 0 _ _ _ le_rfl (by rw [hlength]), Nat.sub_self]
    have hself := slice_self (data.take k)
    rwa [hlength] at hself
  rcases read_ok SubFiles' offset k with ⟨got, hresult, hgiven⟩ | ⟨-, hfails⟩
  · rcases hgiven.all with hall | hfails | hdisk
    · left
      rw [hresult, List.nil_append, hall, hslice]
    · exact Or.inr hfails
    · exact absurd h.disk hdisk
  · exact Or.inr hfails

/-- Bytes outside of a range are not written. -/
theorem Taken.outside {x : ℕ} (hx : x < offset ∨ offset + k ≤ x) :
    (MultiFile.bytes SubFiles')[x]? = (MultiFile.bytes SubFiles)[x]? := by
  have hlength : (data.take k).length = k := List.length_take_of_le h.le
  rw [h.bytes]
  by_cases hnone : data.take k = []
  · rw [hnone, put_nil]
  · rw [getElem?_put 0 _ _ hnone, hlength]
    have hinside := h.inside
    have hpos : k ≠ 0 := by
      intro hk
      rw [hk] at hnone
      simp at hnone
    unfold total at hinside
    grind

end

end Results

end NeoLoader.MultiFile
