import NeoLoader.FileReads
import NeoLoader.MultiFile
import NeoLoader.SortedQueue

/-!
# Requests for files

Reads and writes wait in a queue that is sorted by their offsets, and are executed from its front. Two
requests whose ranges overlap can trade places, and so can a read and a write that lie behind the end of
what is on disk.
-/

namespace NeoLoader.IOQueue

open RandomAccess MultiFile SortedQueue

section Code

/-- `CAbstractIO`: a file, or one that is made of sub-files. -/
inductive CAbstractIo where
  /-- `CFileIO`. -/
  | file (f : CFileIo)
  /-- `CMultiFileIO`. -/
  | multi (m_SubFiles : List SMultiIo)

def CAbstractIo.Read : CAbstractIo → ℕ → ℕ → Option (List UInt8)
  | .file f, offset, maxSize => f.read offset maxSize
  | .multi m_SubFiles, offset, maxlen => MultiFile.read m_SubFiles offset maxlen

def CAbstractIo.Write : CAbstractIo → ℕ → List UInt8 → Option ℕ × CAbstractIo
  | .file f, offset, data => ((f.write offset data).1, .file (f.write offset data).2)
  | .multi m_SubFiles, offset, data =>
    ((MultiFile.write m_SubFiles offset data).1, .multi (MultiFile.write m_SubFiles offset data).2)

inductive CIOOperation where
  /-- `CReadOperation`. -/
  | read (m_Offset m_Length m_Aux : ℕ)
  /-- `CWriteOperation`. -/
  | write (m_Offset : ℕ) (m_Data : List UInt8) (m_Aux : ℕ)

def CIOOperation.GetOffset : CIOOperation → ℕ
  | .read m_Offset _ _ => m_Offset
  | .write m_Offset _ _ => m_Offset

/-- What an operation emits. -/
inductive Signal where
  | DataRead (Offset Length : ℕ) (Data : List UInt8) (bOk : Bool) (Aux : ℕ)
  | DataWriten (Offset Length : ℕ) (bOk : Bool) (Aux : ℕ)
  deriving DecidableEq

/-- `CReadOperation::Execute` and `CWriteOperation::Execute`. -/
def execute (File : CAbstractIo) : CIOOperation → Signal × CAbstractIo
  | .read m_Offset m_Length m_Aux =>
    let size := FileReads.resizeLength m_Length
    let Data := File.Read m_Offset size
    (.DataRead m_Offset m_Length (Data.getD []) (Data.map List.length = some size) m_Aux, File)
  | .write m_Offset m_Data m_Aux =>
    let Length := File.Write m_Offset m_Data
    (.DataWriten m_Offset m_Data.length (Length.1 = some m_Data.length) m_Aux, Length.2)

/-- `CAbstractIO::QueueOp` and the steps of `CAbstractIO::Execute`, in any order. -/
def onEvents (File : CAbstractIo) (events : List (Event CIOOperation)) :
    Queue CAbstractIo CIOOperation Signal :=
  SortedQueue.onEvents execute CIOOperation.GetOffset ⟨[], [], File⟩ events

/-- `CAbstractIO::Execute`, the queue until it is empty. -/
def Execute (m_Operations : Queue CAbstractIo CIOOperation Signal) :
    Queue CAbstractIo CIOOperation Signal :=
  drain execute m_Operations

/-- The bytes on disk. -/
def CAbstractIo.content : CAbstractIo → List (List UInt8)
  | .file f => [f.content]
  | .multi m_SubFiles => m_SubFiles.map SMultiIo.content

end Code

section Ranges

/-- Of two ranges one lies within what is on disk. -/
def Within (content : List UInt8) (i n j m : ℕ) : Prop :=
  i + n ≤ content.length ∨ j + m ≤ content.length ∨ n = 0 ∨ m = 0

instance (content : List UInt8) (i n j m : ℕ) : Decidable (Within content i n j m) := instDecidableOr

/-- In every sub-file, one of two ranges lies within what is on disk. -/
def AllWithin : List SMultiIo → ℕ → ℕ → ℕ → ℕ → Prop
  | [], _, _, _, _ => True
  | SubFile :: SubFiles, i, n, j, m =>
    Within SubFile.content i (min n (SubFile.uFileSize - i)) j (min m (SubFile.uFileSize - j)) ∧
      AllWithin SubFiles (i - SubFile.uFileSize) (n - (SubFile.uFileSize - i)) (j - SubFile.uFileSize)
        (m - (SubFile.uFileSize - j))

/-- One of two ranges lies within what is on disk. -/
def CAbstractIo.Within : CAbstractIo → ℕ → ℕ → ℕ → ℕ → Prop
  | .file f, i, n, j, m => IOQueue.Within f.content i n j m
  | .multi m_SubFiles, i, n, j, m => AllWithin m_SubFiles i n j m

/-- Two operations can trade places. -/
def CAbstractIo.Harmless (File : CAbstractIo) : CIOOperation → CIOOperation → Prop
  | .read _ _ _, .read _ _ _ => True
  | .read i n _, .write j data _ => Apart i (FileReads.resizeLength n) j data.length ∧
      File.Within i (FileReads.resizeLength n) j data.length
  | .write j data _, .read i n _ => Apart i (FileReads.resizeLength n) j data.length ∧
      File.Within i (FileReads.resizeLength n) j data.length
  | .write i x _, .write j y _ => Apart i x.length j y.length

end Ranges

section Patches

/-- Bytes that are put into a sub-file. -/
def patch (SubFile : SMultiIo) (p : ℕ × List UInt8) : SMultiIo :=
  { SubFile with file := SubFile.file.map fun f => { f with content := put 0 f.content p.1 p.2 } }

/-- Bytes that are put into each sub-file. -/
def patches (SubFiles : List SMultiIo) (ps : List (ℕ × List UInt8)) : List SMultiIo :=
  List.zipWith patch SubFiles ps

/-- What does not depend on the bytes of a sub-file. -/
def shape (SubFile : SMultiIo) : ℕ × Option (Bool × Device) :=
  (SubFile.uFileSize, SubFile.file.map fun f => (f.m_ReadOnly, f.device))

/-- Bytes that are put into the part of a range that lies in each sub-file. -/
inductive Reaches : List SMultiIo → ℕ → ℕ → List (ℕ × List UInt8) → Prop
  /-- There are no more sub-files. -/
  | nil (i n : ℕ) : Reaches [] i n []
  /-- The part in a sub-file, and the others. -/
  | cons {SubFile : SMultiIo} {SubFiles : List SMultiIo} {i n : ℕ} {data : List UInt8}
      {ps : List (ℕ × List UInt8)} (hlength : data.length ≤ min n (SubFile.uFileSize - i))
      (hrest : Reaches SubFiles (i - SubFile.uFileSize) (n - (SubFile.uFileSize - i)) ps) :
      Reaches (SubFile :: SubFiles) i n ((i, data) :: ps)

variable (SubFile : SMultiIo)

@[simp] theorem uFileSize_patch (p : ℕ × List UInt8) : (patch SubFile p).uFileSize = SubFile.uFileSize := rfl

@[simp] theorem shape_patch (p : ℕ × List UInt8) : shape (patch SubFile p) = shape SubFile := by
  simp [shape, patch, Function.comp_def]

@[simp] theorem patch_nil (i : ℕ) : patch SubFile (i, []) = SubFile := by
  simp [patch]

theorem length_content_patch (p : ℕ × List UInt8) : SubFile.content.length ≤ (patch SubFile p).content.length := by
  cases hfile : SubFile.file with
  | none => simp [SMultiIo.content, patch, hfile]
  | some f => simpa [SMultiIo.content, patch, hfile] using length_le_put 0 f.content p.1 p.2

theorem patch_comm {p q : ℕ × List UInt8} (h : Apart p.1 p.2.length q.1 q.2.length) :
    patch (patch SubFile p) q = patch (patch SubFile q) p := by
  simp [patch, Function.comp_def, put_put_comm 0 _ h]

theorem uFileSize_eq {SubFile SubFile' : SMultiIo} (h : shape SubFile' = shape SubFile) :
    SubFile'.uFileSize = SubFile.uFileSize := congrArg Prod.fst h

/-- Reading elsewhere gives what it gave before. -/
theorem readData_patch {p : ℕ × List UInt8} {Offset ToGo : ℕ}
    (h : Apart Offset ToGo p.1 p.2.length) (hdisk : Within SubFile.content Offset ToGo p.1 p.2.length) :
    readData (patch SubFile p) Offset ToGo = readData SubFile Offset ToGo := by
  cases hfile : SubFile.file with
  | none => simp [readData, patch, hfile]
  | some f =>
    have hcontent : SubFile.content = f.content := by simp [SMultiIo.content, hfile]
    have hslice : slice (put 0 f.content p.1 p.2) Offset ToGo = slice f.content Offset ToGo := by
      rw [hcontent] at hdisk
      rcases hdisk with hdisk | hdisk | hzero | hzero
      · exact slice_put_apart 0 f.content h.symm (Or.inl hdisk)
      · exact slice_put_apart 0 f.content h.symm (Or.inr hdisk)
      · simp [hzero]
      · simp [List.length_eq_zero_iff.mp hzero]
    simp [readData, patch, hfile, CFileIo.read, hslice]

/-- How many bytes are written to a sub-file does not depend on those that are there. -/
theorem writeData_patch (Offset : ℕ) (data : List UInt8) :
    ∃ taken : List UInt8, taken.length ≤ data.length ∧ ∀ SubFile', shape SubFile' = shape SubFile →
      writeData SubFile' Offset data = ((writeData SubFile Offset data).1, patch SubFile' (Offset, taken)) := by
  refine ⟨data.take ((writeData SubFile Offset data).1.getD 0), by simp, fun SubFile' hshape => ?_⟩
  obtain ⟨uFileSize, file⟩ := SubFile
  obtain ⟨uFileSize', file'⟩ := SubFile'
  cases file with
  | none =>
    cases file' with
    | none => simp [writeData, patch]
    | some f' => simp [shape] at hshape
  | some f =>
    cases file' with
    | none => simp [shape] at hshape
    | some f' =>
      obtain ⟨content, m_ReadOnly, device⟩ := f
      obtain ⟨content', m_ReadOnly', device'⟩ := f'
      simp only [shape, Option.map_some, Prod.mk.injEq, Option.some.injEq] at hshape
      obtain ⟨-, rfl, rfl⟩ := hshape
      by_cases hread : m_ReadOnly' = true
      · simp [writeData, patch, CFileIo.write, hread]
      · cases htakes : device'.writes Offset data.length with
        | none => simp [writeData, patch, CFileIo.write, hread, htakes]
        | some k =>
          have htake : data.take (min k data.length) = data.take k := by
            rw [← List.take_take, List.take_length]
          simp [writeData, patch, CFileIo.write, hread, htakes, htake]

/-- Sub-files of the same shapes as others. -/
def Same (SubFiles SubFiles' : List SMultiIo) : Prop := SubFiles'.map shape = SubFiles.map shape

/-- Nothing is written. -/
theorem reaches_nothing (SubFiles : List SMultiIo) (i n : ℕ) :
    ∃ ps, Reaches SubFiles i n ps ∧ ∀ SubFiles', Same SubFiles SubFiles' → patches SubFiles' ps = SubFiles' := by
  induction SubFiles generalizing i n with
  | nil =>
    refine ⟨[], Reaches.nil i n, fun SubFiles' hsame => ?_⟩
    simp [List.map_eq_nil_iff.mp hsame, patches]
  | cons SubFile SubFiles ih =>
    obtain ⟨ps, hreaches, hpatches⟩ := ih (i - SubFile.uFileSize) (n - (SubFile.uFileSize - i))
    refine ⟨(i, []) :: ps, Reaches.cons (by simp) hreaches, fun SubFiles' hsame => ?_⟩
    obtain ⟨SubFile', SubFiles', rfl, -, hrest⟩ := List.map_eq_cons_iff.mp hsame
    simpa [patches] using hpatches SubFiles' hrest

/-- Writing puts some bytes into each sub-file, which do not depend on those that are there. -/
theorem writeLoop_patches (SubFiles : List SMultiIo) (CurIndex StartOffset : ℕ) (Buffer : List UInt8)
    (TotalWriten : ℕ) (h : CurIndex ≤ StartOffset ∨ Buffer.length = 0) :
    ∃ ps, Reaches SubFiles (StartOffset - CurIndex) Buffer.length ps ∧
      ∀ SubFiles', Same SubFiles SubFiles' → writeLoop SubFiles' CurIndex StartOffset Buffer TotalWriten =
        ((writeLoop SubFiles CurIndex StartOffset Buffer TotalWriten).1, patches SubFiles' ps) := by
  induction SubFiles generalizing CurIndex StartOffset Buffer TotalWriten with
  | nil =>
    refine ⟨[], Reaches.nil _ _, fun SubFiles' hsame => ?_⟩
    simp [List.map_eq_nil_iff.mp hsame, patches, writeLoop]
  | cons SubFile SubFiles ih =>
    by_cases hBuffer : Buffer.length = 0
    · obtain ⟨ps, hreaches, hpatches⟩ :=
        reaches_nothing (SubFile :: SubFiles) (StartOffset - CurIndex) Buffer.length
      refine ⟨ps, hreaches, fun SubFiles' hsame => ?_⟩
      rw [hpatches SubFiles' hsame]
      obtain ⟨SubFile', SubFiles', rfl, -, -⟩ := List.map_eq_cons_iff.mp hsame
      simp [writeLoop, hBuffer]
    have hCur : CurIndex ≤ StartOffset := h.resolve_right hBuffer
    by_cases hin : CurIndex + SubFile.uFileSize > StartOffset
    · generalize hToGo : min Buffer.length (SubFile.uFileSize - (StartOffset - CurIndex)) = ToGo
      have hle : ToGo ≤ Buffer.length := hToGo ▸ Nat.min_le_left _ _
      obtain ⟨taken, htaken, hwrite⟩ :=
        writeData_patch SubFile (StartOffset - CurIndex) (Buffer.take ToGo)
      rw [List.length_take_of_le hle] at htaken
      by_cases hall : (writeData SubFile (StartOffset - CurIndex) (Buffer.take ToGo)).1 = some ToGo
      · obtain ⟨ps, hreaches, hpatches⟩ := ih (CurIndex + SubFile.uFileSize) (StartOffset + ToGo)
          (Buffer.drop ToGo) (TotalWriten + ToGo) (by rw [List.length_drop]; omega)
        have hoffset : StartOffset + ToGo - (CurIndex + SubFile.uFileSize) =
            StartOffset - CurIndex - SubFile.uFileSize := by omega
        have hleft : (Buffer.drop ToGo).length = Buffer.length - (SubFile.uFileSize - (StartOffset - CurIndex)) := by
          rw [List.length_drop]
          omega
        rw [hoffset, hleft] at hreaches
        refine ⟨(StartOffset - CurIndex, taken) :: ps, Reaches.cons (hToGo ▸ htaken) hreaches,
          fun SubFiles' hsame => ?_⟩
        obtain ⟨SubFile', SubFiles', rfl, hshape, hrest⟩ := List.map_eq_cons_iff.mp hsame
        have hsub := hwrite SubFile' hshape
        rw [hall] at hsub
        simp [writeLoop, hBuffer, uFileSize_eq hshape, hin, hToGo, hall, hsub, hpatches SubFiles' hrest, patches]
      · obtain ⟨ps, hreaches, hpatches⟩ := reaches_nothing SubFiles (StartOffset - CurIndex - SubFile.uFileSize)
          (Buffer.length - (SubFile.uFileSize - (StartOffset - CurIndex)))
        refine ⟨(StartOffset - CurIndex, taken) :: ps, Reaches.cons (hToGo ▸ htaken) hreaches,
          fun SubFiles' hsame => ?_⟩
        obtain ⟨SubFile', SubFiles', rfl, hshape, hrest⟩ := List.map_eq_cons_iff.mp hsame
        have hsub := hwrite SubFile' hshape
        have hkeep := hpatches SubFiles' hrest
        cases hresult : (writeData SubFile (StartOffset - CurIndex) (Buffer.take ToGo)).1 with
        | none =>
          rw [hresult] at hsub
          simpa [writeLoop, hBuffer, uFileSize_eq hshape, hin, hToGo, hresult, hsub, patches] using hkeep.symm
        | some Writen =>
          have hne : Writen ≠ ToGo := fun heq => hall (heq ▸ hresult)
          rw [hresult] at hsub
          simpa [writeLoop, hBuffer, uFileSize_eq hshape, hin, hToGo, hresult, hsub, hne, patches] using hkeep.symm
    · obtain ⟨ps, hreaches, hpatches⟩ := ih (CurIndex + SubFile.uFileSize) StartOffset Buffer TotalWriten
        (Or.inl (not_lt.mp hin))
      have hleft : Buffer.length - (SubFile.uFileSize - (StartOffset - CurIndex)) = Buffer.length := by
        omega
      have hreaches' : Reaches SubFiles (StartOffset - CurIndex - SubFile.uFileSize)
          (Buffer.length - (SubFile.uFileSize - (StartOffset - CurIndex))) ps := by
        rwa [hleft, Nat.sub_sub]
      refine ⟨(StartOffset - CurIndex, []) :: ps, Reaches.cons (by simp) hreaches', fun SubFiles' hsame => ?_⟩
      obtain ⟨SubFile', SubFiles', rfl, hshape, hrest⟩ := List.map_eq_cons_iff.mp hsame
      simp [writeLoop, hBuffer, uFileSize_eq hshape, hin, hpatches SubFiles' hrest, patches]

end Patches

section Places

variable {SubFiles : List SMultiIo}

/-- Bytes that are put into the same places, in either order. -/
theorem patches_comm {i n j m : ℕ} {ps qs : List (ℕ × List UInt8)}
    (hps : Reaches SubFiles i n ps) (hqs : Reaches SubFiles j m qs) (h : Apart i n j m) (SubFiles' : List SMultiIo) :
    patches (patches SubFiles' ps) qs = patches (patches SubFiles' qs) ps := by
  induction hps generalizing j m qs SubFiles' with
  | nil i n =>
    cases hqs
    simp [patches]
  | @cons SubFile SubFiles i n data ps hlength hrest ih =>
    cases hqs with
    | @cons _ _ _ _ data' qs hlength' hrest' =>
      cases SubFiles' with
      | nil => simp [patches]
      | cons SubFile' SubFiles' =>
        have hhead : Apart i data.length j data'.length := by
          unfold Apart at *
          omega
        have htail : Apart (i - SubFile.uFileSize) (n - (SubFile.uFileSize - i)) (j - SubFile.uFileSize)
            (m - (SubFile.uFileSize - j)) := by
          unfold Apart at *
          omega
        have hmore := ih hrest' htail SubFiles'
        simp only [patches, List.zipWith_cons_cons] at hmore ⊢
        rw [patch_comm SubFile' hhead, hmore]

/-- Reading elsewhere gives what it gave before. -/
theorem readLoop_patches {ps : List (ℕ × List UInt8)} {j m : ℕ}
    (hps : Reaches SubFiles j m ps) (CurIndex StartOffset Length : ℕ) (Buffer : List UInt8)
    (hCur : CurIndex ≤ StartOffset ∨ Length = 0) (h : Apart (StartOffset - CurIndex) Length j m)
    (hdisk : AllWithin SubFiles (StartOffset - CurIndex) Length j m) :
    readLoop (patches SubFiles ps) CurIndex StartOffset Length Buffer =
      readLoop SubFiles CurIndex StartOffset Length Buffer := by
  induction hps generalizing CurIndex StartOffset Length Buffer with
  | nil j m => simp [patches]
  | @cons SubFile SubFiles j m data ps hlength hrest ih =>
    by_cases hLength : Length = 0
    · simp [patches, readLoop, hLength]
    have hCur' : CurIndex ≤ StartOffset := hCur.resolve_right hLength
    have htail : Apart (StartOffset - CurIndex - SubFile.uFileSize)
        (Length - (SubFile.uFileSize - (StartOffset - CurIndex))) (j - SubFile.uFileSize)
        (m - (SubFile.uFileSize - j)) := by
      unfold Apart at *
      omega
    by_cases hin : CurIndex + SubFile.uFileSize > StartOffset
    · generalize hToGo : min Length (SubFile.uFileSize - (StartOffset - CurIndex)) = ToGo
      have hhead : Apart (StartOffset - CurIndex) ToGo j data.length := by
        unfold Apart at *
        omega
      have hwithin : Within SubFile.content (StartOffset - CurIndex) ToGo j data.length := by
        have hsub := hdisk.1
        unfold Within at *
        omega
      have hread : readData (patch SubFile (j, data)) (StartOffset - CurIndex) ToGo =
          readData SubFile (StartOffset - CurIndex) ToGo := readData_patch SubFile hhead hwithin
      cases hresult : readData SubFile (StartOffset - CurIndex) ToGo with
      | none => simp [patches, readLoop, hLength, hin, hToGo, hread, hresult]
      | some Read =>
        by_cases hall : Read.length = ToGo
        · have hoffset : StartOffset + ToGo - (CurIndex + SubFile.uFileSize) =
              StartOffset - CurIndex - SubFile.uFileSize := by omega
          have hleft : Length - ToGo = Length - (SubFile.uFileSize - (StartOffset - CurIndex)) := by
            omega
          have hmore := ih (CurIndex + SubFile.uFileSize) (StartOffset + ToGo) (Length - ToGo)
            (Buffer ++ Read) (by omega) (by rw [hoffset, hleft]; exact htail) (by rw [hoffset, hleft]; exact hdisk.2)
          simpa [patches, readLoop, hLength, hin, hToGo, hread, hresult, hall] using hmore
        · simp [patches, readLoop, hLength, hin, hToGo, hread, hresult, hall]
    · have hleft : Length - (SubFile.uFileSize - (StartOffset - CurIndex)) = Length := by omega
      rw [hleft, Nat.sub_sub] at htail
      have hrest := hdisk.2
      rw [hleft, Nat.sub_sub] at hrest
      have hmore := ih (CurIndex + SubFile.uFileSize) StartOffset Length Buffer (Or.inl (not_lt.mp hin)) htail hrest
      simpa [patches, readLoop, hLength, hin] using hmore

theorem Same.patches {i n : ℕ} {ps : List (ℕ × List UInt8)}
    (hps : Reaches SubFiles i n ps) {SubFiles' : List SMultiIo} (h : Same SubFiles SubFiles') :
    Same SubFiles (patches SubFiles' ps) := by
  induction hps generalizing SubFiles' with
  | nil i n => simp [Same, IOQueue.patches]
  | cons hlength hrest ih =>
    obtain ⟨SubFile', SubFiles', rfl, hshape, hmore⟩ := List.map_eq_cons_iff.mp h
    have hsame := ih hmore
    simp only [Same, IOQueue.patches] at hsame ⊢
    simp [hsame, hshape]

end Places

section Outcomes

/-- What a file has become: more may be on disk. -/
inductive Grown : CAbstractIo → CAbstractIo → Prop
  /-- A file. -/
  | file {f f' : CFileIo} (h : f.content.length ≤ f'.content.length) : Grown (.file f) (.file f')
  /-- A file of sub-files. -/
  | multi {SubFiles SubFiles' : List SMultiIo} (hsame : Same SubFiles SubFiles')
      (h : List.Forall₂ (fun SubFile SubFile' => SubFile.content.length ≤ SubFile'.content.length)
        SubFiles SubFiles') : Grown (.multi SubFiles) (.multi SubFiles')

theorem Within.mono {content content' : List UInt8} (h : content.length ≤ content'.length) {i n j m : ℕ}
    (hwithin : Within content i n j m) : Within content' i n j m := by
  unfold Within at *
  omega

/-- What was within what is on disk still is, in every sub-file. -/
theorem AllWithin.mono {SubFiles SubFiles' : List SMultiIo} (hsame : Same SubFiles SubFiles')
    (h : List.Forall₂ (fun SubFile SubFile' => SubFile.content.length ≤ SubFile'.content.length)
      SubFiles SubFiles') {i n j m : ℕ} (hwithin : AllWithin SubFiles i n j m) :
    AllWithin SubFiles' i n j m := by
  induction h generalizing i n j m with
  | nil => trivial
  | cons hle hmore ih =>
    have hshapes := List.cons_eq_cons.mp hsame
    have hsize := uFileSize_eq hshapes.1
    refine ⟨?_, ?_⟩
    · rw [hsize]
      exact hwithin.1.mono hle
    · rw [hsize]
      exact ih hshapes.2 hwithin.2

variable (File : CAbstractIo)

theorem Grown.refl : Grown File File := by
  cases File with
  | file f => exact Grown.file le_rfl
  | multi SubFiles =>
    refine Grown.multi rfl ?_
    induction SubFiles with
    | nil => exact List.Forall₂.nil
    | cons SubFile SubFiles ih => exact List.Forall₂.cons le_rfl ih

/-- Nothing on disk is lost when bytes are put into sub-files. -/
theorem forall₂_patches {SubFiles SubFiles' : List SMultiIo} {i n : ℕ} {ps : List (ℕ × List UInt8)}
    (hps : Reaches SubFiles i n ps)
    (h : List.Forall₂ (fun SubFile SubFile' => SubFile.content.length ≤ SubFile'.content.length) SubFiles SubFiles') :
    List.Forall₂ (fun SubFile SubFile' => SubFile.content.length ≤ SubFile'.content.length)
      SubFiles (patches SubFiles' ps) := by
  induction hps generalizing SubFiles' with
  | nil i n => simp [patches]
  | cons hlength hrest ih =>
    cases h with
    | cons hle hmore =>
      exact List.Forall₂.cons (hle.trans (length_content_patch _ _)) (ih hmore)

theorem write_content (f : CFileIo) (offset : ℕ) (data : List UInt8) :
    ∃ taken : List UInt8, taken.length ≤ data.length ∧ ∀ content : List UInt8,
      CFileIo.write { f with content := content } offset data =
        ((f.write offset data).1, { f with content := put 0 content offset taken }) := by
  by_cases hread : f.m_ReadOnly = true
  · exact ⟨[], by simp, fun content => by simp [CFileIo.write, hread]⟩
  · cases htakes : f.device.writes offset data.length with
    | none => exact ⟨[], by simp, fun content => by simp [CFileIo.write, hread, htakes]⟩
    | some k => exact ⟨data.take k, by simp, fun content => by simp [CFileIo.write, hread, htakes]⟩

section

variable {File File' : CAbstractIo} (h : Grown File File')

include h

/-- A write changes nothing but bytes on disk. -/
theorem Grown.write (offset : ℕ) (data : List UInt8) : Grown File (File'.Write offset data).2 := by
  cases h with
  | @file f f' hle =>
    obtain ⟨taken, -, hwrite⟩ := write_content f' offset data
    have hself := hwrite f'.content
    refine Grown.file ?_
    rw [hself]
    exact hle.trans (length_le_put 0 f'.content offset taken)
  | @multi SubFiles SubFiles' hsame hgrown =>
    obtain ⟨ps, hreaches, hwrite⟩ := writeLoop_patches SubFiles 0 offset data 0 (Or.inl (Nat.zero_le _))
    have hpatched : (MultiFile.write SubFiles' offset data).2 = patches SubFiles' ps :=
      congrArg Prod.snd (hwrite SubFiles' hsame)
    simp only [CAbstractIo.Write, hpatched]
    exact Grown.multi (hsame.patches hreaches) (forall₂_patches hreaches hgrown)

theorem Grown.execute (pOperation : CIOOperation) : Grown File (IOQueue.execute File' pOperation).2 := by
  cases pOperation with
  | read m_Offset m_Length m_Aux => exact h
  | write m_Offset m_Data m_Aux => exact h.write m_Offset m_Data

/-- A read elsewhere gives what it gave before the write. -/
theorem Grown.read_write {i n j : ℕ}
    {data : List UInt8} (hapart : Apart i n j data.length) (hdisk : File.Within i n j data.length) :
    (File'.Write j data).2.Read i n = File'.Read i n := by
  cases h with
  | @file f f' hle =>
    obtain ⟨taken, htaken, hwrite⟩ := write_content f' j data
    have hfile : (f'.write j data).2 = { f' with content := put 0 f'.content j taken } :=
      congrArg Prod.snd (hwrite f'.content)
    have hwithin : Within f'.content i n j data.length := Within.mono hle hdisk
    have hless : Apart i n j taken.length := by
      unfold Apart at *
      omega
    have hslice : slice (put 0 f'.content j taken) i n = slice f'.content i n := by
      by_cases hzero : n = 0
      · simp [hzero]
      by_cases hnil : taken = []
      · simp [hnil]
      · have hpos := List.length_pos_iff.mpr hnil
        refine slice_put_apart 0 f'.content hless.symm ?_
        unfold Within at hwithin
        omega
    simp [CAbstractIo.Write, CAbstractIo.Read, CFileIo.read, hfile, hslice]
  | @multi SubFiles SubFiles' hsame hgrown =>
    obtain ⟨ps, hreaches, hwrite⟩ := writeLoop_patches SubFiles' 0 j data 0 (Or.inl (Nat.zero_le _))
    have hpatched : (MultiFile.write SubFiles' j data).2 = patches SubFiles' ps :=
      congrArg Prod.snd (hwrite SubFiles' rfl)
    simp only [CAbstractIo.Write, CAbstractIo.Read, hpatched]
    exact readLoop_patches hreaches 0 i n [] (Or.inl (Nat.zero_le _)) hapart (AllWithin.mono hsame hgrown hdisk)

end

/-- A write behind another one takes as many bytes as before it. -/
theorem write_write_fst (i j : ℕ) (x y : List UInt8) : ((File.Write i x).2.Write j y).1 = (File.Write j y).1 := by
  cases File with
  | file f =>
    obtain ⟨taken, -, hwrite⟩ := write_content f i x
    obtain ⟨taken', -, hwrite'⟩ := write_content f j y
    have hfile := congrArg Prod.snd (hwrite f.content)
    have hagain := congrArg Prod.fst (hwrite' (put 0 f.content i taken))
    simp only at hfile
    simp only [CAbstractIo.Write, hfile]
    exact hagain
  | multi SubFiles =>
    obtain ⟨ps, hreaches, hwrite⟩ := writeLoop_patches SubFiles 0 i x 0 (Or.inl (Nat.zero_le _))
    obtain ⟨qs, hreaches', hwrite'⟩ := writeLoop_patches SubFiles 0 j y 0 (Or.inl (Nat.zero_le _))
    have hpatched := congrArg Prod.snd (hwrite SubFiles rfl)
    have hsame : Same SubFiles (patches SubFiles ps) := Same.patches hreaches rfl
    simp only [CAbstractIo.Write, MultiFile.write, hpatched, hwrite' _ hsame]

/-- Writes to different places, in either order. -/
theorem write_write_snd {i j : ℕ} {x y : List UInt8} (h : Apart i x.length j y.length) :
    ((File.Write i x).2.Write j y).2 = ((File.Write j y).2.Write i x).2 := by
  cases File with
  | file f =>
    obtain ⟨taken, htaken, hwrite⟩ := write_content f i x
    obtain ⟨taken', htaken', hwrite'⟩ := write_content f j y
    have hfile := congrArg Prod.snd (hwrite f.content)
    have hfile' := congrArg Prod.snd (hwrite' f.content)
    have hless : Apart i taken.length j taken'.length := by
      unfold Apart at *
      omega
    have hagain := congrArg Prod.snd (hwrite' (put 0 f.content i taken))
    have hagain' := congrArg Prod.snd (hwrite (put 0 f.content j taken'))
    simp only at hfile hfile' hagain hagain'
    simp only [CAbstractIo.Write, hfile, hfile']
    rw [hagain, hagain', put_put_comm 0 f.content hless]
  | multi SubFiles =>
    obtain ⟨ps, hreaches, hwrite⟩ := writeLoop_patches SubFiles 0 i x 0 (Or.inl (Nat.zero_le _))
    obtain ⟨qs, hreaches', hwrite'⟩ := writeLoop_patches SubFiles 0 j y 0 (Or.inl (Nat.zero_le _))
    have hpatched := congrArg Prod.snd (hwrite SubFiles rfl)
    have hpatched' := congrArg Prod.snd (hwrite' SubFiles rfl)
    have hsame : Same SubFiles (patches SubFiles ps) := Same.patches hreaches rfl
    have hsame' : Same SubFiles (patches SubFiles qs) := Same.patches hreaches' rfl
    simp only at hpatched hpatched'
    simp only [CAbstractIo.Write, MultiFile.write, hpatched, hpatched', hwrite _ hsame', hwrite' _ hsame,
      patches_comm hreaches hreaches' h SubFiles]

theorem independent_read_write {i n j Aux Aux' : ℕ} {data : List UInt8}
    (h : File.Harmless (.read i n Aux) (.write j data Aux')) :
    Independent IOQueue.execute (Grown File) (.read i n Aux) (.write j data Aux') := by
  intro File' hgrown
  have hread := hgrown.read_write h.1 h.2
  simp [IOQueue.execute, hread]

/-- Operations that can trade places do not depend on each other. -/
theorem independent_of_harmless {a b : CIOOperation} (h : File.Harmless a b) :
    Independent IOQueue.execute (Grown File) a b := by
  cases a with
  | read i n Aux =>
    cases b with
    | read j m Aux' => simp [Independent, IOQueue.execute]
    | write j data Aux' => exact independent_read_write File h
  | write i x Aux =>
    cases b with
    | read j m Aux' => exact (independent_read_write File h).symm
    | write j y Aux' =>
      intro File' hgrown
      simp [IOQueue.execute, write_write_fst, write_write_snd File' h]

/-- In the order of the offsets, the bytes on disk and what each operation emits are as in the order in
which the operations were submitted, if those that cannot trade places came with increasing offsets. -/
theorem sameOutcome_of_harmless (File : CAbstractIo) (events : List (Event CIOOperation))
    (h : (submitted events).Pairwise fun a b => File.Harmless a b ∨ a.GetOffset < b.GetOffset) :
    SameOutcome (run execute File (submitted events))
      ((Execute (onEvents File events)).results, (Execute (onEvents File events)).state) :=
  sameOutcome_of_inOrder (fun _ a hgrown => hgrown.execute a) (Grown.refl File)
    (h.imp fun hab => hab.imp_left (independent_of_harmless File))

/-- A file with no bytes. -/
def emptyFile : CAbstractIo := .file ⟨[], false, ⟨fun _ n => some n, fun _ n => some n⟩⟩

/-- Two writes to different places, and a read of what was written before. -/
theorem sameOutcome_of_harmless_three :
    SameOutcome (run execute emptyFile [.write 4 [1, 2] 0, .write 0 [3] 1, .read 5 1 2])
      ([(.write 0 [3] 1, .DataWriten 0 1 true 1), (.write 4 [1, 2] 0, .DataWriten 4 2 true 0),
        (.read 5 1 2, .DataRead 5 1 [2] true 2)],
        .file ⟨[3, 0, 0, 0, 1, 2], false, ⟨fun _ n => some n, fun _ n => some n⟩⟩) :=
  sameOutcome_of_harmless emptyFile [.submit (.write 4 [1, 2] 0), .submit (.write 0 [3] 1), .submit (.read 5 1 2)]
    (by simp [submitted, CAbstractIo.Harmless, emptyFile, Apart, CIOOperation.GetOffset])

/-- The latest of two writes to the same place is executed first. -/
theorem sameOutcome_not_equal : ¬ ∀ (File : CAbstractIo) (events : List (Event CIOOperation)),
    SameOutcome (run execute File (submitted events))
      ((Execute (onEvents File events)).results, (Execute (onEvents File events)).state) := by
  intro h
  have hstate := (h emptyFile [.submit (.write 0 [1] 0), .submit (.write 0 [2] 1)]).2
  have hcontent := congrArg CAbstractIo.content hstate
  revert hcontent
  decide

end Outcomes

end NeoLoader.IOQueue
