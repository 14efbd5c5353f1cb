import Mathlib.Data.List.Induction
import Mathlib.Data.List.Infix
import NeoLoader.TorrentInfo

/-!
# The paths of the files of a torrent

Each file of a torrent gets a directory below the one of the torrent and a name in it, both made of names that strangers
have chosen. Where a path leads is found by walking it part by part.
-/

namespace NeoLoader.TorrentPaths

open TorrentInfo TorrentNames
open TextEncodings (WideText)

section Places

variable {Part : Type} [DecidableEq Part]

/-- A place as seen from a directory: how many directories it is above it, and the names below that, the last one
first. -/
@[ext]
structure Place (Part : Type) where
  /-- How many directories up. -/
  ups : ℕ
  /-- The names down from there. -/
  names : List Part
  deriving DecidableEq

/-- The parts of a path that are no names. -/
structure Special (Part : Type) where
  /-- The part that goes up. -/
  up : Part
  /-- The parts that stay. -/
  stay : List Part

variable (special : Special Part)

/-- A part of a path that is a name. -/
def isEntry (part : Part) : Bool := decide (part ∉ special.stay ∧ part ≠ special.up)

/-- A step of a walk. -/
def enter (place : Place Part) (part : Part) : Place Part :=
  if part ∈ special.stay then place
  else if part = special.up then
    match place.names with
    | [] => { place with ups := place.ups + 1 }
    | _ :: names => { place with names := names }
  else { place with names := part :: place.names }

/-- Where a walk ends. -/
def walk (parts : List Part) : Place Part := parts.foldl (enter special) ⟨0, []⟩

/-- The place is below the directory. -/
def Place.Inside (place : Place Part) : Prop := place.ups = 0 ∧ place.names ≠ []

/-- In every front part there are at least as many names as parts that go up, and more in the whole. -/
def Balanced (parts : List Part) : Prop :=
  (∀ front, front <+: parts → front.count special.up ≤ front.countP (isEntry special)) ∧
    parts.count special.up < parts.countP (isEntry special)

instance (parts : List Part) : Decidable (Balanced special parts) :=
  decidable_of_iff ((∀ front ∈ parts.inits, front.count special.up ≤ front.countP (isEntry special)) ∧
    parts.count special.up < parts.countP (isEntry special)) (by simp [Balanced, List.mem_inits])

variable {special}

theorem walk_concat (parts : List Part) (part : Part) :
    walk special (parts ++ [part]) = enter special (walk special parts) part := by
  simp [walk]

theorem ups_le_enter (place : Place Part) (part : Part) : place.ups ≤ (enter special place part).ups := by
  rw [enter]
  split_ifs
  · exact le_rfl
  · cases place.names <;> simp
  · exact le_rfl

variable (hup : special.up ∉ special.stay)
include hup

/-- As long as a walk stays below, its names are those that it passed less those that it left. -/
theorem length_walk (parts : List Part) (h : (walk special parts).ups = 0) :
    (walk special parts).names.length + parts.count special.up = parts.countP (isEntry special) := by
  induction parts using List.reverseRecOn with
  | nil => simp [walk]
  | append_singleton parts part ih =>
    rw [walk_concat] at h ⊢
    have hzero := Nat.le_zero.mp ((ups_le_enter _ _).trans h.le)
    have hlength := ih hzero
    rw [List.count_append, List.countP_append]
    by_cases hstay : part ∈ special.stay
    · have hne : part ≠ special.up := fun hpart => hup (hpart ▸ hstay)
      have hentry : isEntry special part = false := by simp [isEntry, hstay]
      rw [enter, if_pos hstay, List.count_singleton, if_neg (by simpa using hne), List.countP_singleton, hentry]
      simpa using hlength
    · by_cases hpart : part = special.up
      · have hentry : isEntry special part = false := by simp [isEntry, hpart]
        rw [enter, if_neg hstay, if_pos hpart] at h ⊢
        rw [List.count_singleton, if_pos (by simpa using hpart), List.countP_singleton, hentry]
        cases hnames : (walk special parts).names with
        | nil => simp [hnames] at h
        | cons name names =>
          simp only [hnames, List.length_cons] at hlength ⊢
          simp
          omega
      · have hentry : isEntry special part = true := by simp [isEntry, hstay, hpart]
        rw [enter, if_neg hstay, if_neg hpart, List.count_singleton, if_neg (by simpa using hpart),
          List.countP_singleton, hentry, List.length_cons]
        simp
        omega

/-- A walk stays below if and only if no front part of it goes up too often. -/
theorem walk_ups_iff (parts : List Part) : (walk special parts).ups = 0 ↔
    ∀ front, front <+: parts → front.count special.up ≤ front.countP (isEntry special) := by
  induction parts using List.reverseRecOn with
  | nil => simp [walk]
  | append_singleton parts part ih =>
    constructor
    · intro h front hfront
      have hlength := length_walk hup (parts ++ [part]) h
      rw [walk_concat] at h
      have hzero := Nat.le_zero.mp ((ups_le_enter _ _).trans h.le)
      rcases List.prefix_concat_iff.mp hfront with rfl | hbefore
      · omega
      · exact ih.mp hzero front hbefore
    · intro h
      have hzero := ih.mpr fun front hfront => h front (hfront.trans (List.prefix_append _ _))
      have hlength := length_walk hup parts hzero
      have hwhole := h _ List.prefix_rfl
      rw [List.count_append, List.countP_append] at hwhole
      rw [walk_concat, enter]
      split_ifs with hstay hpart
      · exact hzero
      · cases hnames : (walk special parts).names with
        | nil =>
          simp [hnames, hpart, isEntry] at hlength hwhole
          omega
        | cons name names => exact hzero
      · exact hzero

theorem inside_iff (parts : List Part) : (walk special parts).Inside ↔ Balanced special parts := by
  rw [Place.Inside, Balanced, ← walk_ups_iff hup]
  refine and_congr_right fun hzero => ?_
  have hlength := length_walk hup parts hzero
  rw [← List.length_pos_iff]
  omega

end Places

section Paths

/-- `CFile::SetFileDir`. -/
def setFileDir (Dir : WideText) : WideText := if Dir ≠ [] ∧ Dir.getLast? ≠ some 47 then Dir ++ [47] else Dir

/-- `CTorrent::GetSubFilePath`, of a file of the torrent. -/
def getSubFilePath (FileDir FileName : WideText) (File : SFileInfo) : WideText :=
  FileDir ++ FileName ++ [47] ++ if File.FilePath ≠ [] then [47].intercalate File.FilePath ++ [47] else []

/-- The path of a file of the torrent, once it has its directory and its name. -/
def subFile (FileDir FileName : WideText) (File : SFileInfo) : WideText :=
  setFileDir (getSubFilePath FileDir FileName File) ++ File.FileName

/-- The paths that `CTorrent::SetupPartMap` gives to the files of a torrent. -/
def setupPartMap (FileDir : WideText) (s : CTorrentInfo) : List WideText :=
  if s.m_Files.length > 1 then
    (s.m_Files.filter fun SubFile => SubFile.Length ≠ 0).map (subFile FileDir s.m_TorrentName)
  else []

variable (win32 : Bool)

/-- What separates the parts of a path. -/
def isSeparator (u : UInt16) : Bool := u = 47 || win32 && u = 92

/-- The parts of paths that are no names: two dots, one dot, and nothing. -/
def dots : Special WideText := ⟨[46, 46], [[46], []]⟩

/-- Where a path below a directory leads. -/
def location (rest : WideText) : Place WideText := walk dots (rest.splitOnP (isSeparator win32))

/-- What is expected of the paths: each is below the directory, and no two lead to the same place. -/
def PathsRight (FileDir : WideText) (paths : List WideText) : Prop :=
  ∃ rests : List WideText, paths = rests.map (FileDir ++ ·) ∧ (∀ rest ∈ rests, (location win32 rest).Inside) ∧
    rests.Pairwise fun rest rest' => location win32 rest ≠ location win32 rest'

/-- The parts of the path of a file. -/
def parts (FileName : WideText) (File : SFileInfo) : List WideText :=
  (FileName :: (File.FilePath ++ [File.FileName])).flatMap (List.splitOnP (isSeparator win32))

/-- The condition under which the paths are as expected. -/
def PathsOk (FileName : WideText) (Files : List SFileInfo) : Prop :=
  Files.length > 1 → (∀ File ∈ Files, File.Length ≠ 0 → Balanced dots (parts win32 FileName File)) ∧
      (Files.filter fun File => File.Length ≠ 0).Pairwise fun File File' =>
        walk dots (parts win32 FileName File) ≠ walk dots (parts win32 FileName File')

variable {win32}

theorem isSeparator_slash : isSeparator win32 47 = true := by
  simp [isSeparator]

/-- A path of joined names has the parts of all names. -/
theorem splitOnP_intercalate (names : List WideText) (last : WideText) :
    ((if names ≠ [] then [47].intercalate names ++ [47] else []) ++ last).splitOnP (isSeparator win32) =
      (names ++ [last]).flatMap (List.splitOnP (isSeparator win32)) := by
  induction names with
  | nil => simp
  | cons name names ih =>
    have hjoin : (if name :: names ≠ [] then [47].intercalate (name :: names) ++ [47] else []) ++ last =
        name ++ 47 :: ((if names ≠ [] then [47].intercalate names ++ [47] else []) ++ last) := by
      cases names with
      | nil => simp
      | cons name' names => simp [List.intercalate_cons_cons]
    rw [hjoin, List.splitOnP_append_cons _ _ isSeparator_slash, ih, List.cons_append, List.flatMap_cons]

/-- The path of a file below the directory of the torrent. -/
def below (FileName : WideText) (File : SFileInfo) : WideText :=
  FileName ++ 47 :: ((if File.FilePath ≠ [] then [47].intercalate File.FilePath ++ [47] else []) ++ File.FileName)

theorem subFile_eq (FileDir FileName : WideText) (File : SFileInfo) :
    subFile FileDir FileName File = FileDir ++ below FileName File := by
  have hslash : (getSubFilePath FileDir FileName File).getLast? = some 47 := by
    rw [getSubFilePath]
    by_cases hpath : File.FilePath = []
    · simp [hpath]
    · rw [if_pos hpath, ← List.append_assoc, List.getLast?_concat]
  rw [subFile, setFileDir, if_neg fun h => h.2 hslash, getSubFilePath, below]
  simp

theorem location_below (FileName : WideText) (File : SFileInfo) :
    location win32 (below FileName File) = walk dots (parts win32 FileName File) := by
  rw [location, below, List.splitOnP_append_cons _ _ isSeparator_slash, splitOnP_intercalate, parts, List.flatMap_cons]

/-- What the paths of some files are below the directory is found in one way only. -/
theorem pathsRight_map_iff (FileDir FileName : WideText) (Files : List SFileInfo) :
    PathsRight win32 FileDir (Files.map (subFile FileDir FileName)) ↔
      (∀ File ∈ Files, (walk dots (parts win32 FileName File)).Inside) ∧ Files.Pairwise fun File File' =>
          walk dots (parts win32 FileName File) ≠ walk dots (parts win32 FileName File') := by
  have hmap : Files.map (subFile FileDir FileName) = (Files.map (below FileName)).map (FileDir ++ ·) := by
    rw [List.map_map]
    exact List.map_congr_left fun File _ => subFile_eq FileDir FileName File
  have hright : PathsRight win32 FileDir (Files.map (subFile FileDir FileName)) ↔
      (∀ rest ∈ Files.map (below FileName), (location win32 rest).Inside) ∧
        (Files.map (below FileName)).Pairwise fun rest rest' => location win32 rest ≠ location win32 rest' := by
    rw [PathsRight, hmap]
    constructor
    · rintro ⟨rests, hrests, hright⟩
      rwa [List.map_injective_iff.mpr (List.append_right_injective FileDir) hrests]
    · exact fun h => ⟨_, rfl, h⟩
  rw [hright, List.forall_mem_map, List.pairwise_map]
  simp only [location_below]

theorem pathsRight_iff (FileDir : WideText) (s : CTorrentInfo) :
    PathsRight win32 FileDir (setupPartMap FileDir s) ↔ PathsOk win32 s.m_TorrentName s.m_Files := by
  rw [setupPartMap, PathsOk]
  split_ifs with hmulti
  · rw [pathsRight_map_iff]
    simp only [@inside_iff _ _ dots (by decide), List.mem_filter, decide_eq_true_eq, and_imp, hmulti, true_implies]
  · simp [PathsRight, hmulti]

/-- The files that there are once a dictionary was read. -/
def allFiles (win32 : Bool) (Info : List (String × QVariant)) (s : CTorrentInfo) : List SFileInfo :=
  if contains Info "files" then s.m_Files ++ newFiles win32 Info else s.m_Files

/-- The dictionary of a torrent `t` of some files, with one piece. -/
def smallTorrentInfo (Files : List SFileInfo) : List (String × QVariant) :=
  [("files", ofList (Files.map (fileMap smallConversions))), ("name", ofByteArray smallConversions [116]),
    ("piece length", ofNumber smallConversions 2), ("pieces", ofByteArray smallConversions (List.replicate 20 120))]

/-- The torrent that is read from it. -/
def readTorrent (Metadata : List UInt8) (Files : List SFileInfo) : CTorrentInfo :=
  { CTorrentInfo.new with
    m_TotalLength := 2
    m_TorrentName := [116]
    m_Files := Files
    m_PieceHashes := [List.replicate 20 120]
    m_PieceLength := 2
    m_Metadata := Metadata }

/-- A torrent of the files `x` and `y`. -/
def plainText : List UInt8 := ("d5:filesld6:lengthi1e4:pathl1:xeed6:lengthi1e4:pathl1:yeee4:name1:t" ++
  "12:piece lengthi2e6:pieces20:xxxxxxxxxxxxxxxxxxxxe").toUTF8.data.toList

/-- A torrent of a file `y` and of a file `x` two directories up. -/
def climbingText : List UInt8 := ("d5:filesld6:lengthi1e4:pathl1:yeed6:lengthi1e4:pathl2:..2:..1:xeee4:name1:t" ++
  "12:piece lengthi2e6:pieces20:xxxxxxxxxxxxxxxxxxxxe").toUTF8.data.toList

/-- A torrent of a file `y` and of another one. -/
def twinText : List UInt8 := ("d5:filesld6:lengthi1e4:pathl1:yeed6:lengthi1e4:pathl1:yeee4:name1:t" ++
  "12:piece lengthi2e6:pieces20:xxxxxxxxxxxxxxxxxxxxe").toUTF8.data.toList

end Paths

end NeoLoader.TorrentPaths
