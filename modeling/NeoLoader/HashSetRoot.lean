import NeoLoader.ByteReader

/-!
# The part hashes that a root hash admits

A hash set takes part hashes as a list or as bytes and computes the root from them. Several hashes
are compared with the root that is known. A single hash replaces it unseen, and bytes that end too
early leave the hashes read so far behind.
-/

namespace NeoLoader.HashSetRoot

open ByteReader

/-- `EFileHashType`, as far as hash sets have it. -/
inductive EFileHashType where
  | HashEd2k
  | HashTorrent
  deriving DecidableEq

/-- `CFileHash::GetSize`. -/
def EFileHashType.size : EFileHashType → ℕ
  | HashEd2k => 16
  | HashTorrent => 20

/-- `ED2K_PARTSIZE`. -/
def ed2kPartSize : ℕ := 9728000

structure CFileHashSet where
  eType : EFileHashType
  totalSize : ℕ
  partSize : ℕ
  /-- `m_Hash`: the root. -/
  hash : List UInt8
  /-- `m_HashSet`: the part hashes. -/
  hashSet : List (List UInt8)
  deriving DecidableEq

def divUp (size value : ℕ) : ℕ := (size + value - 1) % 2 ^ 64 / value

/-- `CFileHashSet::GetPartCount`. -/
def getPartCount (s : CFileHashSet) : ℕ :=
  match s.eType with
  | .HashEd2k => (s.totalSize / s.partSize + 1) % 2 ^ 32
  | .HashTorrent => divUp s.totalSize s.partSize % 2 ^ 32

/-- `CFileHash::IsValid`: not all bytes are zero. -/
def isValid (hash : List UInt8) : Bool := hash.any fun b => b ≠ 0

variable (H : List UInt8 → List UInt8)

/-- `CFileHashSet::CalculateRoot`. -/
def calculateRoot (s : CFileHashSet) : Bool × CFileHashSet :=
  if s.hashSet = [] then (false, s)
  else if s.eType = .HashTorrent then (true, s)
  else match s.hashSet with
    | [first] => (true, { s with hash := first })
    | hashes =>
      if isValid s.hash = false then (true, { s with hash := H hashes.flatten })
      else if s.hash = H hashes.flatten then (true, s)
      else (false, s)

/-- How an offer ends. -/
inductive Outcome where
  /-- The result is true. -/
  | accepted
  /-- The result is false. -/
  | rejected
  /-- An exception is thrown. -/
  | thrown
  deriving DecidableEq

/-- The end of both functions that load part hashes: a root that does not fit unloads them. -/
def finish (s : CFileHashSet) : Outcome × CFileHashSet :=
  match calculateRoot H s with
  | (true, s) => (.accepted, s)
  | (false, s) => (.rejected, { s with hashSet := [] })

variable (memory : List UInt8 → List UInt8)

/-- The bytes that are copied from a byte array, with those behind a short one. -/
def copyHash (uSize : ℕ) (Hash : List UInt8) : List UInt8 := (Hash ++ memory Hash).take uSize

/-- `CFileHashSet::SetHashSet`. -/
def setHashSet (HashSet : List (List UInt8)) (s : CFileHashSet) : Outcome × CFileHashSet :=
  if HashSet.length ≠ getPartCount s ∨ HashSet = [] ∨ (HashSet.headD []).length ≠ s.eType.size then (.rejected, s)
  else finish H { s with hashSet := s.hashSet ++ HashSet.map (copyHash memory s.eType.size) }

/-- The loop of `LoadBin`: the hashes that are read, and whether all of them were there. -/
def readHashes (uSize : ℕ) : ℕ → List UInt8 → List (List UInt8) × Bool
  | 0, _ => ([], true)
  | PartCount + 1, Buffer =>
    if Buffer.length < uSize then ([], false)
    else (Buffer.take uSize :: (readHashes uSize PartCount (Buffer.drop uSize)).1,
      (readHashes uSize PartCount (Buffer.drop uSize)).2)

/-- The hashes in some bytes, and whether all of them were there. -/
def hashesOf (uSize : ℕ) (Array : List UInt8) : List (List UInt8) × Bool :=
  readHashes uSize (ofLittleEndian (Array.take 4)) (Array.drop 4)

/-- `CFileHashSet::LoadBin`. -/
def loadBin (Array : List UInt8) (s : CFileHashSet) : Outcome × CFileHashSet :=
  if Array.length < 4 then (.thrown, s)
  else if (hashesOf s.eType.size Array).2 then
    finish H { s with hashSet := s.hashSet ++ (hashesOf s.eType.size Array).1 }
  else (.thrown, { s with hashSet := s.hashSet ++ (hashesOf s.eType.size Array).1 })

/-- Part hashes that are offered. -/
inductive Offer where
  /-- A list, to `SetHashSet`. -/
  | list (HashSet : List (List UInt8))
  /-- Bytes, to `LoadBin`. -/
  | bin (Array : List UInt8)

/-- Offer part hashes to a hash set. -/
def take : Offer → CFileHashSet → Outcome × CFileHashSet
  | .list HashSet, s => setHashSet H memory HashSet s
  | .bin Array, s => loadBin H Array s

/-- The root that belongs to the part hashes. That of a torrent is its info hash, which is not made
of them. -/
def recomputedRoot (s : CFileHashSet) : List UInt8 :=
  match s.eType, s.hashSet with
  | .HashTorrent, _ => s.hash
  | .HashEd2k, [first] => first
  | .HashEd2k, hashes => H hashes.flatten

/-- An end that accepts only what belongs to the known root, and otherwise changes nothing. -/
structure SafeEnd (s : CFileHashSet) (r : Outcome × CFileHashSet) : Prop where
  /-- What is accepted belongs to the known root, which stays. -/
  accepted : r.1 = .accepted → r.2.hash = s.hash ∧ recomputedRoot H r.2 = s.hash
  /-- What is not accepted leaves the root and the part hashes. -/
  refused : r.1 ≠ .accepted → r.2.hash = s.hash ∧ r.2.hashSet = s.hashSet

/-- The part hashes an ed2k set would have fit its root. Several that do not are all unloaded, so
they do no harm if there were none before. -/
def FitRoot (s : CFileHashSet) : List (List UInt8) → Prop
  | [only] => only = s.hash
  | all => s.hashSet = [] ∨ H all.flatten = s.hash

/-- What the part hashes have to be, the stored ones with the offered ones behind them. -/
def Fits (s : CFileHashSet) (hashes : List (List UInt8)) : Prop :=
  s.eType = .HashTorrent ∨ FitRoot H s (s.hashSet ++ hashes)

/-- An offer that does no harm: it is turned away at once, or it is complete and fits, or it ends
before its first hash. -/
def Harmless : Offer → CFileHashSet → Prop
  | .list HashSet, s =>
    (HashSet.length ≠ getPartCount s ∨ HashSet = [] ∨ (HashSet.headD []).length ≠ s.eType.size) ∨
      Fits H s (HashSet.map (copyHash memory s.eType.size))
  | .bin Array, s =>
    Array.length < 4 ∨ if (hashesOf s.eType.size Array).2 then Fits H s (hashesOf s.eType.size Array).1
      else (hashesOf s.eType.size Array).1 = []

section Ends

variable {H memory} {s : CFileHashSet}

theorem safeEnd_unchanged {o : Outcome} (ho : o ≠ .accepted) : SafeEnd H s (o, s) :=
  ⟨fun h => absurd h ho, fun _ => ⟨rfl, rfl⟩⟩

theorem safeEnd_thrown_iff (hashes : List (List UInt8)) :
    SafeEnd H s (.thrown, { s with hashSet := s.hashSet ++ hashes }) ↔ hashes = [] := by
  constructor
  · intro h
    have hsame := (h.refused Outcome.noConfusion).2
    exact List.append_right_eq_self.mp hsame
  · rintro rfl
    rw [List.append_nil]
    exact safeEnd_unchanged (by decide)

/-- Whether the end of an offer is safe depends on the root of all hashes. -/
theorem safeEnd_finish_iff (hvalid : isValid s.hash = true) (hashes : List (List UInt8)) :
    SafeEnd H s (finish H { s with hashSet := s.hashSet ++ hashes }) ↔ Fits H s hashes := by
  obtain ⟨eType, totalSize, partSize, hash, hashSet⟩ := s
  rw [Fits]
  dsimp only at hvalid ⊢
  generalize hall : hashSet ++ hashes = all
  cases all with
  | nil =>
    have hnone := (List.append_eq_nil_iff.mp hall).1
    subst hnone
    exact iff_of_true (safeEnd_unchanged Outcome.noConfusion) (Or.inr (Or.inl rfl))
  | cons first rest =>
    cases eType with
    | HashTorrent => exact iff_of_true ⟨fun _ => ⟨rfl, rfl⟩, fun h => absurd rfl h⟩ (Or.inl rfl)
    | HashEd2k =>
      cases rest with
      | nil =>
        constructor
        · exact fun h => Or.inr (h.accepted rfl).1
        · rintro (h | rfl)
          · exact absurd h (by decide)
          · exact ⟨fun _ => ⟨rfl, rfl⟩, fun h => absurd rfl h⟩
      | cons second rest =>
        by_cases hroot : hash = H (first :: second :: rest).flatten
        · have hend : finish H ⟨.HashEd2k, totalSize, partSize, hash, first :: second :: rest⟩ =
              (.accepted, ⟨.HashEd2k, totalSize, partSize, hash, first :: second :: rest⟩) := by
            rw [finish, calculateRoot, if_neg (List.cons_ne_nil _ _), if_neg EFileHashType.noConfusion]
            dsimp only
            rw [if_neg (by rw [hvalid]; exact Bool.noConfusion), if_pos hroot]
          rw [hend]
          exact iff_of_true ⟨fun _ => ⟨rfl, hroot.symm⟩, fun h => absurd rfl h⟩ (Or.inr (Or.inr hroot.symm))
        · have hend : finish H ⟨.HashEd2k, totalSize, partSize, hash, first :: second :: rest⟩ =
              (.rejected, ⟨.HashEd2k, totalSize, partSize, hash, []⟩) := by
            rw [finish, calculateRoot, if_neg (List.cons_ne_nil _ _), if_neg EFileHashType.noConfusion]
            dsimp only
            rw [if_neg (by rw [hvalid]; exact Bool.noConfusion), if_neg hroot]
          rw [hend]
          constructor
          · exact fun h => Or.inr (Or.inl (h.refused Outcome.noConfusion).2.symm)
          · rintro (h | h | h)
            · exact absurd h (by decide)
            · exact ⟨fun h' => Outcome.noConfusion h', fun _ => ⟨rfl, h.symm⟩⟩
            · exact absurd h.symm hroot

/-- With a valid root, an offer is safe if and only if it does no harm. -/
theorem take_safe_iff (hvalid : isValid s.hash = true) (o : Offer) :
    SafeEnd H s (take H memory o s) ↔ Harmless H memory o s := by
  cases o with
  | list HashSet =>
    rw [take, setHashSet, Harmless]
    split_ifs with hturned
    · exact iff_of_true (safeEnd_unchanged (by decide)) (Or.inl hturned)
    · rw [safeEnd_finish_iff hvalid]
      exact (or_iff_right hturned).symm
  | bin Array =>
    rw [take, loadBin, Harmless]
    by_cases hshort : Array.length < 4
    · rw [if_pos hshort]
      exact iff_of_true (safeEnd_unchanged (by decide)) (Or.inl hshort)
    rw [if_neg hshort, or_iff_right hshort]
    split_ifs with hdone
    · exact safeEnd_finish_iff hvalid _
    · exact safeEnd_thrown_iff _

end Ends

/-- A hash set of a file of one part. -/
def onePart : CFileHashSet := ⟨.HashEd2k, 1000, ed2kPartSize, List.replicate 16 7, []⟩

/-- The root itself is the only part hash, as a list. -/
theorem take_safe_iff_onePart : SafeEnd (fun _ => List.replicate 16 0) onePart
    (take (fun _ => List.replicate 16 0) (fun _ => []) (.list [List.replicate 16 7]) onePart) :=
  (take_safe_iff (by decide) _).mpr (Or.inr (Or.inr rfl))

/-- A single foreign hash is accepted and replaces the root, and bytes that announce two hashes and
hold one leave it behind. -/
theorem take_unsafe : take (fun _ => List.replicate 16 0) (fun _ => []) (.list [List.replicate 16 9]) onePart =
      (.accepted, { onePart with
        hash := List.replicate 16 9, hashSet := [List.replicate 16 9] }) ∧
    take (fun _ => List.replicate 16 0) (fun _ => []) (.bin ([2, 0, 0, 0] ++ List.replicate 16 9)) onePart =
      (.thrown, { onePart with hashSet := [List.replicate 16 9] }) := by
  decide

end NeoLoader.HashSetRoot
