import NeoLoader.ByteReader
import NeoLoader.HashTreeRanges
import NeoLoader.KeyMapTotals
import NeoLoader.RangeMap

/-!
# Metadata from peers

A torrent or a Neo file whose metadata is not known yet gets it from peers, block by block. The blocks of
all peers are kept side by side with the size that each peer claims. To assemble the metadata the size of
one peer after the other is tried, with blocks of the others where it has sent none. A peer that claims
more blocks than there are keeps those behind it from being tried.
-/

namespace NeoLoader.MetadataExchange

open KeyMap ByteReader HashTreeRanges RangeMap

section Exchange

variable {ID β ρ : Type*} [LinearOrder ID]

/-- `SMetadata`: what is known from a peer. -/
structure SMetadata (β : Type*) where
  /-- `MetadataSize`, `EntryCount`, as a `uint64`: zero before the peer has claimed a size, and -1 once it
  has rejected a request. -/
  size : ℕ
  /-- `Blocks`, `Entrys`: the blocks of the peer, and empty ones that it was asked for. -/
  blocks : ℤ → Option β

/-- `SMetadataExchange`: the peers in the order of their IDs. -/
abbrev SMetadataExchange (ID β : Type*) [LinearOrder ID] := OrderedMap ID (SMetadata β)

/-- What is different for the metadata of a torrent and of a Neo file. -/
structure Rules (β ρ : Type*) where
  /-- The number of blocks to ask for. -/
  askCount : ℕ → ℕ
  /-- The number of blocks to assemble. -/
  takeCount : ℕ → ℕ
  /-- The empty block. -/
  empty : β
  /-- Whether a block is empty. -/
  isEmpty : β → Bool
  /-- The metadata of these blocks, if they are right. -/
  judge : List β → Option ρ

variable (r : Rules β ρ) (x : SMetadataExchange ID β)

/-- `QMap::operator[]`, which reads a default for a peer that is new. -/
def metadata (id : ID) : SMetadata β := (x.get id).getD ⟨0, fun _ => none⟩

/-- The sizes that peers claim. -/
def claims : List ℕ :=
  (x.entries.map fun e => e.2.size).filter fun s => s ≠ 0 ∧ s ≠ minusOne

/-- How many peers claim each size. -/
def claimCounts : OrderedMap ℕ ℕ :=
  (claims x).foldl (fun Map s => Map.insert s ((Map.get s).getD 0 + 1)) OrderedMap.empty

/-- The size of the last entry of these. -/
def consensus : ℕ := (((claimCounts x).entries.getLast?).map Prod.fst).getD 0

/-- The size of which a peer is asked for blocks. -/
def askedSize (id : ID) : ℕ := if (metadata x id).size = 0 then consensus x else (metadata x id).size

/-- How many peers have a block, or were asked for it. -/
def copies (Index : ℤ) : ℕ := x.entries.countP fun e => (e.2.blocks Index).isSome

/-- The loop of `NextMetadataBlock`: a block that the peer was not asked for yet, of which there are the
fewest copies. -/
def pick (id : ID) (n : ℕ) : Option ℕ :=
  (List.range n).foldl (fun (best : Option ℕ) (i : ℕ) =>
    if ((metadata x id).blocks i).isSome then best
    else match best with
      | none => some i
      | some b => if copies x i < copies x b then some i else some b) none

def nextMetadataBlock (exchange : Option (SMetadataExchange ID β)) (id : ID) : ℤ × SMetadataExchange ID β :=
  let x := exchange.getD OrderedMap.empty
  let x := x.insert id (metadata x id)
  if (metadata x id).size = minusOne then (-1, x)
  else match pick x id (r.askCount (askedSize x id)) with
    | none => (-1, x)
    | some i => (i, x.insert id { metadata x id with
        blocks := Function.update (metadata x id).blocks i (some r.empty) })

def addMetadataBlock (Index : ℤ) (block : β) (size : ℕ) (id : ID) : SMetadataExchange ID β :=
  x.insert id
    { size := if (metadata x id).size = 0 then size else (metadata x id).size
      blocks := Function.update (metadata x id).blocks Index (some block) }

def resetMetadataBlock (id : ID) : SMetadataExchange ID β := x.insert id ⟨minusOne, fun _ => none⟩

/-- A block of the metadata that a peer claims: its own one, or that of the next peer that has one. -/
def findBlock (i Index : ℕ) : Option β :=
  (List.range x.entries.length).findSome? fun j =>
    (x.entries[(i + j) % x.entries.length]?).bind fun e =>
      (e.2.blocks Index).filter fun block => !r.isEmpty block

/-- Some blocks of the metadata that a peer claims, from the given one on. -/
def findBlocks (i : ℕ) : ℕ → ℕ → Option (List β)
  | _, 0 => some []
  | Index, n + 1 => (findBlock r x i Index).bind fun block => (findBlocks i (Index + 1) n).map (block :: ·)

/-- How the metadata that a peer claims is dealt with. -/
inductive Verdict (ρ : Type*) where
  /-- The peer claims no size. -/
  | skipped
  /-- There is a block that no peer has. -/
  | missing
  /-- The blocks are not right. -/
  | refused
  /-- The blocks are right. -/
  | given (result : ρ)

/-- The body of the loop of `TryAssemblyMetadata`. -/
def verdict (i : ℕ) : Verdict ρ :=
  match x.entries[i]? with
  | none => Verdict.skipped
  | some e =>
    if e.2.size = 0 ∨ e.2.size = minusOne then Verdict.skipped
    else match findBlocks r x i 0 (r.takeCount e.2.size) with
      | none => Verdict.missing
      | some blocks => match r.judge blocks with
        | none => Verdict.refused
        | some result => Verdict.given result

/-- The loop goes on until something is given or missing. -/
def firstResult : List (Verdict ρ) → Option ρ
  | [] => none
  | Verdict.skipped :: rest => firstResult rest
  | Verdict.refused :: rest => firstResult rest
  | Verdict.missing :: _ => none
  | Verdict.given result :: _ => some result

def tryAssemblyMetadata : Option ρ :=
  firstResult ((List.range x.entries.length).map (verdict r x))

end Exchange

section Members

variable {α : Type*} [DecidableEq α]

def getMetadataBlockCount (MetadataSize : ℕ) : ℤ :=
  toInt (MetadataSize / 16384) + if MetadataSize % 16384 ≠ 0 then 1 else 0

/-- The metadata of a torrent: blocks of 16 KiB, and the SHA-1 hash of all bytes. -/
def torrentRules (sha1 : List UInt8 → α) (infoHash : α) : Rules (List UInt8) (List UInt8) where
  askCount := fun s => if s = 0 then 1 else (getMetadataBlockCount s).toNat
  takeCount := fun s => (getMetadataBlockCount s).toNat
  empty := []
  isEmpty := List.isEmpty
  judge := fun blocks => if sha1 blocks.flatten = infoHash then some blocks.flatten else none

/-- A hash of a sub-file. -/
structure CFileHash where
  /-- Whether it is the Neo hash. -/
  isNeo : Bool
  /-- `GetHash`. -/
  hash : List UInt8

structure SSubFile where
  FileName : String
  FileSize : ℕ
  FileDirectory : String
  FileHashes : List CFileHash

/-- An entry of Neo metadata, as a map. -/
structure QVariantMap (μ : Type*) where
  /-- The file name. -/
  FN : Option String
  /-- The file size. -/
  FS : Option ℕ
  /-- The directory. -/
  FD : Option String
  /-- The hashes. -/
  HM : Option μ
  /-- Other keys. -/
  others : List String

def QVariantMap.isEmpty {μ : Type*} (File : QVariantMap μ) : Bool :=
  File.FN.isNone && File.FS.isNone && File.FD.isNone && File.HM.isNone && File.others.isEmpty

/-- A sub-file, read from its entry. -/
def readSubFile {μ : Type*} (readHashMap : Option μ → ℕ → List CFileHash) (File : QVariantMap μ) : SSubFile where
  FileName := File.FN.getD ""
  FileSize := File.FS.getD 0
  FileDirectory := File.FD.getD ""
  FileHashes := readHashMap File.HM (File.FS.getD 0)

/-- What of the sub-files is hashed. -/
def metaData (SubFiles : List SSubFile) : List UInt8 :=
  SubFiles.flatMap fun SubFile => littleEndian 8 SubFile.FileSize ++
    ((SubFile.FileHashes.find? CFileHash.isNeo).map CFileHash.hash).getD []

/-- The metadata of a Neo file: one entry for each sub-file. The hash is that of the sizes and the hashes of
the sub-files. -/
def neoRules {μ : Type*} (readHashMap : Option μ → ℕ → List CFileHash) (hashMetaData : List UInt8 → α)
    (metaHash : α) (uFileSize : ℕ) : Rules (QVariantMap μ) (List SSubFile) where
  askCount := fun s => if s = 0 then 1 else s
  takeCount := fun s => (BitVec.ofNat 64 s).toInt.toNat
  empty := ⟨none, none, none, none, []⟩
  isEmpty := QVariantMap.isEmpty
  judge := fun Entrys =>
    let SubFiles := Entrys.map (readSubFile readHashMap)
    if hashMetaData (metaData SubFiles) ≠ metaHash then none
    else if uFileSize ≠ (SubFiles.map SSubFile.FileSize).sum % 2 ^ 64 then none
    else some SubFiles

/-- `CNeoManager::TryAssemblyMetadata`: not before the hash tree is complete. -/
def neoTryAssemblyMetadata {ID μ ρ : Type*} [LinearOrder ID] (canHashParts : Bool) (r : Rules μ ρ)
    (x : SMetadataExchange ID μ) : Option ρ :=
  if canHashParts then tryAssemblyMetadata r x else none

end Members

section Assembly

variable {ID β ρ : Type*} [LinearOrder ID] {r : Rules β ρ} {x : SMetadataExchange ID β}

/-- The loop stops at this peer without the metadata. -/
def Verdict.Stops (result : ρ) (v : Verdict ρ) : Prop :=
  v = Verdict.missing ∨ ∃ other, other ≠ result ∧ v = Verdict.given other

/-- What is given was given for one of the peers. -/
theorem firstResult_mem {l : List (Verdict ρ)} {result : ρ} (h : firstResult l = some result) :
    Verdict.given result ∈ l := by
  induction l with
  | nil => cases h
  | cons v l ih =>
    cases v with
    | skipped => exact List.mem_cons_of_mem _ (ih h)
    | refused => exact List.mem_cons_of_mem _ (ih h)
    | missing => cases h
    | given other =>
      rw [firstResult] at h
      cases h
      exact List.mem_cons_self

/-- If the metadata can be given, it is given if and only if each peer for which a block is missing or
something else is given comes behind one for which it is given. -/
theorem firstResult_iff {l : List (Verdict ρ)} {result : ρ} (hgiven : Verdict.given result ∈ l) :
    firstResult l = some result ↔
      ∀ i : ℕ, (∃ v : Verdict ρ, l[i]? = some v ∧ v.Stops result) → ∃ j < i, l[j]? = some (Verdict.given result) := by
  induction l with
  | nil => cases hgiven
  | cons v l ih =>
    have hskip : v ≠ Verdict.given result → ¬v.Stops result → firstResult (v :: l) = firstResult l →
        (firstResult (v :: l) = some result ↔ ∀ i : ℕ, (∃ w : Verdict ρ, (v :: l)[i]? = some w ∧ w.Stops result) →
          ∃ j < i, (v :: l)[j]? = some (Verdict.given result)) := by
      intro hne hfree hrest
      have htail : Verdict.given result ∈ l := (List.mem_cons.mp hgiven).resolve_left (Ne.symm hne)
      rw [hrest, ih htail]
      constructor
      · intro h i hi
        cases i with
        | zero =>
          obtain ⟨w, hw, hblocks⟩ := hi
          rw [List.getElem?_cons_zero] at hw
          cases hw
          exact absurd hblocks hfree
        | succ i =>
          rw [List.getElem?_cons_succ] at hi
          obtain ⟨j, hj, hat⟩ := h i hi
          exact ⟨j + 1, by omega, by rw [List.getElem?_cons_succ]; exact hat⟩
      · intro h i hi
        obtain ⟨j, hj, hat⟩ := h (i + 1) (by rw [List.getElem?_cons_succ]; exact hi)
        cases j with
        | zero =>
          rw [List.getElem?_cons_zero] at hat
          exact absurd (Option.some.inj hat) hne
        | succ j =>
          rw [List.getElem?_cons_succ] at hat
          exact ⟨j, by omega, hat⟩
    have hfirst : v.Stops result → ¬∀ i : ℕ, (∃ w : Verdict ρ, (v :: l)[i]? = some w ∧ w.Stops result) →
        ∃ j < i, (v :: l)[j]? = some (Verdict.given result) := by
      intro hblocks h
      obtain ⟨j, hj, -⟩ := h 0 ⟨v, rfl, hblocks⟩
      exact absurd hj (Nat.not_lt_zero j)
    cases v with
    | skipped => exact hskip nofun (by rintro (h | ⟨_, _, h⟩) <;> cases h) rfl
    | refused => exact hskip nofun (by rintro (h | ⟨_, _, h⟩) <;> cases h) rfl
    | missing => exact ⟨nofun, fun h => absurd h (hfirst (Or.inl rfl))⟩
    | given other =>
      rw [firstResult]
      by_cases hother : other = result
      · subst hother
        refine ⟨fun _ i hi => ?_, fun _ => rfl⟩
        cases i with
        | zero =>
          obtain ⟨w, hw, hblocks⟩ := hi
          rw [List.getElem?_cons_zero] at hw
          cases hw
          rcases hblocks with h | ⟨other, hne, h⟩
          · cases h
          · cases h
            exact absurd rfl hne
        | succ i => exact ⟨0, Nat.succ_pos i, rfl⟩
      · exact ⟨fun h => absurd (Option.some.inj h) hother, fun h => absurd h (hfirst (Or.inr ⟨other, hother, rfl⟩))⟩

variable {e : ID × SMetadata β}

theorem findBlock_own {i Index : ℕ} (hi : x.entries[i]? = some e) {block : β}
    (hb : e.2.blocks Index = some block) (hne : r.isEmpty block = false) : findBlock r x i Index = some block := by
  obtain ⟨hlt, -⟩ := List.getElem?_eq_some_iff.mp hi
  obtain ⟨n, hn⟩ : ∃ n, x.entries.length = n + 1 := ⟨x.entries.length - 1, by omega⟩
  unfold findBlock
  rw [hn, List.range_succ_eq_map, List.findSome?_cons, Nat.add_zero, ← hn, Nat.mod_eq_of_lt hlt, hi,
    Option.bind_some, hb, Option.filter_some, hne, Bool.not_false, if_pos rfl]

/-- If the peer has all blocks, they are those that are assembled. -/
theorem findBlocks_own {i : ℕ} (hi : x.entries[i]? = some e) {blocks : List β}
    (hne : ∀ block ∈ blocks, r.isEmpty block = false) (Index : ℕ)
    (hb : ∀ k (hk : k < blocks.length), e.2.blocks ((Index + k : ℕ) : ℤ) = some blocks[k]) :
    findBlocks r x i Index blocks.length = some blocks := by
  induction blocks generalizing Index with
  | nil => rfl
  | cons block rest ih =>
    have hfirst := hb 0 (Nat.succ_pos _)
    rw [Nat.add_zero, List.getElem_cons_zero] at hfirst
    have hrest := ih (fun b hm => hne b (List.mem_cons_of_mem _ hm)) (Index + 1) fun k hk => by
      have hnext := hb (k + 1) (Nat.succ_lt_succ hk)
      rw [List.getElem_cons_succ] at hnext
      rw [← hnext, Nat.add_assoc, Nat.add_comm 1 k]
    rw [List.length_cons, findBlocks, findBlock_own hi hfirst (hne block List.mem_cons_self),
      Option.bind_some, hrest, Option.map_some]

/-- The true metadata. -/
structure Truth (r : Rules β ρ) where
  /-- Its size. -/
  size : ℕ
  /-- Its blocks. -/
  blocks : List β
  /-- What it gives. -/
  result : ρ
  /-- It has a size. -/
  size_ne : size ≠ 0 ∧ size ≠ minusOne
  /-- There are as many blocks as the size says. -/
  count : r.takeCount size = blocks.length
  /-- No block is empty. -/
  nonempty : ∀ block ∈ blocks, r.isEmpty block = false
  /-- The blocks are right. -/
  judged : r.judge blocks = some result

/-- A peer that has all blocks. -/
def Has (t : Truth r) (e : SMetadata β) : Prop :=
  e.size = t.size ∧ ∀ k (hk : k < t.blocks.length), e.blocks k = some t.blocks[k]

/-- The metadata is given for a peer that has all blocks. -/
theorem given_of_has (t : Truth r) (hm : e ∈ x.entries) (h : Has t e.2) :
    Verdict.given t.result ∈ (List.range x.entries.length).map (verdict r x) := by
  obtain ⟨i, hi⟩ := List.mem_iff_getElem?.mp hm
  obtain ⟨hlt, -⟩ := List.getElem?_eq_some_iff.mp hi
  refine List.mem_map.mpr ⟨i, List.mem_range.mpr hlt, ?_⟩
  have hblocks := findBlocks_own hi t.nonempty 0 fun k hk => by
    rw [Nat.zero_add]
    exact h.2 k hk
  unfold verdict
  rw [hi]
  dsimp only
  rw [h.1, if_neg (not_or.mpr t.size_ne), t.count, hblocks]
  dsimp only
  rw [t.judged]

theorem getElem?_verdicts (i : ℕ) : ((List.range x.entries.length).map (verdict r x))[i]? =
      if i < x.entries.length then some (verdict r x i) else none := by
  rw [List.getElem?_map]
  split_ifs with hlt
  · rw [List.getElem?_range hlt, Option.map_some]
  · rw [List.getElem?_eq_none (by rw [List.length_range]; omega), Option.map_none]

end Assembly

section Runs

variable {ID β ρ : Type*} [LinearOrder ID] {r : Rules β ρ}

theorem metadata_insert_self (x : SMetadataExchange ID β) (id : ID) (e : SMetadata β) :
    metadata (x.insert id e) id = e := by
  rw [metadata, OrderedMap.get_insert_self, Option.getD_some]

theorem metadata_insert_of_ne (x : SMetadataExchange ID β) {id other : ID} (e : SMetadata β)
    (h : other ≠ id) : metadata (x.insert id e) other = metadata x other := by
  rw [metadata, metadata, OrderedMap.get_insert_of_ne x e h]

/-- A block that is picked is among those asked for, was not asked for before, and there are not fewer
copies of any other such block. Nothing is picked if all were asked for. -/
theorem pick_spec (x : SMetadataExchange ID β) (id : ID) (n : ℕ) :
    match pick x id n with
    | none => ∀ j < n, ((metadata x id).blocks j).isSome = true
    | some i => i < n ∧ ((metadata x id).blocks i).isSome = false ∧
        ∀ j < n, ((metadata x id).blocks j).isSome = false → copies x i ≤ copies x j := by
  induction n with
  | zero => exact fun j hj => absurd hj (Nat.not_lt_zero j)
  | succ n ih =>
    have hstep : pick x id (n + 1) = if ((metadata x id).blocks n).isSome then pick x id n
        else match pick x id n with
          | none => some n
          | some b => if copies x n < copies x b then some n else some b := by
      rw [pick, List.range_succ, List.foldl_append]
      rfl
    rw [hstep]
    by_cases hhas : ((metadata x id).blocks n).isSome = true
    · rw [if_pos hhas]
      cases hpick : pick x id n with
      | none =>
        rw [hpick] at ih
        intro j hj
        rcases Nat.lt_succ_iff_lt_or_eq.mp hj with hlt | rfl
        · exact ih j hlt
        · exact hhas
      | some b =>
        rw [hpick] at ih
        obtain ⟨hlt, hfree, hmin⟩ := ih
        refine ⟨by omega, hfree, fun j hj hj' => ?_⟩
        rcases Nat.lt_succ_iff_lt_or_eq.mp hj with hlt | rfl
        · exact hmin j hlt hj'
        · rw [hhas] at hj'
          cases hj'
    · rw [if_neg hhas]
      cases hpick : pick x id n with
      | none =>
        rw [hpick] at ih
        refine ⟨Nat.lt_succ_self n, Bool.eq_false_of_not_eq_true hhas, fun j hj hj' => ?_⟩
        rcases Nat.lt_succ_iff_lt_or_eq.mp hj with hlt | rfl
        · rw [ih j hlt] at hj'
          cases hj'
        · exact le_rfl
      | some b =>
        rw [hpick] at ih
        obtain ⟨hlt, hfree, hmin⟩ := ih
        dsimp only
        split_ifs with hfewer
        · refine ⟨Nat.lt_succ_self n, Bool.eq_false_of_not_eq_true hhas, fun j hj hj' => ?_⟩
          rcases Nat.lt_succ_iff_lt_or_eq.mp hj with hlt' | rfl
          · exact hfewer.le.trans (hmin j hlt' hj')
          · exact le_rfl
        · refine ⟨by omega, hfree, fun j hj hj' => ?_⟩
          rcases Nat.lt_succ_iff_lt_or_eq.mp hj with hlt' | rfl
          · exact hmin j hlt' hj'
          · exact not_lt.mp hfewer

/-- A message about metadata. -/
inductive Message (ID β : Type*) where
  /-- A block, with the size that the peer claims. -/
  | block (id : ID) (Index : ℤ) (block : β) (size : ℕ)
  /-- A rejected request. -/
  | reject (id : ID)

/-- The peer that has sent a message. -/
def Message.sender : Message ID β → ID
  | Message.block id _ _ _ => id
  | Message.reject id => id

/-- `ProcessMetadata`. -/
def receive (x : SMetadataExchange ID β) : Message ID β → SMetadataExchange ID β
  | Message.block id Index block size => addMetadataBlock x Index block size id
  | Message.reject id => resetMetadataBlock x id

/-- The exchanges that can come about, with the messages since they were created. Messages that come
without an exchange are ignored. -/
inductive Reached (r : Rules β ρ) : Option (SMetadataExchange ID β) → List (Message ID β) → Prop where
  /-- At first there is no exchange. -/
  | start : Reached r none []
  /-- A peer is asked for a block. -/
  | ask {exchange : Option (SMetadataExchange ID β)} {messages : List (Message ID β)} (id : ID) :
    Reached r exchange messages → Reached r (some (nextMetadataBlock r exchange id).2) messages
  /-- A message comes. -/
  | message {x : SMetadataExchange ID β} {messages : List (Message ID β)} (m : Message ID β) :
    Reached r (some x) messages → Reached r (some (receive x m)) (messages ++ [m])
  /-- The metadata is installed. -/
  | install {x : SMetadataExchange ID β} {messages : List (Message ID β)} {result : ρ} :
    Reached r (some x) messages → tryAssemblyMetadata r x = some result → Reached r none []

/-- A block of the true metadata. -/
def Right (t : Truth r) : Message ID β → Prop
  | Message.block _ Index block size =>
    size = t.size ∧ 0 ≤ Index ∧ t.blocks[Index.toNat]? = some block
  | Message.reject _ => False

/-- A peer has sent all blocks of the true metadata, and nothing else. -/
def Supplied (t : Truth r) (messages : List (Message ID β)) (id : ID) : Prop :=
  (∀ m ∈ messages, m.sender = id → Right t m) ∧
    ∀ k (hk : k < t.blocks.length), Message.block id k t.blocks[k] t.size ∈ messages

/-- What is kept of a peer that has sent nothing but the truth. -/
structure Kept (t : Truth r) (messages : List (Message ID β)) (id : ID) (e : SMetadata β) : Prop where
  /-- Its size is known once it has sent something. -/
  size : (∃ m ∈ messages, m.sender = id) → e.size = t.size
  /-- Before that it is not. -/
  silent : (∀ m ∈ messages, m.sender ≠ id) → e.size = 0
  /-- Its blocks are there. -/
  blocks : ∀ k (hk : k < t.blocks.length), Message.block id k t.blocks[k] t.size ∈ messages →
    e.blocks k = some t.blocks[k]

variable {messages : List (Message ID β)} (t : Truth r)

/-- Asking a peer keeps what it has sent. -/
theorem kept_ask {exchange : Option (SMetadataExchange ID β)} {id : ID} (asked : ID)
    (h : Kept t messages id (metadata (exchange.getD OrderedMap.empty) id)) :
    Kept t messages id (metadata (nextMetadataBlock r exchange asked).2 id) := by
  unfold nextMetadataBlock
  dsimp only
  generalize exchange.getD OrderedMap.empty = x at h ⊢
  have hentry : metadata (x.insert asked (metadata x asked)) id = metadata x id := by
    by_cases hid : id = asked
    · rw [hid, metadata_insert_self]
    · exact metadata_insert_of_ne x _ hid
  rw [← hentry] at h
  generalize x.insert asked (metadata x asked) = y at h ⊢
  have hpick := pick_spec y asked (r.askCount (askedSize y asked))
  split_ifs with hrejected
  · exact h
  · cases hi : pick y asked (r.askCount (askedSize y asked)) with
    | none => exact h
    | some i =>
      rw [hi] at hpick
      obtain ⟨-, hfree, -⟩ := hpick
      dsimp only
      by_cases hid : id = asked
      · subst hid
        rw [metadata_insert_self]
        refine ⟨h.size, h.silent, fun k hk hm => ?_⟩
        have hkept := h.blocks k hk hm
        have hne : (k : ℤ) ≠ i := by
          intro heq
          rw [← heq, hkept] at hfree
          cases hfree
        dsimp only
        rw [Function.update_of_ne hne, hkept]
      · rw [metadata_insert_of_ne y _ hid]
        exact h

/-- A message keeps what a peer has sent, and a right one of the peer is kept. -/
theorem kept_receive {x : SMetadataExchange ID β} {id : ID}
    (m : Message ID β) (hm : m.sender = id → Right t m) (h : Kept t messages id (metadata x id)) :
    Kept t (messages ++ [m]) id (metadata (receive x m) id) := by
  by_cases hid : m.sender = id
  · cases m with
    | reject _ => exact (hm hid).elim
    | block sender Index block size =>
      obtain ⟨rfl, hge, hat⟩ := hm hid
      change sender = id at hid
      subst hid
      have hsize : (metadata x sender).size = 0 ∨ (metadata x sender).size = t.size := by
        by_cases hsent : ∃ m ∈ messages, m.sender = sender
        · exact Or.inr (h.size hsent)
        · exact Or.inl (h.silent fun m hmem heq => hsent ⟨m, hmem, heq⟩)
      rw [receive, addMetadataBlock, metadata_insert_self]
      refine ⟨fun _ => ?_, fun hnone => ?_, fun k hk hmem => ?_⟩
      · dsimp only
        rcases hsize with hzero | hknown
        · rw [if_pos hzero]
        · rw [if_neg (by rw [hknown]; exact t.size_ne.1), hknown]
      · exact absurd rfl (hnone _ (List.mem_append_right _ (List.mem_singleton_self _)))
      · dsimp only
        by_cases hk' : (k : ℤ) = Index
        · subst hk'
          rw [Int.toNat_natCast, List.getElem?_eq_getElem hk] at hat
          rw [Function.update_self, hat]
        · rw [Function.update_of_ne hk']
          refine h.blocks k hk ((List.mem_append.mp hmem).resolve_right fun hlast => hk' ?_)
          rw [List.mem_singleton] at hlast
          injection hlast
  · have hentry : metadata (receive x m) id = metadata x id := by
      cases m with
      | block sender Index block size => exact metadata_insert_of_ne x _ (Ne.symm hid)
      | reject sender => exact metadata_insert_of_ne x _ (Ne.symm hid)
    rw [hentry]
    refine ⟨fun hsent => h.size ?_, fun hnone => h.silent fun m' hmem =>
      hnone m' (List.mem_append_left _ hmem), fun k hk hmem => h.blocks k hk ?_⟩
    · obtain ⟨m', hmem, heq⟩ := hsent
      refine ⟨m', (List.mem_append.mp hmem).resolve_right fun hlast => hid ?_, heq⟩
      rw [← List.mem_singleton.mp hlast]
      exact heq
    · refine (List.mem_append.mp hmem).resolve_right fun hlast => hid ?_
      rw [← List.mem_singleton.mp hlast]
      rfl

/-- What a peer that sends nothing but the truth has sent is kept. -/
theorem kept_of_reached {exchange : Option (SMetadataExchange ID β)} (h : Reached r exchange messages) {id : ID}
    (hright : ∀ m ∈ messages, m.sender = id → Right t m) :
    Kept t messages id (metadata (exchange.getD OrderedMap.empty) id) := by
  have hempty : Kept t [] id (metadata (OrderedMap.empty : SMetadataExchange ID β) id) :=
    ⟨fun ⟨m, hm, _⟩ => absurd hm List.not_mem_nil, fun _ => rfl, fun k hk hm => absurd hm List.not_mem_nil⟩
  induction h with
  | start => exact hempty
  | ask asked _ ih => exact kept_ask t asked (ih hright)
  | message m _ ih =>
    exact kept_receive t m (hright m (List.mem_append_right _ (List.mem_singleton_self m)))
      (ih fun m' hm => hright m' (List.mem_append_left _ hm))
  | install _ _ _ => exact hempty

/-- A peer that has supplied the metadata has all blocks. -/
theorem has_of_supplied (hblocks : t.blocks ≠ []) {x : SMetadataExchange ID β} (h : Reached r (some x) messages)
    {id : ID} (hs : Supplied t messages id) : ∃ e, (id, e) ∈ x.entries ∧ Has t e := by
  have hkept := kept_of_reached t h hs.1
  rw [Option.getD_some] at hkept
  have hpos : 0 < t.blocks.length := List.length_pos_iff.mpr hblocks
  have hfirst := hkept.blocks 0 hpos (hs.2 0 hpos)
  cases hget : x.get id with
  | none =>
    rw [metadata, hget] at hfirst
    cases hfirst
  | some e =>
    rw [metadata, hget, Option.getD_some] at hkept
    exact ⟨e, OrderedMap.get_eq_some.mp hget, hkept.size ⟨_, hs.2 0 hpos, rfl⟩,
      fun k hk => hkept.blocks k hk (hs.2 k hk)⟩

end Runs

section Majority

variable {ID β ρ : Type*} [LinearOrder ID]

/-- No size is claimed by more peers. -/
def MostClaimed (x : SMetadataExchange ID β) (size : ℕ) : Prop :=
  ∀ s, (claims x).count s ≤ (claims x).count size

/-- The largest of some numbers. -/
def largest (l : List ℕ) : ℕ := l.foldr max 0

theorem le_largest {l : List ℕ} {n : ℕ} (h : n ∈ l) : n ≤ largest l := by
  induction l with
  | nil => cases h
  | cons a l ih =>
    rw [largest, List.foldr_cons]
    rcases List.mem_cons.mp h with rfl | h
    · exact le_max_left _ _
    · exact (ih h).trans (le_max_right _ _)

/-- The largest of some numbers is one of them. -/
theorem largest_mem {l : List ℕ} (h : l ≠ []) : largest l ∈ l := by
  induction l with
  | nil => exact absurd rfl h
  | cons a l ih =>
    rw [largest, List.foldr_cons]
    rcases max_choice a (largest l) with hmax | hmax
    · exact List.mem_cons.mpr (Or.inl hmax)
    · by_cases hl : l = []
      · subst hl
        exact List.mem_cons.mpr (Or.inl (max_eq_left (Nat.zero_le _)))
      · exact List.mem_cons.mpr (Or.inr (by rw [largest] at hmax; rw [hmax]; exact ih hl))

/-- The sizes that are counted are those claimed. -/
theorem hasKey_claimCounts (x : SMetadataExchange ID β) (s : ℕ) : (claimCounts x).HasKey s ↔ s ∈ claims x := by
  have hfold : ∀ (l : List ℕ) (m : OrderedMap ℕ ℕ),
      (l.foldl (fun Map s => Map.insert s ((Map.get s).getD 0 + 1)) m).HasKey s ↔ s ∈ l ∨ m.HasKey s := by
    intro l
    induction l with
    | nil => exact fun m => ⟨Or.inr, fun h => h.resolve_left List.not_mem_nil⟩
    | cons a l ih =>
      intro m
      rw [List.foldl_cons, ih, OrderedMap.hasKey_insert, List.mem_cons]
      exact ⟨fun h => by tauto, fun h => by tauto⟩
  rw [claimCounts, hfold]
  refine or_iff_left ?_
  rintro ⟨e, he, -⟩
  exact List.not_mem_nil he

/-- The last size that is counted is the largest one, however often it is claimed. -/
theorem consensus_eq {x : SMetadataExchange ID β} (h : claims x ≠ []) : consensus x = largest (claims x) := by
  obtain ⟨e, he, hkey⟩ := (hasKey_claimCounts x _).mpr (largest_mem h)
  have hne : (claimCounts x).entries ≠ [] := List.ne_nil_of_mem he
  have hlast := List.getLast_mem hne
  have hsorted := (claimCounts x).sorted
  rw [← List.dropLast_concat_getLast hne, List.pairwise_append] at hsorted
  have hle : e.1 ≤ ((claimCounts x).entries.getLast hne).1 := by
    rw [← List.dropLast_concat_getLast hne, List.mem_append] at he
    rcases he with he | he
    · exact (hsorted.2.2 e he _ (List.mem_singleton_self _)).le
    · rw [List.mem_singleton.mp he]
  have hclaimed : ((claimCounts x).entries.getLast hne).1 ∈ claims x :=
    (hasKey_claimCounts x _).mp ⟨_, hlast, rfl⟩
  rw [consensus, List.getLast?_eq_some_getLast hne, Option.map_some, Option.getD_some]
  exact le_antisymm (le_largest hclaimed) (hkey ▸ hle)

end Majority

section Correctness

variable {ID β ρ : Type*} [LinearOrder ID] {r : Rules β ρ}

/-- The exchange does what it should: what is assembled is good, the metadata is assembled once a peer has
supplied it, and a peer is asked for blocks of the size that most peers claim. -/
structure Correct (t : Truth r) (good : ρ → Prop) (assembled : Option ρ) (x : SMetadataExchange ID β)
    (messages : List (Message ID β)) : Prop where
  /-- What is assembled is good. -/
  sound : ∀ result, assembled = some result → good result
  /-- Metadata that a peer has supplied is assembled. -/
  complete : (∃ id, Supplied t messages id) → assembled = some t.result
  /-- The size that is asked for is one that most peers claim. -/
  majority : ∀ id, claims x ≠ [] → (metadata x id).size ≠ minusOne → MostClaimed x (askedSize x id)

/-- Once a peer has supplied the metadata, nothing is waited for, and each peer that claims a block nobody
has, or other metadata with the known hash, comes behind one whose blocks are right. A size that is asked
for, be it the one that the peer claims or else the largest, is one that most peers claim. -/
structure Fits (t : Truth r) (ready : Bool) (x : SMetadataExchange ID β)
    (messages : List (Message ID β)) : Prop where
  /-- Nothing is waited for. -/
  ready : (∃ id, Supplied t messages id) → ready = true
  /-- No peer stops the assembly before the metadata is found. -/
  unblocked : (∃ id, Supplied t messages id) → ∀ i < x.entries.length,
    (verdict r x i).Stops t.result → ∃ j < i, verdict r x j = Verdict.given t.result
  /-- The size is one that most peers claim. -/
  claimed : ∀ id, claims x ≠ [] → (metadata x id).size ≠ minusOne →
    MostClaimed x (if (metadata x id).size = 0 then largest (claims x) else (metadata x id).size)

/-- What is assembled is made of right blocks. -/
theorem judge_of_assembled {x : SMetadataExchange ID β} {result : ρ}
    (h : tryAssemblyMetadata r x = some result) : ∃ blocks, r.judge blocks = some result := by
  obtain ⟨i, -, hi⟩ := List.mem_map.mp (firstResult_mem h)
  unfold verdict at hi
  split at hi
  · cases hi
  · split_ifs at hi
    split at hi
    · cases hi
    · split at hi
      · cases hi
      · cases hi
        exact ⟨_, by assumption⟩

/-- The exchange does what it should if and only if the condition holds. -/
theorem correct_iff (t : Truth r) (hblocks : t.blocks ≠ []) {good : ρ → Prop}
    (hgood : ∀ blocks result, r.judge blocks = some result → good result) (ready : Bool)
    {x : SMetadataExchange ID β} {messages : List (Message ID β)} (h : Reached r (some x) messages) :
    Correct t good (if ready then tryAssemblyMetadata r x else none) x messages ↔
      Fits t ready x messages := by
  have hsize : ∀ id, claims x ≠ [] → askedSize x id =
      if (metadata x id).size = 0 then largest (claims x) else (metadata x id).size := fun id hne => by
    rw [askedSize, consensus_eq hne]
  have hassembled : (∃ id, Supplied t messages id) → (tryAssemblyMetadata r x = some t.result ↔
      ∀ i < x.entries.length, (verdict r x i).Stops t.result → ∃ j < i, verdict r x j = Verdict.given t.result) := by
    rintro ⟨id, hs⟩
    obtain ⟨e, hm, hhas⟩ := has_of_supplied t hblocks h hs
    have hiff := firstResult_iff (given_of_has t hm hhas)
    simp only [getElem?_verdicts] at hiff
    rw [tryAssemblyMetadata, hiff]
    constructor
    · intro hall i hi hstops
      obtain ⟨j, hj, hat⟩ := hall i ⟨_, if_pos hi, hstops⟩
      rw [if_pos (hj.trans hi)] at hat
      exact ⟨j, hj, Option.some.inj hat⟩
    · rintro hall i ⟨v, hv, hstops⟩
      split_ifs at hv with hi
      rw [← Option.some.inj hv] at hstops
      obtain ⟨j, hj, hat⟩ := hall i hi hstops
      exact ⟨j, hj, by rw [if_pos (hj.trans hi), hat]⟩
  constructor
  · intro hc
    have hready : (∃ id, Supplied t messages id) → ready = true := by
      intro hs
      have hcomplete := hc.complete hs
      split_ifs at hcomplete with hready
      exact hready
    refine ⟨hready, fun hs => (hassembled hs).mp ?_, fun id hne hsent => ?_⟩
    · have hcomplete := hc.complete hs
      rw [if_pos (hready hs)] at hcomplete
      exact hcomplete
    · rw [← hsize id hne]
      exact hc.majority id hne hsent
  · intro hf
    refine ⟨fun result hresult => ?_, fun hs => ?_, fun id hne hsent => ?_⟩
    · split_ifs at hresult
      obtain ⟨blocks, hjudge⟩ := judge_of_assembled hresult
      exact hgood blocks result hjudge
    · rw [if_pos (hf.ready hs)]
      exact (hassembled hs).mpr (hf.unblocked hs)
    · rw [hsize id hne]
      exact hf.claimed id hne hsent

end Correctness

section Truths

variable {α : Type*} [DecidableEq α]

/-- `CTorrentInfo::GetMetadataBlock`. -/
def getMetadataBlock (metadata : List UInt8) (Index : ℕ) : List UInt8 :=
  (metadata.drop (Index * 16384)).take 16384

/-- The blocks of a torrent's metadata. -/
def metadataBlocks (metadata : List UInt8) : List (List UInt8) :=
  (List.range (divUp metadata.length 16384)).map (getMetadataBlock metadata)

/-- The blocks in a row are the metadata. -/
theorem flatten_metadataBlocks (metadata : List UInt8) : (metadataBlocks metadata).flatten = metadata := by
  have htake : ∀ n, ((List.range n).map (getMetadataBlock metadata)).flatten = metadata.take (n * 16384) := by
    intro n
    induction n with
    | zero => rw [Nat.zero_mul, List.take_zero, List.range_zero, List.map_nil, List.flatten_nil]
    | succ n ih =>
      rw [List.range_succ, List.map_append, List.flatten_append, ih, List.map_singleton,
        List.flatten_singleton, getMetadataBlock, Nat.add_mul, Nat.one_mul, List.take_add]
  rw [metadataBlocks, htake]
  refine List.take_of_length_le ?_
  rcases Nat.eq_zero_or_pos metadata.length with hzero | hpos
  · omega
  · obtain ⟨c, hc, -, hle⟩ := divUp_spec hpos (show 0 < 16384 by decide)
    rw [hc]
    exact hle

/-- The number of blocks that a torrent's metadata has. -/
theorem getMetadataBlockCount_eq {size : ℕ} (hpos : 0 < size) (hlt : size < 2 ^ 31) :
    (getMetadataBlockCount size).toNat = divUp size 16384 := by
  have hdiv := Nat.div_add_mod' size 16384
  have hmod := Nat.mod_lt size (show 0 < 16384 by decide)
  rw [getMetadataBlockCount, toInt_eq (by omega)]
  by_cases hrest : size % 16384 = 0
  · obtain ⟨c, hc⟩ : ∃ c, size / 16384 = c + 1 := ⟨size / 16384 - 1, by omega⟩
    rw [divUp_eq (c := c) (by omega) (by omega), hc, if_neg (not_not.mpr hrest)]
    rfl
  · rw [divUp_eq (c := size / 16384) (by omega) (by omega), if_pos hrest]
    rfl

/-- The metadata of a torrent. -/
def torrentTruth (sha1 : List UInt8 → α) (metadata : List UInt8) (hne : metadata ≠ [])
    (hlt : metadata.length < 2 ^ 31) : Truth (torrentRules sha1 (sha1 metadata)) where
  size := metadata.length
  blocks := metadataBlocks metadata
  result := metadata
  size_ne := ⟨fun hzero => hne (List.length_eq_zero_iff.mp hzero), by
    have hmax : minusOne = 2 ^ 64 - 1 := rfl
    omega⟩
  count := by
    rw [metadataBlocks, List.length_map, List.length_range]
    exact getMetadataBlockCount_eq (List.length_pos_iff.mpr hne) hlt
  nonempty := fun block hm => by
    obtain ⟨i, hi, rfl⟩ := List.mem_map.mp hm
    obtain ⟨c, hc, hgt, -⟩ := divUp_spec (List.length_pos_iff.mpr hne) (show 0 < 16384 by decide)
    rw [List.mem_range, hc] at hi
    have hmul := Nat.mul_le_mul_right 16384 (show i ≤ c by omega)
    change List.isEmpty _ = false
    rw [List.isEmpty_eq_false_iff, ← List.length_pos_iff, getMetadataBlock, List.length_take, List.length_drop]
    omega
  judged := by
    rw [torrentRules]
    dsimp only
    rw [flatten_metadataBlocks, if_pos rfl]

/-- The metadata of a Neo file. -/
def neoTruth {μ : Type*} (readHashMap : Option μ → ℕ → List CFileHash) (hashMetaData : List UInt8 → α)
    (Entrys : List (QVariantMap μ)) (hne : Entrys ≠ []) (hlt : Entrys.length < 2 ^ 31)
    (hentries : ∀ Entry ∈ Entrys, Entry.isEmpty = false) :
    Truth (neoRules readHashMap hashMetaData (hashMetaData (metaData (Entrys.map (readSubFile readHashMap))))
      (((Entrys.map (readSubFile readHashMap)).map SSubFile.FileSize).sum % 2 ^ 64)) where
  size := Entrys.length
  blocks := Entrys
  result := Entrys.map (readSubFile readHashMap)
  size_ne := ⟨fun hzero => hne (List.length_eq_zero_iff.mp hzero), by
    have hmax : minusOne = 2 ^ 64 - 1 := rfl
    omega⟩
  count := by
    change (BitVec.ofNat 64 Entrys.length).toInt.toNat = Entrys.length
    rw [BitVec.toInt_eq_toNat_of_lt (by rw [BitVec.toNat_ofNat]; omega), BitVec.toNat_ofNat]
    omega
  nonempty := hentries
  judged := by
    rw [neoRules]
    dsimp only
    rw [if_neg (not_not.mpr rfl), if_neg (not_not.mpr rfl)]

theorem oneByte_ne : ([7] : List UInt8) ≠ [] ∧ ([7] : List UInt8).length < 2 ^ 31 := by decide

/-- A Neo file of one sub-file. -/
def oneEntry : List (QVariantMap Unit) := [⟨some "a", some 5, none, none, []⟩]

/-- A peer that claims a size of two blocks and sends one of them. -/
def oneOfTwo : Message ℕ (List UInt8) := Message.block 1 0 [9] 20000

/-- A peer that sends the only block. -/
def onlyBlock : Message ℕ (List UInt8) := Message.block 2 0 [7] 1

/-- The exchange with both peers. -/
def bothPeers : SMetadataExchange ℕ (List UInt8) :=
  receive (nextMetadataBlock (torrentRules (fun bytes => bytes) [7]) (some (receive
    (nextMetadataBlock (torrentRules (fun bytes => bytes) [7]) none 1).2 oneOfTwo)) 2).2 onlyBlock

end Truths

end NeoLoader.MetadataExchange
