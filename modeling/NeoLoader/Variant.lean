import Mathlib.Data.List.TakeWhile
import NeoLoader.ByteReader
import NeoLoader.KeyMapTotals

/-!
# Variants in packets

A variant has a type and a payload, which of a map or a list are its children. A packet has the type
together with the form of the length, the length, and the payload, packed if that made it shorter. What
was read from a packet keeps its payload, whose children are parsed when they are asked for. Unpacking
tries larger and larger buffers, and gives up at some size.
-/

namespace NeoLoader.Variant

open ByteReader KeyMap

/-- Bytes, as of a string. -/
abbrev Bytes := List UInt8

section Types

/-- `EExtended`: a map with extensions. -/
def eExtended : ℕ := 0

def eMap : ℕ := 1

def eList : ℕ := 2

inductive CVariant where
  /-- A value that can be changed, and is no container. -/
  | raw (type : ℕ) (payload : Bytes)
  /-- A map that can be changed, extended or not, in the order of its keys. -/
  | map (extended : Bool) (entries : List (Bytes × CVariant))
  /-- A list that can be changed. -/
  | list (items : List CVariant)
  /-- A value that was read, `eReadOnly` or `eDerived`. -/
  | packet (type : ℕ) (payload : Bytes)
  /-- A value that could not be unpacked: it has the size of what was packed, and no payload. -/
  | damaged (type size : ℕ)

/-- The type without the form of a length. -/
def CVariant.type : CVariant → ℕ
  | .raw type _ => type
  | .map extended _ => if extended then eExtended else eMap
  | .list _ => eList
  | .packet type _ => type
  | .damaged type _ => type

/-- What zlib says. -/
inductive Inflated where
  /-- `Z_OK`. -/
  | ok (bytes : Bytes)
  /-- `Z_BUF_ERROR`: the buffer is too small. -/
  | bufError
  /-- Any other error. -/
  | dataError
  deriving DecidableEq

/-- zlib. -/
structure Zlib where
  /-- `compress2`, missing if it fails. -/
  compress2 : Bytes → Option Bytes
  /-- `uncompress` into a buffer of some size. -/
  uncompress : ℕ → Bytes → Inflated

/-- What was compressed is uncompressed into any buffer in which it has room. -/
def Zlib.Correct (z : Zlib) : Prop :=
  ∀ bytes packed, z.compress2 bytes = some packed → ∀ n,
    z.uncompress n packed = if bytes.length ≤ n then Inflated.ok bytes else Inflated.bufError

end Types

section Packets

/-- Bytes of a length, by the two bits of its form: `ELen8`, `ELen16` or others. -/
def lengthBytes (form : ℕ) : ℕ := if form = 1 then 1 else if form = 2 then 2 else 4

/-- The form of a length. -/
def lengthForm (uLength : ℕ) (bPack : Bool) : ℕ :=
  if uLength ≥ 65535 ∨ bPack then 3 else if uLength ≥ 255 then 2 else 1

/-- A payload that is not packed, behind its type and its length. -/
def plainPacket (type : ℕ) (bPack : Bool) (Payload : Bytes) : Bytes :=
  littleEndian 1 (type + 64 * lengthForm Payload.length bPack) ++
    littleEndian (lengthBytes (lengthForm Payload.length bPack)) Payload.length ++ Payload

/-- A payload that is packed, behind its type and its length. -/
def packedPacket (type : ℕ) (Buffer : Bytes) : Bytes :=
  littleEndian 1 type ++ littleEndian 4 Buffer.length ++ Buffer

mutual

/-- `SVariant::MkPayload`. -/
def CVariant.payload : CVariant → Bytes
  | .raw _ payload => payload
  | .map _ entries => payloadEntries entries
  | .list items => payloadItems items
  | .packet _ payload => payload
  | .damaged _ _ => []

/-- `SVariant::MkPayload` of a map. -/
def payloadEntries : List (Bytes × CVariant) → Bytes
  | [] => []
  | (sKey, v) :: entries =>
    littleEndian 1 sKey.length ++ sKey.take (sKey.length % 256) ++
      plainPacket v.type false v.payload ++ payloadEntries entries

/-- `SVariant::MkPayload` of a list. -/
def payloadItems : List CVariant → Bytes
  | [] => []
  | v :: items => plainPacket v.type false v.payload ++ payloadItems items

end

/-- `CVariant::ToPacket`. -/
def toPacket (z : Zlib) (bPack : Bool) (v : CVariant) : Bytes :=
  match if bPack then z.compress2 v.payload else none with
  | some Buffer =>
    if v.payload.length > Buffer.length then packedPacket v.type Buffer
    else plainPacket v.type bPack v.payload
  | none => plainPacket v.type bPack v.payload

/-- Up to here larger buffers are tried, in 32 bits. -/
def unpackLimit (Size : ℕ) : ℕ := max (16 * 1024 * 1024) (Size * 100 % 2 ^ 32)

/-- The loop that unpacks; it does not end at a size of zero. -/
def unpackLoop (z : Zlib) (pData : Bytes) : ℕ → ℕ → Option Inflated
  | 0, _ => none
  | fuel + 1, newsize =>
    if z.uncompress newsize pData = Inflated.bufError ∧ newsize * 2 < unpackLimit pData.length then
      unpackLoop z pData fuel (newsize * 2)
    else some (z.uncompress newsize pData)

/-- The first buffer that is tried, in 32 bits. -/
def firstBuffer (Size : ℕ) : ℕ := (Size * 10 + 300) % 2 ^ 32

/-- Unpack a payload. -/
def unpack (z : Zlib) (pData : Bytes) : Option Inflated :=
  unpackLoop z pData 33 (firstBuffer pData.length)

/-- The byte with type and form, and the payload as it is in the packet. -/
def readRaw : Reader (ℕ × Bytes) := do
  let type ← readNumber 1
  let Size ← readNumber (lengthBytes (type / 64))
  let Payload ← readBytes Size
  return (type, Payload)

/-- A variant whose payload was unpacked, or not. -/
def CVariant.ofUnpacked (type : ℕ) (pData : Bytes) : Inflated → CVariant
  | .ok bytes => CVariant.packet type (bytes.take (bytes.length % 2 ^ 32))
  | _ => CVariant.damaged type pData.length

/-- `CVariant::FromPacket`. -/
def fromPacket (z : Zlib) (bDerived : Bool) : Reader CVariant := do
  let r ← readRaw
  if bDerived ∨ r.1 / 64 ≠ 0 then return CVariant.packet (r.1 % 64) r.2
  else match unpack z r.2 with
    | none => failure
    | some result => return CVariant.ofUnpacked (r.1 % 64) r.2 result

end Packets

section Trees

/-- What a variant stands for. -/
inductive Tree where
  /-- A value that is no container. -/
  | leaf (type : ℕ) (bytes : Bytes)
  /-- A map, extended or not. -/
  | map (extended : Bool) (entries : List (Bytes × Tree))
  /-- A list. -/
  | list (items : List Tree)

/-- A string up to its first zero. -/
def cString (Name : Bytes) : Bytes := Name.takeWhile (· ≠ 0)

/-- An entry is put into a map if its key is not there yet. -/
def insertNew (m : OrderedMap Bytes Tree) (entry : Bytes × Tree) : OrderedMap Bytes Tree :=
  if (m.get (cString entry.1)).isSome then m else m.insert (cString entry.1) entry.2

/-- Entries are put into a map one after the other. -/
def insertAll (entries : List (Bytes × Tree)) : List (Bytes × Tree) :=
  (entries.foldl insertNew OrderedMap.empty).entries

/-- An entry of a map: the key, and the child as it is in the packet. -/
def readEntry : Reader (Bytes × ℕ × Bytes) := do
  let Len ← readNumber 1
  let Name ← readBytes Len
  let child ← readRaw
  return (Name, child)

mutual

/-- A payload with all children: `SVariant::Map` and `SVariant::List` at every depth. -/
def parse : ℕ → ℕ → Bytes → Option Tree
  | 0, _, _ => none
  | fuel + 1, type, payload =>
    if type = eExtended ∨ type = eMap then
      (parseEntries fuel payload).map fun entries =>
        Tree.map (decide (type = eExtended)) (insertAll entries)
    else if type = eList then (parseItems fuel payload).map Tree.list
    else some (Tree.leaf type payload)

/-- The loop of `SVariant::Map`. -/
def parseEntries : ℕ → Bytes → Option (List (Bytes × Tree))
  | 0, _ => none
  | _ + 1, [] => some []
  | fuel + 1, b :: bytes => do
    let (entry, rest) ← readEntry (b :: bytes)
    let child ← parse fuel (entry.2.1 % 64) entry.2.2
    let entries ← parseEntries fuel rest
    return (entry.1, child) :: entries

/-- The loop of `SVariant::List`. -/
def parseItems : ℕ → Bytes → Option (List Tree)
  | 0, _ => none
  | _ + 1, [] => some []
  | fuel + 1, b :: bytes => do
    let (child, rest) ← readRaw (b :: bytes)
    let item ← parse fuel (child.1 % 64) child.2
    let items ← parseItems fuel rest
    return item :: items

end

mutual

/-- The tree of a variant, missing where parsing fails. -/
def CVariant.tree : CVariant → Option Tree
  | .raw type payload => some (Tree.leaf type payload)
  | .map extended entries => (treeEntries entries).map (Tree.map extended)
  | .list items => (treeItems items).map Tree.list
  | .packet type payload => parse (payload.length + 2) type payload
  | .damaged _ _ => none

/-- The trees of the values of a map. -/
def treeEntries : List (Bytes × CVariant) → Option (List (Bytes × Tree))
  | [] => some []
  | (sKey, v) :: entries => do
    let child ← v.tree
    let entries ← treeEntries entries
    return (sKey, child) :: entries

/-- The trees of the values of a list. -/
def treeItems : List CVariant → Option (List Tree)
  | [] => some []
  | v :: items => do
    let item ← v.tree
    let items ← treeItems items
    return item :: items

end

mutual

/-- A variant whose keys are strings of at most 255 bytes and whose payloads have less than `2 ^ 32`. -/
def CVariant.WellFormed : CVariant → Prop
  | .raw type payload => (eList < type ∧ type < 64) ∧ payload.length < 2 ^ 32
  | .map _ entries => (entries.map Prod.fst).Pairwise (· < ·) ∧
      (payloadEntries entries).length < 2 ^ 32 ∧ WellFormedEntries entries
  | .list items => (payloadItems items).length < 2 ^ 32 ∧ WellFormedItems items
  | .packet type payload => type < 64 ∧ payload.length < 2 ^ 32
  | .damaged _ _ => False

/-- All entries of a map are well formed. -/
def WellFormedEntries : List (Bytes × CVariant) → Prop
  | [] => True
  | (sKey, v) :: entries =>
    (sKey.length < 256 ∧ (0 : UInt8) ∉ sKey) ∧ v.WellFormed ∧ WellFormedEntries entries

/-- All values of a list are well formed. -/
def WellFormedItems : List CVariant → Prop
  | [] => True
  | v :: items => v.WellFormed ∧ WellFormedItems items

end

end Trees

section Reading

theorem readBytes_some {n : ℕ} {bytes taken rest : Bytes} (h : readBytes n bytes = some (taken, rest)) :
    bytes = taken ++ rest ∧ taken.length = n := by
  rw [readBytes] at h
  split_ifs at h with hle
  obtain ⟨rfl, rfl⟩ := Prod.mk.inj (Option.some.inj h)
  exact ⟨(List.take_append_drop n bytes).symm, by rw [List.length_take]; omega⟩

variable {bytes rest : Bytes}

theorem readNumber_some {n k : ℕ} (h : readNumber n bytes = some (k, rest)) :
    ∃ taken, bytes = taken ++ rest ∧ taken.length = n ∧ ofLittleEndian taken = k := by
  obtain ⟨⟨taken, later⟩, hread, hrest⟩ := Option.bind_eq_some_iff.mp h
  obtain ⟨hk, hlater⟩ := Prod.mk.inj (Option.some.inj hrest)
  obtain ⟨hbytes, hlength⟩ := readBytes_some hread
  exact ⟨taken, hlater ▸ hbytes, hlength, hk⟩

theorem lengthBytes_pos (form : ℕ) : 0 < lengthBytes form := by
  rw [lengthBytes]
  split_ifs <;> decide

/-- A value that was read is shorter than the packet, by two bytes or more. -/
theorem readRaw_length {r : ℕ × Bytes} (h : readRaw bytes = some (r, rest)) :
    r.2.length + rest.length + 2 ≤ bytes.length := by
  obtain ⟨⟨type, first⟩, htype, hrest⟩ := Option.bind_eq_some_iff.mp h
  obtain ⟨⟨Size, second⟩, hSize, hrest⟩ := Option.bind_eq_some_iff.mp hrest
  obtain ⟨⟨Payload, third⟩, hPayload, hrest⟩ := Option.bind_eq_some_iff.mp hrest
  obtain ⟨rfl, rfl⟩ := Prod.mk.inj (Option.some.inj hrest)
  obtain ⟨taken, rfl, hone, -⟩ := readNumber_some htype
  obtain ⟨taken', rfl, hlength, -⟩ := readNumber_some hSize
  obtain ⟨rfl, -⟩ := readBytes_some hPayload
  have hpos := lengthBytes_pos (type / 64)
  simp only [List.length_append]
  omega

/-- An entry that was read is shorter than the packet. -/
theorem readEntry_length {entry : Bytes × ℕ × Bytes}
    (h : readEntry bytes = some (entry, rest)) : entry.2.2.length + rest.length + 2 ≤ bytes.length := by
  obtain ⟨⟨Len, first⟩, hLen, hrest⟩ := Option.bind_eq_some_iff.mp h
  obtain ⟨⟨Name, second⟩, hName, hrest⟩ := Option.bind_eq_some_iff.mp hrest
  obtain ⟨⟨child, third⟩, hchild, hrest⟩ := Option.bind_eq_some_iff.mp hrest
  obtain ⟨rfl, rfl⟩ := Prod.mk.inj (Option.some.inj hrest)
  obtain ⟨taken, rfl, -⟩ := readNumber_some hLen
  obtain ⟨rfl, -⟩ := readBytes_some hName
  have hlength := readRaw_length hchild
  simp only [List.length_append]
  omega

theorem lengthForm_bounds (uLength : ℕ) (bPack : Bool) :
    1 ≤ lengthForm uLength bPack ∧ lengthForm uLength bPack ≤ 3 := by
  rw [lengthForm]
  split_ifs <;> decide

theorem lt_lengthBytes {uLength : ℕ} (hlt : uLength < 2 ^ 32) (bPack : Bool) :
    uLength < 256 ^ lengthBytes (lengthForm uLength bPack) := by
  rw [lengthForm]
  split_ifs with hlong hshort
  · exact hlt
  · exact (not_le.mp fun hc => hlong (Or.inl hc)).trans (by decide)
  · exact (not_le.mp hshort).trans (by decide)

/-- A payload is read from behind its type and its length. -/
theorem reads_rawPacket {type : ℕ} (htype : type < 64) {form : ℕ} (hform : form ≤ 3) {Payload : Bytes}
    (hlt : Payload.length < 256 ^ lengthBytes form) : Reads readRaw (littleEndian 1 (type + 64 * form) ++
      littleEndian (lengthBytes form) Payload.length ++ Payload) (type + 64 * form, Payload) := by
  have hfirst : Reads (readNumber 1) (littleEndian 1 (type + 64 * form)) (type + 64 * form) :=
    reads_number (by omega)
  have hdiv : (type + 64 * form) / 64 = form := by omega
  rw [List.append_assoc]
  refine reads_bind hfirst ?_
  rw [hdiv]
  exact reads_bind (reads_number hlt) (reads_bind_pure (reads_bytes Payload))

theorem reads_readRaw {type : ℕ} (htype : type < 64) (bPack : Bool) {Payload : Bytes}
    (hlt : Payload.length < 2 ^ 32) : Reads readRaw (plainPacket type bPack Payload)
      (type + 64 * lengthForm Payload.length bPack, Payload) :=
  reads_rawPacket htype (lengthForm_bounds _ _).2 (lt_lengthBytes hlt bPack)

end Reading

section Depth

mutual

theorem parse_enough : ∀ (fuel type : ℕ) (payload : Bytes), payload.length + 2 ≤ fuel →
    parse (fuel + 1) type payload = parse fuel type payload
  | 0, _, _, h => absurd h (Nat.not_succ_le_zero _)
  | fuel + 1, type, payload, h => by
    rw [parse, parse, parseEntries_enough fuel payload (by omega), parseItems_enough fuel payload (by omega)]

theorem parseEntries_enough : ∀ (fuel : ℕ) (bytes : Bytes), bytes.length + 1 ≤ fuel →
    parseEntries (fuel + 1) bytes = parseEntries fuel bytes
  | 0, _, h => absurd h (Nat.not_succ_le_zero _)
  | _ + 1, [], _ => rfl
  | fuel + 1, b :: bytes, h => by
    rw [parseEntries, parseEntries]
    refine Option.bind_congr fun ⟨entry, rest⟩ hread => ?_
    have hlength := readEntry_length hread
    dsimp only
    rw [parse_enough fuel _ entry.2.2 (by omega), parseEntries_enough fuel rest (by omega)]

theorem parseItems_enough : ∀ (fuel : ℕ) (bytes : Bytes), bytes.length + 1 ≤ fuel →
    parseItems (fuel + 1) bytes = parseItems fuel bytes
  | 0, _, h => absurd h (Nat.not_succ_le_zero _)
  | _ + 1, [], _ => rfl
  | fuel + 1, b :: bytes, h => by
    rw [parseItems, parseItems]
    refine Option.bind_congr fun ⟨child, rest⟩ hread => ?_
    have hlength := readRaw_length hread
    dsimp only
    rw [parse_enough fuel _ child.2 (by omega), parseItems_enough fuel rest (by omega)]

end

theorem parse_eq {fuel : ℕ} (type : ℕ) {payload : Bytes} (h : payload.length + 2 ≤ fuel) :
    parse fuel type payload = parse (payload.length + 2) type payload := by
  induction fuel, h using Nat.le_induction with
  | base => rfl
  | succ fuel hle ih => rw [parse_enough fuel type payload hle, ih]

end Depth

section Children

theorem CVariant.WellFormed.type_lt {v : CVariant} (hok : v.WellFormed) : v.type < 64 := by
  cases v with
  | raw type payload => exact hok.1.2
  | map extended entries => exact (by decide : ∀ extended : Bool, (if extended then eExtended else eMap) < 64) extended
  | list items => exact (by decide : eList < 64)
  | packet type payload => exact hok.1
  | damaged type size => exact hok.elim

theorem CVariant.WellFormed.length_lt {v : CVariant} (hok : v.WellFormed) : v.payload.length < 2 ^ 32 := by
  cases v with
  | raw type payload => exact hok.2
  | map extended entries => exact hok.2.1
  | list items => exact hok.1
  | packet type payload => exact hok.2
  | damaged type size => exact hok.elim

theorem type_mod {type : ℕ} (htype : type < 64) (form : ℕ) : (type + 64 * form) % 64 = type := by
  omega

theorem reads_readEntry {sKey : Bytes} (hkey : sKey.length < 256) {v : CVariant} (hok : v.WellFormed) :
    Reads readEntry (littleEndian 1 sKey.length ++ sKey.take (sKey.length % 256) ++ plainPacket v.type false v.payload)
      (sKey, v.type + 64 * lengthForm v.payload.length false, v.payload) := by
  rw [List.append_assoc, Nat.mod_eq_of_lt hkey, List.take_length]
  exact reads_bind (reads_number (by omega)) (reads_bind (reads_bytes sKey)
    (reads_bind_pure (reads_readRaw hok.type_lt false hok.length_lt)))

theorem parseEntries_step {fuel : ℕ} {bytes rest : Bytes} {entry : Bytes × ℕ × Bytes}
    (h : readEntry bytes = some (entry, rest)) : parseEntries (fuel + 1) bytes = do
      let child ← parse fuel (entry.2.1 % 64) entry.2.2
      let entries ← parseEntries fuel rest
      return (entry.1, child) :: entries := by
  cases bytes with
  | nil => exact absurd h nofun
  | cons b bytes =>
    rw [parseEntries, h]
    rfl

theorem parseItems_step {fuel : ℕ} {bytes rest : Bytes} {child : ℕ × Bytes}
    (h : readRaw bytes = some (child, rest)) : parseItems (fuel + 1) bytes = do
      let item ← parse fuel (child.1 % 64) child.2
      let items ← parseItems fuel rest
      return item :: items := by
  cases bytes with
  | nil => exact absurd h nofun
  | cons b bytes =>
    rw [parseItems, h]
    rfl

variable {entries : List (Bytes × CVariant)}

theorem keys_treeEntries {trees : List (Bytes × Tree)}
    (h : treeEntries entries = some trees) : trees.map Prod.fst = entries.map Prod.fst := by
  induction entries generalizing trees with
  | nil =>
    obtain rfl := Option.some.inj h
    rfl
  | cons entry entries ih =>
    obtain ⟨child, -, hrest⟩ := Option.bind_eq_some_iff.mp h
    obtain ⟨later, hlater, hrest⟩ := Option.bind_eq_some_iff.mp hrest
    obtain rfl := Option.some.inj hrest
    rw [List.map_cons, List.map_cons, ih hlater]

theorem cString_eq {Name : Bytes} (h : (0 : UInt8) ∉ Name) : cString Name = Name := by
  rw [cString, List.takeWhile_eq_self_iff]
  intro b hb
  exact decide_eq_true fun hzero => h (hzero ▸ hb)

/-- Entries with keys in order are put into a map as they are. -/
theorem foldl_insertNew {entries : List (Bytes × Tree)} {m : OrderedMap Bytes Tree}
    (hsorted : (m.entries ++ entries).Pairwise fun a b => a.1 < b.1)
    (hzero : ∀ entry ∈ entries, (0 : UInt8) ∉ entry.1) :
    (entries.foldl insertNew m).entries = m.entries ++ entries := by
  induction entries generalizing m with
  | nil => exact (List.append_nil _).symm
  | cons entry entries ih =>
    have hkey := cString_eq (hzero entry List.mem_cons_self)
    have hbefore : ∀ old ∈ m.entries, old.1 < entry.1 := fun old hold =>
      (List.pairwise_append.mp hsorted).2.2 old hold entry List.mem_cons_self
    have hnone : m.get entry.1 = none :=
      OrderedMap.get_eq_none.mpr fun v hv => lt_irrefl _ (hbefore (entry.1, v) hv)
    have hnew : (insertNew m entry).entries = m.entries ++ [entry] := by
      rw [insertNew, hkey, hnone, if_neg (by decide)]
      exact OrderedMap.insertEntry_last hbefore entry.2
    rw [List.foldl_cons, ih (by rw [hnew, List.append_assoc]; exact hsorted)
      fun later hlater => hzero later (List.mem_cons_of_mem _ hlater), hnew, List.append_assoc]
    rfl

theorem WellFormedEntries.zero_notMem
    (hok : WellFormedEntries entries) : ∀ sKey ∈ entries.map Prod.fst, (0 : UInt8) ∉ sKey := by
  induction entries with
  | nil => exact nofun
  | cons entry entries ih =>
    intro sKey hmem
    rcases List.mem_cons.mp hmem with rfl | hmem
    · exact hok.1.2
    · exact ih hok.2.2 sKey hmem

theorem insertAll_trees {trees : List (Bytes × Tree)}
    (h : treeEntries entries = some trees) (hsorted : (entries.map Prod.fst).Pairwise (· < ·))
    (hok : WellFormedEntries entries) : insertAll trees = trees := by
  have hkeys := keys_treeEntries h
  rw [← hkeys] at hsorted
  refine foldl_insertNew (List.pairwise_map.mp hsorted) fun entry hentry => ?_
  refine hok.zero_notMem entry.1 ?_
  rw [← hkeys]
  exact List.mem_map_of_mem hentry

theorem length_plainPacket (type : ℕ) (bPack : Bool) (Payload : Bytes) :
    Payload.length + 2 ≤ (plainPacket type bPack Payload).length := by
  have hpos := lengthBytes_pos (lengthForm Payload.length bPack)
  rw [plainPacket, List.length_append, List.length_append, length_littleEndian, length_littleEndian]
  omega

mutual

theorem parse_payload : ∀ (v : CVariant), v.WellFormed → ∀ fuel, v.payload.length + 2 ≤ fuel →
    parse fuel v.type v.payload = v.tree
  | _, _, 0, hfuel => absurd hfuel (Nat.not_succ_le_zero _)
  | .raw type payload, hok, fuel + 1, _ => by
    have htype : eList < type := hok.1.1
    rw [eList] at htype
    rw [CVariant.type, CVariant.payload, CVariant.tree, parse, eExtended, eMap, eList,
      if_neg (by omega), if_neg (by omega)]
  | .map extended entries, hok, fuel + 1, hfuel => by
    have hloop := parseEntries_payload entries hok.2.2 fuel (Nat.succ_le_succ_iff.mp hfuel)
    have hcontainer : (if extended then eExtended else eMap) = eExtended ∨
        (if extended then eExtended else eMap) = eMap := by
      cases extended with
      | false => exact Or.inr rfl
      | true => exact Or.inl rfl
    rw [CVariant.type, CVariant.payload, CVariant.tree, parse, if_pos hcontainer, hloop]
    cases htrees : treeEntries entries with
    | none => rfl
    | some trees =>
      have hextended : decide ((if extended then eExtended else eMap) = eExtended) = extended := by
        cases extended <;> rfl
      rw [Option.map_some, Option.map_some, insertAll_trees htrees hok.1 hok.2.2, hextended]
  | .list items, hok, fuel + 1, hfuel => by
    have hloop := parseItems_payload items hok.2 fuel (Nat.succ_le_succ_iff.mp hfuel)
    rw [CVariant.type, CVariant.payload, CVariant.tree, parse, if_neg (by decide), if_pos rfl, hloop]
  | .packet type payload, _, fuel + 1, hfuel => parse_eq type hfuel

/-- The loop over a map gives the trees of its entries. -/
theorem parseEntries_payload : ∀ (entries : List (Bytes × CVariant)), WellFormedEntries entries →
    ∀ fuel, (payloadEntries entries).length + 1 ≤ fuel →
      parseEntries fuel (payloadEntries entries) = treeEntries entries
  | _, _, 0, hfuel => absurd hfuel (Nat.not_succ_le_zero _)
  | [], _, fuel + 1, _ => rfl
  | (sKey, v) :: entries, hok, fuel + 1, hfuel => by
    have hread := reads_readEntry hok.1.1 hok.2.1 (payloadEntries entries)
    have hlength := length_plainPacket v.type false v.payload
    rw [payloadEntries, List.length_append, List.length_append] at hfuel
    rw [payloadEntries, parseEntries_step hread]
    dsimp only
    rw [type_mod hok.2.1.type_lt, parse_payload v hok.2.1 fuel (by omega),
      parseEntries_payload entries hok.2.2 fuel (by omega), treeEntries]

/-- The loop over a list gives the trees of its values. -/
theorem parseItems_payload : ∀ (items : List CVariant), WellFormedItems items →
    ∀ fuel, (payloadItems items).length + 1 ≤ fuel → parseItems fuel (payloadItems items) = treeItems items
  | _, _, 0, hfuel => absurd hfuel (Nat.not_succ_le_zero _)
  | [], _, fuel + 1, _ => rfl
  | v :: items, hok, fuel + 1, hfuel => by
    have hread := reads_readRaw hok.1.type_lt false hok.1.length_lt (payloadItems items)
    have hlength := length_plainPacket v.type false v.payload
    rw [payloadItems, List.length_append] at hfuel
    rw [payloadItems, parseItems_step hread]
    dsimp only
    rw [type_mod hok.1.type_lt, parse_payload v hok.1 fuel (by omega),
      parseItems_payload items hok.2 fuel (by omega), treeItems]

end

end Children

section RoundTrip

variable {z : Zlib}

theorem fromPacket_plain {bDerived : Bool} {bytes rest : Bytes} {r : ℕ × Bytes}
    (h : readRaw bytes = some (r, rest)) (hplain : bDerived = true ∨ r.1 / 64 ≠ 0) :
    fromPacket z bDerived bytes = some (CVariant.packet (r.1 % 64) r.2, rest) := by
  change (readRaw bytes).bind _ = _
  rw [h, Option.bind_some]
  dsimp only
  rw [if_pos hplain]
  rfl

/-- A payload that is packed is unpacked, or left out. -/
theorem fromPacket_packed {type : ℕ} (htype : type < 64) {packed : Bytes}
    (hlt : packed.length < 2 ^ 32) {result : Inflated} (hresult : unpack z packed = some result)
    (rest : Bytes) : fromPacket z false (packedPacket type packed ++ rest) =
      some (CVariant.ofUnpacked type packed result, rest) := by
  have hread : readRaw (packedPacket type packed ++ rest) = some ((type, packed), rest) :=
    reads_rawPacket htype (Nat.zero_le 3) hlt rest
  have hform : ¬(false = true ∨ type / 64 ≠ 0) := fun hc =>
    hc.elim nofun fun hne => hne (Nat.div_eq_of_lt htype)
  change (readRaw (packedPacket type packed ++ rest)).bind _ = _
  rw [hread, Option.bind_some]
  dsimp only
  rw [if_neg hform, hresult, Nat.mod_eq_of_lt htype]
  rfl

/-- The last buffer with which unpacking is tried. -/
def lastBuffer (Size : ℕ) : ℕ → ℕ → ℕ
  | 0, newsize => newsize
  | fuel + 1, newsize =>
    if newsize * 2 < unpackLimit Size then lastBuffer Size fuel (newsize * 2) else newsize

/-- The last buffer with which a payload of some packed size is tried. -/
def largestBuffer (Size : ℕ) : ℕ := lastBuffer Size 32 (firstBuffer Size)

theorem le_lastBuffer (Size fuel newsize : ℕ) : newsize ≤ lastBuffer Size fuel newsize := by
  induction fuel generalizing newsize with
  | zero => exact le_rfl
  | succ fuel ih =>
    rw [lastBuffer]
    split_ifs
    · exact (Nat.le_mul_of_pos_right newsize (by decide)).trans (ih (newsize * 2))
    · exact le_rfl

/-- If zlib knows the bytes, they are unpacked as soon as a buffer is large enough, or not at all. -/
theorem unpackLoop_eq {pData bytes : Bytes} (hz : ∀ n, z.uncompress n pData =
      if bytes.length ≤ n then Inflated.ok bytes else Inflated.bufError) (fuel newsize : ℕ)
    (hend : bytes.length ≤ lastBuffer pData.length fuel newsize ∨
      unpackLimit pData.length ≤ lastBuffer pData.length fuel newsize * 2) :
    unpackLoop z pData (fuel + 1) newsize =
      some (if bytes.length ≤ lastBuffer pData.length fuel newsize then Inflated.ok bytes
        else Inflated.bufError) := by
  induction fuel generalizing newsize with
  | zero =>
    rw [lastBuffer] at hend ⊢
    rw [unpackLoop, hz]
    by_cases hroom : bytes.length ≤ newsize
    · rw [if_pos hroom, if_neg fun hc => absurd hc.1 nofun]
    · rw [if_neg hroom, if_neg fun hc => absurd (hend.resolve_left hroom) (not_le.mpr hc.2)]
  | succ fuel ih =>
    rw [unpackLoop, hz]
    by_cases hroom : bytes.length ≤ newsize
    · rw [if_pos hroom, if_neg fun hc => absurd hc.1 nofun, if_pos (hroom.trans (le_lastBuffer _ _ _))]
    · rw [lastBuffer] at hend ⊢
      rw [if_neg hroom]
      by_cases hnext : newsize * 2 < unpackLimit pData.length
      · rw [if_pos hnext] at hend ⊢
        rw [if_pos ⟨rfl, hnext⟩]
        exact ih (newsize * 2) hend
      · rw [if_neg hnext, if_neg fun hc => hnext hc.2, if_neg hroom]

/-- A payload that gets packed has room in the largest buffer with which unpacking is tried. -/
def CVariant.Unpackable (z : Zlib) (bPack : Bool) (v : CVariant) : Prop :=
  bPack = true → ∀ packed, z.compress2 v.payload = some packed →
    packed.length < v.payload.length → v.payload.length ≤ largestBuffer packed.length

theorem fromPacket_plainPacket {v : CVariant} (hok : v.WellFormed) (bPack : Bool) (rest : Bytes) :
    fromPacket z false (plainPacket v.type bPack v.payload ++ rest) =
      some (CVariant.packet v.type v.payload, rest) := by
  have hform := lengthForm_bounds v.payload.length bPack
  have hread : fromPacket z false (plainPacket v.type bPack v.payload ++ rest) = _ :=
    fromPacket_plain (reads_readRaw hok.type_lt bPack hok.length_lt rest) (Or.inr (by dsimp only; omega))
  rwa [type_mod hok.type_lt] at hread

/-- A packet is read back as a variant with this type and payload. -/
theorem reads_toPacket (hz : z.Correct) {v : CVariant} (hok : v.WellFormed) {bPack : Bool}
    (hunpack : v.Unpackable z bPack) :
    Reads (fromPacket z false) (toPacket z bPack v) (CVariant.packet v.type v.payload) := by
  intro rest
  have hplain := fromPacket_plainPacket (z := z) hok bPack rest
  rw [toPacket]
  cases hpacked : (if bPack then z.compress2 v.payload else none) with
  | none => exact hplain
  | some packed =>
    dsimp only
    split_ifs with hshorter
    · have hlength := hok.length_lt
      cases bPack with
      | false => exact absurd hpacked nofun
      | true =>
        have hroom : v.payload.length ≤ lastBuffer packed.length 32 (firstBuffer packed.length) :=
          hunpack rfl packed hpacked hshorter
        have hresult := unpackLoop_eq (hz _ _ hpacked) 32 _ (Or.inl hroom)
        rw [if_pos hroom] at hresult
        rw [fromPacket_packed hok.type_lt (hshorter.trans hlength) hresult, CVariant.ofUnpacked,
          Nat.mod_eq_of_lt hlength, List.take_length]
    · exact hplain

/-- A well formed tree is read back from its packet, packed or not, whatever follows, if the buffers of
the unpacker get large enough. -/
theorem fromPacket_toPacket (hz : z.Correct) {v : CVariant} (hok : v.WellFormed) (bPack : Bool)
    (hunpack : v.Unpackable z bPack) :
    ∃ v', Reads (fromPacket z false) (toPacket z bPack v) v' ∧ v'.tree = v.tree ∧
      v'.type = v.type ∧ v'.payload = v.payload :=
  ⟨_, reads_toPacket hz hok hunpack, (parse_payload v hok _ le_rfl), rfl, rfl⟩

/-- A zlib that knows runs of zeros, which get a thousand times shorter. -/
def zeroRuns : Zlib where
  compress2 := fun bytes =>
    if bytes = List.replicate bytes.length 0 ∧ bytes.length < 2 ^ 32 then
      some (littleEndian 4 bytes.length ++ List.replicate (bytes.length / 1000) 0)
    else none
  uncompress := fun n pData =>
    if ofLittleEndian (pData.take 4) ≤ n then
      Inflated.ok (List.replicate (ofLittleEndian (pData.take 4)) 0)
    else Inflated.bufError

/-- What a run of zeros is packed to. -/
def packedRun (k : ℕ) : Bytes := littleEndian 4 k ++ List.replicate (k / 1000) 0

theorem length_packedRun (k : ℕ) : (packedRun k).length = 4 + k / 1000 := by
  rw [packedRun, List.length_append, length_littleEndian, List.length_replicate]

theorem zeroRuns_uncompress {k : ℕ} (hlt : k < 2 ^ 32) (n : ℕ) : zeroRuns.uncompress n (packedRun k) =
      if k ≤ n then Inflated.ok (List.replicate k 0) else Inflated.bufError := by
  have htake : (packedRun k).take 4 = littleEndian 4 k := List.take_left' (length_littleEndian 4 k)
  have hk : k % 256 ^ 4 = k := Nat.mod_eq_of_lt hlt
  change (if ofLittleEndian ((packedRun k).take 4) ≤ n then _ else _) = _
  rw [htake, ofLittleEndian_littleEndian, hk]

theorem zeroRuns_correct : zeroRuns.Correct := by
  intro bytes packed hpacked n
  change (if bytes = List.replicate bytes.length 0 ∧ bytes.length < 2 ^ 32 then
    some (packedRun bytes.length) else none) = _ at hpacked
  split_ifs at hpacked with hrun
  rw [← Option.some.inj hpacked, zeroRuns_uncompress hrun.2, ← hrun.1]

theorem zeroRuns_compress2 {k : ℕ} (hlt : k < 2 ^ 32) :
    zeroRuns.compress2 (List.replicate k 0) = some (packedRun k) := by
  change (if List.replicate k 0 = List.replicate (List.replicate k (0 : UInt8)).length 0 ∧
    (List.replicate k (0 : UInt8)).length < 2 ^ 32 then
      some (packedRun (List.replicate k (0 : UInt8)).length) else none) = _
  rw [List.length_replicate, if_pos ⟨rfl, hlt⟩]

/-- Some zeros. -/
def zeros (k : ℕ) : CVariant := CVariant.raw 7 (List.replicate k 0)

theorem zeros_wellFormed {k : ℕ} (hlt : k < 2 ^ 32) : (zeros k).WellFormed := by
  rw [zeros, CVariant.WellFormed, List.length_replicate]
  exact ⟨⟨by decide, by decide⟩, hlt⟩

/-- Six hundred zeros, which get packed. -/
theorem fromPacket_toPacket_zeros : ∃ v', Reads (fromPacket zeroRuns false)
    (toPacket zeroRuns true (zeros 600)) v' ∧ v'.tree = (zeros 600).tree ∧
      v'.type = (zeros 600).type ∧ v'.payload = (zeros 600).payload := by
  refine fromPacket_toPacket zeroRuns_correct (zeros_wellFormed (by decide)) true fun _ packed hpacked _ => ?_
  rw [zeros, CVariant.payload, zeroRuns_compress2 (by decide)] at hpacked
  rw [← Option.some.inj hpacked, length_packedRun, zeros, CVariant.payload, List.length_replicate]
  decide

/-- Thirty-two megabytes of zeros are packed into a packet that cannot be unpacked. -/
theorem fromPacket_toPacket_tooLarge : ∃ z : Zlib, z.Correct ∧ ∃ v : CVariant, v.WellFormed ∧
    ¬∃ v', Reads (fromPacket z false) (toPacket z true v) v' ∧ v'.tree = v.tree := by
  have hlt : 2 ^ 25 < 2 ^ 32 := by decide
  have hlength := length_packedRun (2 ^ 25)
  refine ⟨zeroRuns, zeroRuns_correct, zeros (2 ^ 25), zeros_wellFormed hlt, ?_⟩
  rintro ⟨v', hread, htree⟩
  have hz : ∀ n, zeroRuns.uncompress n (packedRun (2 ^ 25)) = if (List.replicate (2 ^ 25) (0 : UInt8)).length ≤ n then
        Inflated.ok (List.replicate (2 ^ 25) 0) else Inflated.bufError := fun n => by
    rw [zeroRuns_uncompress hlt, List.length_replicate]
  have hlast : lastBuffer (4 + 2 ^ 25 / 1000) 32 (firstBuffer (4 + 2 ^ 25 / 1000)) = 10748160 := by
    decide
  have hloop := unpackLoop_eq hz 32 (firstBuffer (packedRun (2 ^ 25)).length) (Or.inr (by rw [hlength, hlast]; decide))
  rw [hlength, hlast, List.length_replicate, if_neg (by decide), ← hlength] at hloop
  have hpacket : toPacket zeroRuns true (zeros (2 ^ 25)) = packedPacket 7 (packedRun (2 ^ 25)) := by
    rw [toPacket, if_pos rfl, zeros, CVariant.payload, zeroRuns_compress2 hlt]
    dsimp only
    rw [List.length_replicate, hlength, if_pos (by decide), CVariant.type]
  have hdamaged := fromPacket_packed (by decide : 7 < 64)
    (show (packedRun (2 ^ 25)).length < 2 ^ 32 by rw [hlength]; decide) hloop []
  have hsame := hread []
  rw [hpacket, hdamaged] at hsame
  rw [← (Prod.mk.inj (Option.some.inj hsame)).1] at htree
  exact absurd htree nofun

end RoundTrip

end NeoLoader.Variant
