import NeoLoader.RowTable

/-!
# The payload index

Payloads that nodes store are rows of a table, found by their target, path and access key.
A store replaces the row there is, a refresh gives it later dates, and rows past their
expiration are removed.
-/

namespace NeoLoader.PayloadIndex

open RowTable RowTable.Table

/-- A value of a column, which may be `NULL`. -/
abbrev SqlValue := Option (List UInt8)

/-- `=` of a condition, which does not hold of `NULL`. -/
def sqlEqual : SqlValue → SqlValue → Bool
  | some a, some b => a = b
  | _, _ => false

/-- `CSQLiteQuery::BindBlob`. -/
def bindBlob (pBlob : Option (List UInt8)) (uSize : ℕ) : SqlValue :=
  match pBlob with
  | some bytes => some (bytes.take uSize)
  | none => some (List.replicate uSize 0)

/-- The payload of a variant, which may be `NULL`, and its size. -/
structure SVariant where
  payload : Option (List UInt8)
  size : ℕ
  deriving DecidableEq, Repr

/-- The variant bound as a value. -/
def SVariant.bind (v : SVariant) : SqlValue := bindBlob v.payload v.size

/-- `CVariant()`. -/
def SVariant.invalid : SVariant := ⟨none, 0⟩

/-- A payload, with the values that are read of it. -/
structure Payload where
  /-- `PATH`, unless it is no string. -/
  path : Option String
  /-- `RELD`, unless it is no number that fits. -/
  reld : Option ℕ
  /-- `DATA`, if there is some. -/
  data : Option (List UInt8)
  deriving DecidableEq, Repr

/-- A row of `entries`, with the time when it was stored or refreshed, which is no column. -/
structure Entry where
  id : SqlValue
  path : String
  payload : Payload
  pub : ℕ
  exp : ℕ
  ak : SqlValue
  cid : SqlValue
  /-- The time when the row was stored or refreshed. -/
  stored : ℕ
  deriving DecidableEq, Repr

/-- What an entry is found by. -/
def Entry.key (e : Entry) : SqlValue × String × SqlValue := (e.id, e.path, e.ak)

/-- What the index goes by. -/
structure Settings where
  /-- `GetTime`, for one call after the other. -/
  clock : ℕ → ℕ
  /-- `CPublicKey::SetKey`. -/
  setKey : SVariant → Bool
  /-- `CVariant::Verify`, unless it throws. -/
  verify : SVariant → Payload → Option Bool
  maxPayloadExpiration : ℕ
  loadInterval : ℕ

structure CPayloadIndex where
  /-- `m_pDataBase`, its table `entries`. -/
  entries : Table Entry
  /-- How often the time was taken. -/
  ticks : ℕ

/-- An index without entries. -/
def CPayloadIndex.new : CPayloadIndex := ⟨empty, 0⟩

/-- The index with other entries. -/
def CPayloadIndex.setEntries (x : CPayloadIndex) (entries : Table Entry) : CPayloadIndex :=
  { x with entries := entries }

section Time

def getTime (p : Settings) (x : CPayloadIndex) : ℕ × CPayloadIndex :=
  (p.clock x.ticks, { x with ticks := x.ticks + 1 })

/-- `Min(RELD, GetTime())`, a macro that takes the time once more for its value. -/
def releaseDate (p : Settings) (reld : ℕ) (x : CPayloadIndex) : ℕ × CPayloadIndex :=
  let now := getTime p x
  if reld < now.1 then (reld, now.2) else getTime p now.2

/-- `Min(GetTime(), RELD)`, a macro that takes the time once more for its value. -/
def publishDate (p : Settings) (reld : ℕ) (x : CPayloadIndex) : ℕ × CPayloadIndex :=
  let now := getTime p x
  if now.1 < reld then getTime p now.2 else (reld, now.2)

/-- The time as it was last taken. -/
def lastTime (p : Settings) (x : CPayloadIndex) : ℕ := p.clock (x.ticks - 1)

end Time

section Statements

/-- `FindEntry`, the index and publication date of the entry, or two zeros. -/
def findEntry (id : SqlValue) (path : String) (accessKey exclusiveCID : SVariant) (x : CPayloadIndex) : ℕ × ℕ :=
  match x.entries.select fun e => sqlEqual e.id id && (e.path = path) &&
      sqlEqual e.ak accessKey.bind && sqlEqual e.cid exclusiveCID.bind with
  | none => (0, 0)
  | some (idx, e) => (idx, e.pub)

/-- `SetEntry`, with the path and release date of the payload. -/
def setEntry (p : Settings) (id : SqlValue) (payload : Payload) (path : String) (reld expire : ℕ)
    (accessKey exclusiveCID : SVariant) (x : CPayloadIndex) : CPayloadIndex :=
  let date := publishDate p reld x
  date.2.setEntries (date.2.entries.insert ⟨id, path, payload, date.1, expire, accessKey.bind, exclusiveCID.bind,
      lastTime p date.2⟩)

def delData (index : ℕ) (exclusiveCID : SVariant) (x : CPayloadIndex) : CPayloadIndex :=
  x.setEntries (x.entries.delete fun idx e => (idx = index) && sqlEqual e.cid exclusiveCID.bind)

def refreshEntry (p : Settings) (index expire releaseDate : ℕ) (exclusiveCID : SVariant)
    (x : CPayloadIndex) : CPayloadIndex :=
  x.setEntries (x.entries.update (fun idx e => (idx = index) && sqlEqual e.cid exclusiveCID.bind)
      fun e => { e with pub := releaseDate, exp := expire, stored := lastTime p x })

def cleanUpEntries (p : Settings) (x : CPayloadIndex) : CPayloadIndex :=
  let now := getTime p x
  now.2.setEntries (now.2.entries.delete fun _ e => e.exp < now.1)

/-- `GetLoad`, the number of recent entries of a target, and the time since the first one. -/
def getLoad (p : Settings) (id : SqlValue) (interval : ℕ) (exclusiveCID : SVariant)
    (x : CPayloadIndex) : (ℕ × ℕ) × CPayloadIndex :=
  let now := getTime p x
  let recent := now.2.entries.selectAll fun e => sqlEqual e.id id &&
    sqlEqual e.cid exclusiveCID.bind && ((now.1 : ℤ) - interval < e.pub)
  ((recent.length, now.1 - ((recent.map Entry.pub).min?).getD 0), now.2)

end Statements

section Store

/-- A store of a request. -/
structure StoreItem where
  xid : ℕ
  /-- `PLD`. -/
  payload : Payload
  deriving DecidableEq, Repr

/-- What becomes of a store. -/
inductive StoreResult
  /-- It is refused with an error. -/
  | refused (xid : ℕ) (error : String)
  /-- It is stored, until it expires. -/
  | stored (xid exp : ℕ)
  /-- An exception is thrown. -/
  | thrown
  deriving DecidableEq, Repr

/-- The payload has a valid signature, where there is a key. -/
def verifyPayload (p : Settings) (accessKey : Option SVariant) (payload : Payload) : Option Bool :=
  match accessKey with
  | none => some true
  | some key => p.verify key payload

/-- The entry there is, where there is a key. -/
def oldEntry (id : SqlValue) (accessKey : Option SVariant) (payload : Payload) (x : CPayloadIndex) : Option (ℕ × ℕ) :=
  match accessKey with
  | none => some (0, 0)
  | some key => payload.path.map fun path => findEntry id path key SVariant.invalid x

/-- The payload is stored, or the entry there is gets new dates. -/
def writeEntry (p : Settings) (id : SqlValue) (ttl : ℕ) (accessKey : Option SVariant)
    (item : StoreItem) (old date reld : ℕ) (x : CPayloadIndex) : CPayloadIndex × StoreResult :=
  if item.payload.data.isSome then
    let x := if old ≠ 0 then delData old SVariant.invalid x else x
    match item.payload.path with
    | none => (x, .thrown)
    | some path =>
      (setEntry p id item.payload path reld (date + ttl) (accessKey.getD SVariant.invalid)
        SVariant.invalid x, .stored item.xid (date + ttl))
  else
    (refreshEntry p old (date + ttl) date SVariant.invalid x, .stored item.xid (date + ttl))

/-- The dates of a store, unless the entry there is has a later one. -/
def dateEntry (p : Settings) (id : SqlValue) (ttl : ℕ) (accessKey : Option SVariant)
    (item : StoreItem) (old : ℕ × ℕ) (reld : ℕ) (x : CPayloadIndex) :
    CPayloadIndex × StoreResult :=
  let date := releaseDate p reld x
  if date.1 < old.2 then (date.2, .refused item.xid "Outated")
  else writeEntry p id ttl accessKey item old.1 date.1 reld date.2

/-- The body of the loop of `CPayloadIndex::DoStore`. -/
def storeItem (p : Settings) (id : SqlValue) (ttl : ℕ) (accessKey : Option SVariant)
    (item : StoreItem) (x : CPayloadIndex) : CPayloadIndex × StoreResult :=
  match verifyPayload p accessKey item.payload with
  | none => (x, .thrown)
  | some false => (x, .refused item.xid "InvalidSign")
  | some true =>
    match oldEntry id accessKey item.payload x with
    | none => (x, .thrown)
    | some old =>
      if old.1 = 0 && item.payload.data.isNone then (x, .refused item.xid "NotStored")
      else
        match item.payload.reld with
        | none => (x, .thrown)
        | some reld => dateEntry p id ttl accessKey item old reld x

/-- The loop of `CPayloadIndex::DoStore`, which an exception ends. -/
def storeItems (p : Settings) (id : SqlValue) (ttl : ℕ) (accessKey : Option SVariant) :
    List StoreItem → CPayloadIndex → CPayloadIndex × List StoreResult
  | [], x => (x, [])
  | item :: rest, x =>
    let one := storeItem p id ttl accessKey item x
    if one.2 = .thrown then (one.1, [one.2])
    else
      let others := storeItems p id ttl accessKey rest one.1
      (others.1, one.2 :: others.2)

structure StoreRes where
  /-- `ERR`, if there is one. -/
  err : Option String
  /-- `RES`. -/
  results : List StoreResult
  /-- `CNT` and `INT`, if they are told. -/
  load : Option (ℕ × ℕ)
  deriving DecidableEq, Repr

/-- The time to live. -/
def limitTTL (p : Settings) (ttl : ℕ) : ℕ :=
  if ttl = 0 || p.maxPayloadExpiration < ttl then p.maxPayloadExpiration else ttl

/-- `CPayloadIndex::DoStore`. -/
def doStore (p : Settings) (id : SqlValue) (items : List StoreItem) (ttl : ℕ)
    (accessKey : Option SVariant) (x : CPayloadIndex) : CPayloadIndex × StoreRes :=
  if accessKey.any fun key => !p.setKey key then (x, ⟨some "InvalidKey", [], none⟩)
  else
    let stored := storeItems p id (limitTTL p ttl) accessKey items x
    if .thrown ∈ stored.2 then (stored.1, ⟨none, stored.2, none⟩)
    else
      let load := getLoad p id p.loadInterval SVariant.invalid stored.1
      (load.2, ⟨none, stored.2, some load.1⟩)

end Store

/-- What can happen to an index. -/
inductive Op
  /-- A store request with an access key. -/
  | store (id : List UInt8) (items : List StoreItem) (ttl : ℕ) (accessKey : SVariant)
  /-- Entries are cleaned up. -/
  | cleanUp

/-- What happens to an index. -/
def step (p : Settings) (x : CPayloadIndex) : Op → CPayloadIndex
  | .store id items ttl accessKey =>
    (doStore p (bindBlob (some id) id.length) items ttl (some accessKey) x).1
  | .cleanUp => cleanUpEntries p x

/-- An index after a run. -/
def run (p : Settings) (x : CPayloadIndex) (ops : List Op) : CPayloadIndex := ops.foldl (step p) x

section Invariant

variable {p : Settings} {x x' : CPayloadIndex}

theorem sqlEqual_iff {a b : SqlValue} : sqlEqual a b = true ↔ a = b ∧ a.isSome = true := by
  cases a with
  | none => simp [sqlEqual]
  | some bytes =>
    cases b with
    | none => simp [sqlEqual]
    | some bytes' => simp [sqlEqual]

theorem isSome_bindBlob (pBlob : Option (List UInt8)) (uSize : ℕ) : (bindBlob pBlob uSize).isSome = true := by
  cases pBlob <;> rfl

/-- The entries of an index that only store requests with access keys have changed. -/
structure Indexed (p : Settings) (x : CPayloadIndex) : Prop where
  /-- There is one entry for a target, a path and an access key. -/
  nodup : (x.entries.values.map Entry.key).Nodup
  /-- No value is `NULL`, and no entry is of a script. -/
  bound : ∀ e ∈ x.entries.values, e.id.isSome = true ∧ e.ak.isSome = true ∧ e.cid = SVariant.invalid.bind
  /-- The publication date is not later than the time of storing, and this is in the past. -/
  dates : ∀ e ∈ x.entries.values, e.pub ≤ e.stored ∧ e.stored ≤ p.clock x.ticks

theorem indexed_new (p : Settings) : Indexed p CPayloadIndex.new :=
  ⟨List.nodup_nil, fun _ he => absurd he List.not_mem_nil, fun _ he => absurd he List.not_mem_nil⟩

theorem Indexed.wait (hclock : Monotone p.clock) (h : Indexed p x)
    (hentries : x'.entries = x.entries) (hticks : x.ticks ≤ x'.ticks) : Indexed p x' := by
  refine ⟨?_, ?_, ?_⟩
  · rw [hentries]
    exact h.nodup
  · rw [hentries]
    exact h.bound
  · rw [hentries]
    intro e he
    exact ⟨(h.dates e he).1, (h.dates e he).2.trans (hclock hticks)⟩

/-- What the time is taken for leaves the entries, and is not before the entries were stored. -/
structure Dated (p : Settings) (reld : ℕ) (x : CPayloadIndex) (date : ℕ × CPayloadIndex) : Prop where
  /-- The entries are the same. -/
  entries : date.2.entries = x.entries
  /-- The time was taken. -/
  ticks : x.ticks < date.2.ticks
  /-- The date is not in the future. -/
  le : date.1 ≤ lastTime p date.2
  /-- The date is the release date, or not before the first time, if the release date is not. -/
  near : date.1 = reld ∨ p.clock x.ticks ≤ reld ∧ p.clock x.ticks ≤ date.1

theorem dated_releaseDate (hclock : Monotone p.clock) (reld : ℕ) (x : CPayloadIndex) :
    Dated p reld x (releaseDate p reld x) := by
  have hnext : p.clock x.ticks ≤ p.clock (x.ticks + 1) := hclock (Nat.le_succ _)
  unfold releaseDate getTime
  dsimp only
  split_ifs with hlt
  · exact ⟨rfl, Nat.lt_succ_self _, hlt.le, Or.inl rfl⟩
  · exact ⟨rfl, Nat.lt_succ_of_lt (Nat.lt_succ_self _), le_rfl, Or.inr ⟨Nat.not_lt.mp hlt, hnext⟩⟩

theorem dated_publishDate (hclock : Monotone p.clock) (reld : ℕ) (x : CPayloadIndex) :
    Dated p reld x (publishDate p reld x) := by
  have hnext : p.clock x.ticks ≤ p.clock (x.ticks + 1) := hclock (Nat.le_succ _)
  unfold publishDate getTime
  dsimp only
  split_ifs with hlt
  · exact ⟨rfl, Nat.lt_succ_of_lt (Nat.lt_succ_self _), le_rfl, Or.inr ⟨hlt.le, hnext⟩⟩
  · exact ⟨rfl, Nat.lt_succ_self _, Nat.not_lt.mp hlt, Or.inl rfl⟩

section

variable {reld pub : ℕ} {date : ℕ × CPayloadIndex} (h : Dated p reld x date) (hpast : pub ≤ p.clock x.ticks)

include h hpast

theorem Dated.le_reld (hpub : pub ≤ date.1) : pub ≤ reld := by
  rcases h.near with hreld | ⟨hle, -⟩
  · exact hpub.trans hreld.le
  · exact hpast.trans hle

theorem Dated.ge_of_le_reld (hpub : pub ≤ reld) : pub ≤ date.1 := by
  rcases h.near with hreld | ⟨-, hle⟩
  · exact hpub.trans hreld.ge
  · exact hpast.trans hle

end

theorem lastTime_le (hclock : Monotone p.clock) (x : CPayloadIndex) : lastTime p x ≤ p.clock x.ticks :=
  hclock (Nat.sub_le _ _)

/-- Every entry is still there, with no earlier date. -/
def Later (x x' : CPayloadIndex) : Prop :=
  ∀ e ∈ x.entries.values, ∃ e' ∈ x'.entries.values, e'.key = e.key ∧ e.pub ≤ e'.pub

theorem Later.of_entries (h : x'.entries = x.entries) : Later x x' := by
  intro e he
  rw [← h] at he
  exact ⟨e, he, rfl, le_rfl⟩

theorem Later.trans {x'' : CPayloadIndex} (h : Later x x') (h' : Later x' x'') : Later x x'' := by
  intro e he
  obtain ⟨e', he', hkey, hpub⟩ := h e he
  obtain ⟨e'', he'', hkey', hpub'⟩ := h' e' he'
  exact ⟨e'', he'', hkey'.trans hkey, hpub.trans hpub'⟩

/-- What `FindEntry` comes up with: no entry has the key, or it is the row of the key. -/
theorem findEntry_cases (h : Indexed p x) (id : SqlValue) (path : String) (key : SVariant) :
    (findEntry id path key SVariant.invalid x = (0, 0) ∧ (id, path, key.bind) ∉ x.entries.values.map Entry.key) ∨
      ∃ e, findEntry id path key SVariant.invalid x = (e.1, e.2.pub) ∧ e ∈ x.entries.rows ∧
        e.2.key = (id, path, key.bind) := by
  unfold findEntry
  cases hselect : x.entries.select fun e => sqlEqual e.id id && (e.path = path) &&
      sqlEqual e.ak key.bind && sqlEqual e.cid SVariant.invalid.bind with
  | none =>
    refine Or.inl ⟨rfl, fun hmem => ?_⟩
    obtain ⟨e, he, hkey⟩ := List.mem_map.mp hmem
    have hnot := of_select_none hselect he
    obtain ⟨hidSome, hakSome, hcid⟩ := h.bound e he
    unfold Entry.key at hkey
    simp only [Prod.mk.injEq] at hkey
    have hyes : (sqlEqual e.id id && decide (e.path = path) && sqlEqual e.ak key.bind &&
        sqlEqual e.cid SVariant.invalid.bind) = true := by
      simp only [Bool.and_eq_true, sqlEqual_iff, decide_eq_true_eq]
      exact ⟨⟨⟨⟨hkey.1, hidSome⟩, hkey.2.1⟩, hkey.2.2, hakSome⟩, hcid, by rw [hcid]; rfl⟩
    rw [hyes] at hnot
    exact absurd hnot.symm Bool.false_ne_true
  | some e =>
    obtain ⟨hmem, hp⟩ := of_select hselect
    simp only [Bool.and_eq_true, sqlEqual_iff, decide_eq_true_eq] at hp
    refine Or.inr ⟨e, rfl, hmem, ?_⟩
    unfold Entry.key
    rw [hp.1.1.1.1, hp.1.1.2, hp.1.2.1]

/-- An entry is put in under a key that no entry has. -/
theorem Indexed.setEntry (hclock : Monotone p.clock) (h : Indexed p x) {id : SqlValue}
    (hid : id.isSome = true) (payload : Payload) (path : String) (reld expire : ℕ) (key : SVariant)
    (hnew : (id, path, key.bind) ∉ x.entries.values.map Entry.key) :
    Indexed p (setEntry p id payload path reld expire key SVariant.invalid x) := by
  have hdate := dated_publishDate hclock reld x
  have hwait : Indexed p (publishDate p reld x).2 := h.wait hclock hdate.entries hdate.ticks.le
  unfold PayloadIndex.setEntry
  generalize publishDate p reld x = date at hdate hwait
  rw [← hdate.entries] at hnew
  refine ⟨nodup_insert hwait.nodup hnew, fun e he => ?_, fun e he => ?_⟩
  · rcases mem_values_insert.mp he with hold | rfl
    · exact hwait.bound e hold
    · exact ⟨hid, isSome_bindBlob _ _, rfl⟩
  · rcases mem_values_insert.mp he with hold | rfl
    · exact hwait.dates e hold
    · exact ⟨hdate.le, lastTime_le hclock date.2⟩

theorem Indexed.delete (h : Indexed p x) (cond : ℕ → Entry → Bool) : Indexed p (x.setEntries (x.entries.delete cond)) :=
  ⟨nodup_delete cond h.nodup, fun e he => h.bound e (of_mem_values_delete he),
    fun e he => h.dates e (of_mem_values_delete he)⟩

variable {r : ℕ × Entry}

theorem row_ne_zero (hr : r ∈ x.entries.rows) : r.1 ≠ 0 := by
  have hgiven := x.entries.given r hr
  omega

theorem replace_entry (hclock : Monotone p.clock) (h : Indexed p x) {id : SqlValue}
    (hid : id.isSome = true) (payload : Payload) (path : String) (reld expire : ℕ) (key : SVariant)
    (hr : r ∈ x.entries.rows) (hkey : r.2.key = (id, path, key.bind))
    (hpub : r.2.pub ≤ reld) :
    let x' := setEntry p id payload path reld expire key SVariant.invalid
      (delData r.1 SVariant.invalid x)
    Indexed p x' ∧ Later x x' := by
  have hcond : (decide (r.1 = r.1) && sqlEqual r.2.cid SVariant.invalid.bind) = true := by
    rw [(h.bound r.2 (mem_values hr)).2.2]
    simp [sqlEqual_iff, SVariant.bind, isSome_bindBlob]
  have hnew := not_mem_delete Entry.key
    (p := fun idx e => (idx = r.1) && sqlEqual e.cid SVariant.invalid.bind) hr h.nodup hcond
  rw [hkey] at hnew
  have hdel : Indexed p (delData r.1 SVariant.invalid x) := h.delete _
  refine ⟨hdel.setEntry hclock hid payload path reld expire key hnew, fun e he => ?_⟩
  have hdate := dated_publishDate hclock reld (delData r.1 SVariant.invalid x)
  obtain ⟨r', hr', rfl⟩ := List.mem_map.mp he
  by_cases hsame : r'.1 = r.1
  · refine ⟨_, mem_values_insert.mpr (Or.inr rfl), hkey.symm.trans ?_, ?_⟩
    · rw [eq_of_fst hr' hr hsame]
    · rw [eq_of_fst hr' hr hsame]
      exact hdate.ge_of_le_reld ((h.dates r.2 (mem_values hr)).1.trans (h.dates r.2 (mem_values hr)).2) hpub
  · refine ⟨r'.2, mem_values_insert.mpr (Or.inl ?_), rfl, le_rfl⟩
    rw [hdate.entries]
    refine mem_values (List.mem_filter.mpr ⟨hr', ?_⟩)
    simp [hsame]

/-- The entry of a key is refreshed. -/
theorem refresh_entry (hclock : Monotone p.clock) (h : Indexed p x) (expire date : ℕ) (hr : r ∈ x.entries.rows)
    (hpub : r.2.pub ≤ date) (hdate : date ≤ lastTime p x) :
    Indexed p (refreshEntry p r.1 expire date SVariant.invalid x) ∧
      Later x (refreshEntry p r.1 expire date SVariant.invalid x) := by
  have hkeys := keys_update (t := x.entries) Entry.key
    (fun idx e => (idx = r.1) && sqlEqual e.cid SVariant.invalid.bind)
    (f := fun e => { e with pub := date, exp := expire, stored := lastTime p x }) fun _ => rfl
  refine ⟨⟨?_, fun e he => ?_, fun e he => ?_⟩, fun e he => ?_⟩
  · unfold refreshEntry CPayloadIndex.setEntries
    rw [hkeys]
    exact h.nodup
  · obtain ⟨r', hr', rfl⟩ := List.mem_map.mp he
    obtain ⟨r'', hr'', rfl⟩ := List.mem_map.mp hr'
    dsimp only
    split_ifs
    · exact h.bound r''.2 (mem_values hr'')
    · exact h.bound r''.2 (mem_values hr'')
  · obtain ⟨r', hr', rfl⟩ := List.mem_map.mp he
    obtain ⟨r'', hr'', rfl⟩ := List.mem_map.mp hr'
    dsimp only
    split_ifs
    · exact ⟨hdate, lastTime_le hclock x⟩
    · exact h.dates r''.2 (mem_values hr'')
  · obtain ⟨r', hr', rfl⟩ := List.mem_map.mp he
    refine ⟨_, mem_values (List.mem_map_of_mem hr'), ?_⟩
    dsimp only
    split_ifs with hcond
    · refine ⟨rfl, ?_⟩
      simp only [Bool.and_eq_true, decide_eq_true_eq] at hcond
      rw [eq_of_fst hr' hr hcond.1]
      exact hpub
    · exact ⟨rfl, le_rfl⟩

end Invariant

section Run

variable {p : Settings} {x : CPayloadIndex}

/-- What a store does to the entries: they are in order, none is lost or gets an earlier date,
and if it is refused, or an exception is thrown, they are the same. -/
structure Stores (p : Settings) (x x' : CPayloadIndex) (refused : Prop) : Prop where
  /-- The entries are in order. -/
  indexed : Indexed p x'
  /-- None is lost or gets an earlier date. -/
  later : Later x x'
  /-- They are the same. -/
  refused : refused → x'.entries = x.entries

/-- A store is not done. -/
def StoreResult.isRefused (r : StoreResult) : Prop := ∀ xid exp, r ≠ .stored xid exp

theorem stores_same (hclock : Monotone p.clock) (h : Indexed p x) {x' : CPayloadIndex}
    (hentries : x'.entries = x.entries) (hticks : x.ticks ≤ x'.ticks) (refused : Prop) : Stores p x x' refused :=
  ⟨h.wait hclock hentries hticks, Later.of_entries hentries, fun _ => hentries⟩

theorem not_isRefused_stored (xid exp : ℕ) : ¬(StoreResult.stored xid exp).isRefused :=
  fun h => h xid exp rfl

variable {id : SqlValue}

/-- The payload is stored, or the entry there is gets new dates, when the entry of the key is
found and has no later date. -/
theorem stores_writeEntry (hclock : Monotone p.clock) (h : Indexed p x)
    (hid : id.isSome = true) (ttl : ℕ) (key : SVariant) (item : StoreItem) {path : String}
    (hpath : item.payload.path = some path) {date reld : ℕ} (hdate : date ≤ lastTime p x)
    (hreld : (findEntry id path key SVariant.invalid x).2 ≤ reld)
    (hpub : (findEntry id path key SVariant.invalid x).2 ≤ date)
    (hstored : (findEntry id path key SVariant.invalid x).1 = 0 → item.payload.data.isSome = true) :
    let written := writeEntry p id ttl (some key) item
      (findEntry id path key SVariant.invalid x).1 date reld x
    Stores p x written.1 written.2.isRefused := by
  unfold writeEntry
  rw [hpath]
  dsimp only
  rcases findEntry_cases h id path key with ⟨hfind, hnew⟩ | ⟨r, hfind, hr, hkey⟩
  · rw [hfind] at hstored ⊢
    rw [if_pos (hstored rfl), if_neg (not_not.mpr rfl)]
    have hset := h.setEntry hclock hid item.payload path reld (date + ttl) key hnew
    refine ⟨hset, fun e he => ⟨e, mem_values_insert.mpr (Or.inl ?_), rfl, le_rfl⟩,
      fun hrefused => absurd hrefused (not_isRefused_stored _ _)⟩
    rw [(dated_publishDate hclock reld x).entries]
    exact he
  · rw [hfind] at hreld hpub ⊢
    split_ifs with hdata hzero
    · have hreplaced := replace_entry hclock h hid item.payload path reld (date + ttl) key hr hkey hreld
      exact ⟨hreplaced.1, hreplaced.2, fun hrefused => absurd hrefused (not_isRefused_stored _ _)⟩
    · exact absurd (row_ne_zero hr) hzero
    · have hrefreshed := refresh_entry hclock h (date + ttl) date hr hpub hdate
      exact ⟨hrefreshed.1, hrefreshed.2, fun hrefused => absurd hrefused (not_isRefused_stored _ _)⟩

theorem findEntry_congr {x' : CPayloadIndex} (h : x'.entries = x.entries) (id : SqlValue)
    (path : String) (key cid : SVariant) : findEntry id path key cid x' = findEntry id path key cid x := by
  unfold findEntry
  rw [h]

theorem findEntry_past (h : Indexed p x) (id : SqlValue) (path : String) (key : SVariant) :
    (findEntry id path key SVariant.invalid x).2 ≤ p.clock x.ticks := by
  rcases findEntry_cases h id path key with ⟨hfind, -⟩ | ⟨r, hfind, hr, -⟩
  · rw [hfind]
    exact Nat.zero_le _
  · rw [hfind]
    exact (h.dates r.2 (mem_values hr)).1.trans (h.dates r.2 (mem_values hr)).2

section

variable (hclock : Monotone p.clock)

include hclock

/-- A store with an access key. -/
theorem stores_storeItem (h : Indexed p x) (hid : id.isSome = true) (ttl : ℕ) (key : SVariant) (item : StoreItem) :
    Stores p x (storeItem p id ttl (some key) item x).1 (storeItem p id ttl (some key) item x).2.isRefused := by
  unfold storeItem
  split
  · exact stores_same hclock h rfl le_rfl _
  · exact stores_same hclock h rfl le_rfl _
  · cases hpath : item.payload.path with
    | none =>
      unfold oldEntry
      rw [hpath]
      exact stores_same hclock h rfl le_rfl _
    | some path =>
      unfold oldEntry
      rw [hpath]
      dsimp only [Option.map_some]
      split_ifs with hmissing
      · exact stores_same hclock h rfl le_rfl _
      · split
        · exact stores_same hclock h rfl le_rfl _
        · next reld hreld =>
          have hdated := dated_releaseDate hclock reld x
          have hpast := findEntry_past h id path key
          unfold dateEntry
          dsimp only
          generalize releaseDate p reld x = date at hdated
          have hsame := stores_same hclock h hdated.entries hdated.ticks.le
          split_ifs with hlt
          · exact hsame _
          · have hpub := Nat.not_lt.mp hlt
            have hfind := findEntry_congr hdated.entries id path key SVariant.invalid
            rw [← hfind] at hpub hmissing hpast ⊢
            have hwritten := stores_writeEntry hclock (hsame True).indexed hid ttl key item hpath
              hdated.le (hdated.le_reld hpast hpub) hpub fun hzero => by
                simpa [hzero, Option.isSome_iff_ne_none] using hmissing
            exact ⟨hwritten.indexed, (hsame True).later.trans hwritten.later,
              fun hrefused => (hwritten.refused hrefused).trans hdated.entries⟩

/-- The stores of a request with an access key. -/
theorem stores_storeItems (hid : id.isSome = true)
    (ttl : ℕ) (key : SVariant) (items : List StoreItem) (h : Indexed p x) :
    Stores p x (storeItems p id ttl (some key) items x).1
      (∀ r ∈ (storeItems p id ttl (some key) items x).2, r.isRefused) := by
  induction items generalizing x with
  | nil => exact stores_same hclock h rfl le_rfl _
  | cons item rest ih =>
    have hone := stores_storeItem hclock h hid ttl key item
    rw [storeItems]
    dsimp only
    split_ifs with hthrown
    · exact ⟨hone.indexed, hone.later, fun hall => hone.refused (hall _ (List.mem_singleton_self _))⟩
    · have hothers := ih hone.indexed
      refine ⟨hothers.indexed, hone.later.trans hothers.later, fun hall => ?_⟩
      rw [hothers.refused fun r hr => hall r (List.mem_cons_of_mem _ hr)]
      exact hone.refused (hall _ List.mem_cons_self)

/-- A store request with an access key. -/
theorem stores_doStore (h : Indexed p x) (hid : id.isSome = true) (items : List StoreItem) (ttl : ℕ) (key : SVariant) :
    Stores p x (doStore p id items ttl (some key) x).1
      (∀ r ∈ (doStore p id items ttl (some key) x).2.results, r.isRefused) := by
  unfold doStore
  dsimp only
  split_ifs
  · exact stores_same hclock h rfl le_rfl _
  · exact stores_storeItems hclock hid _ key items h
  · have hstored := stores_storeItems hclock hid (limitTTL p ttl) key items h
    refine ⟨hstored.indexed.wait hclock rfl (Nat.le_succ _), hstored.later, hstored.refused⟩

theorem Indexed.step (h : Indexed p x) (op : Op) : Indexed p (step p x op) := by
  cases op with
  | store id items ttl key =>
    exact (stores_doStore hclock h (isSome_bindBlob _ _) items ttl key).indexed
  | cleanUp =>
    have hwait : Indexed p (getTime p x).2 := h.wait hclock rfl (Nat.le_succ _)
    exact hwait.delete _

theorem Indexed.run (h : Indexed p x) (ops : List Op) : Indexed p (run p x ops) := by
  induction ops generalizing x with
  | nil => exact h
  | cons op ops ih => exact ih (h.step hclock op)

/-- An entry that is still there after a step has no earlier date. -/
theorem pub_step (h : Indexed p x) (op : Op) {e e' : Entry}
    (he : e ∈ x.entries.values) (he' : e' ∈ (PayloadIndex.step p x op).entries.values)
    (hkey : e'.key = e.key) : e.pub ≤ e'.pub := by
  cases op with
  | store id items ttl key =>
    have hstored := stores_doStore hclock h (isSome_bindBlob (some id) id.length) items ttl key
    obtain ⟨e'', he'', hkey', hpub⟩ := hstored.later e he
    have hsame : e'' = e' :=
      List.inj_on_of_nodup_map hstored.indexed.nodup he'' he' (hkey'.trans hkey.symm)
    rw [← hsame]
    exact hpub
  | cleanUp =>
    have hold : e' ∈ x.entries.values := of_mem_values_delete he'
    exact (List.inj_on_of_nodup_map h.nodup he hold hkey.symm).symm ▸ le_rfl

end

/-- There is an entry with a key at every moment of a run. -/
def Persists (p : Settings) (key : SqlValue × String × SqlValue) (x : CPayloadIndex) (ops : List Op) : Prop :=
  ∀ n ≤ ops.length, key ∈ (PayloadIndex.run p x (ops.take n)).entries.values.map Entry.key

/-- An entry that is there all the time has no earlier date at the end. -/
theorem pub_run (hclock : Monotone p.clock) (ops : List Op) (h : Indexed p x) {e e' : Entry}
    (he : e ∈ x.entries.values) (hpersists : Persists p e.key x ops)
    (he' : e' ∈ (PayloadIndex.run p x ops).entries.values) (hkey : e'.key = e.key) : e.pub ≤ e'.pub := by
  induction ops generalizing x e with
  | nil => exact (List.inj_on_of_nodup_map h.nodup he he' hkey.symm).symm ▸ le_rfl
  | cons op ops ih =>
    obtain ⟨e'', he'', hkey'⟩ := List.mem_map.mp (hpersists 1 (Nat.succ_le_succ (Nat.zero_le _)))
    rw [List.take_succ_cons, List.take_zero] at he''
    refine (pub_step hclock h op he he'' hkey').trans ?_
    refine ih (h.step hclock op) he'' ?_ he' (hkey.trans hkey'.symm)
    rw [hkey']
    exact fun n hn => hpersists (n + 1) (Nat.succ_le_succ hn)

/-- In every run of store requests with access keys and clean-ups there is at most one entry for
a target, a path and an access key, its publication date is not after the time of storing, and
does not go back as long as the entry is there; and a request that is refused, or all of whose
stores are, leaves the entries as they are, as does every single store that is refused. -/
theorem run_entries (p : Settings) (hclock : Monotone p.clock) (ops : List Op) :
    let x := PayloadIndex.run p CPayloadIndex.new ops
    (x.entries.values.map Entry.key).Nodup ∧ (∀ e ∈ x.entries.values, e.pub ≤ e.stored) ∧
      (∀ more, ∀ e ∈ x.entries.values, ∀ e' ∈ (PayloadIndex.run p x more).entries.values,
        e'.key = e.key → Persists p e.key x more → e.pub ≤ e'.pub) ∧
      (∀ id items ttl key, (∀ r ∈ (doStore p (bindBlob (some id) id.length) items ttl (some key) x).2.results,
          r.isRefused) → (PayloadIndex.step p x (.store id items ttl key)).entries = x.entries) ∧
      (∀ id items ttl key item,
        let y := (storeItems p (bindBlob (some id) id.length) ttl (some key) items x).1
        (storeItem p (bindBlob (some id) id.length) ttl (some key) item y).2.isRefused →
          (storeItem p (bindBlob (some id) id.length) ttl (some key) item y).1.entries = y.entries) := by
  have hrun := (indexed_new p).run hclock ops
  refine ⟨hrun.nodup, fun e he => (hrun.dates e he).1, fun more e he e' he' hkey hpersists => ?_,
    fun id items ttl key hrefused => ?_, fun id items ttl key item hrefused => ?_⟩
  · exact pub_run hclock more hrun he hpersists he' hkey
  · exact (stores_doStore hclock hrun (isSome_bindBlob _ _) items ttl key).refused hrefused
  · have hitems := stores_storeItems hclock (isSome_bindBlob (some id) id.length) ttl key items hrun
    exact (stores_storeItem hclock hitems.indexed (isSome_bindBlob _ _) ttl key item).refused hrefused

/-- The settings of the example, where time passes by one with each call, a key has eight bytes
and all signatures are valid. -/
def exampleSettings : Settings := ⟨fun n => 100 + n, fun key => key.size = 8, fun _ _ => some true, 50, 20⟩

/-- A store at the time 100, a refresh, a replay of the store, and a clean-up. -/
def exampleRun : List Op :=
  let key : SVariant := ⟨some [1, 2, 3, 4, 5, 6, 7, 8], 8⟩
  [.store [7] [⟨1, ⟨some "a", some 90, some [5]⟩⟩] 0 key,
    .store [7] [⟨2, ⟨some "a", some 95, none⟩⟩, ⟨3, ⟨some "a", some 90, some [5]⟩⟩] 0 key, .cleanUp]

/-- A run with a store, a refresh and a replay. -/
theorem run_entries_example :
    let x := PayloadIndex.run exampleSettings CPayloadIndex.new exampleRun
    (x.entries.values.map Entry.pub = [95]) ∧ (x.entries.values.map Entry.key).Nodup :=
  ⟨by decide, (run_entries exampleSettings (fun _ _ hle => Nat.add_le_add_left hle 100) exampleRun).1⟩

end Run

end NeoLoader.PayloadIndex
