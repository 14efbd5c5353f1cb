import NeoLoader.WideStrings

/-!
# Search queries of servers

A query is written in prefix notation: an operator stands before its two operands. The criteria of a search are joined
to its tree by operators, which are counted in two ways.
-/

namespace NeoLoader.SearchTree

open ByteReader MuleTags
open WideStrings (rawString)

section Code

/-- The operators of `SSearchTree::ESearchTermType`. -/
inductive ESearchTermType where
  | AND
  | OR
  /-- `NAND`, the first and not the second. -/
  | NAND

/-- `SSearchTree`, or no tree. -/
inductive SSearchTree where
  | null
  /-- Words. -/
  | string (Strings : List QString)
  /-- An operator. -/
  | node (type : ESearchTermType) (Left Right : SSearchTree)

structure SSearchRoot where
  pSearchTree : SSearchTree
  typeText : QString
  extension : QString
  minSize : UInt64
  maxSize : UInt64
  availability : UInt32

def ED2KFTSTR_PROGRAM : QString := [80, 114, 111]

def ED2KFTSTR_ARCHIVE : QString := [65, 114, 99]

def ED2KFTSTR_CDIMAGE : QString := [73, 115, 111]

def FT_FILESIZE : ℕ := 0x02

def FT_FILETYPE : ℕ := 0x03

def FT_FILEFORMAT : ℕ := 0x04

def FT_SOURCES : ℕ := 0x15

/-- The encoding of texts. -/
def encoding (bSupportsUnicode : Bool) : EStrSet := if bSupportsUnicode then .eUtf8 else .eAscii

/-- `WriteAND`, `WriteOR` and `WriteNOT`. -/
def writeOperator : ESearchTermType → List UInt8
  | .AND => [0, 0]
  | .OR => [0, 1]
  | .NAND => [0, 2]

def writeStrings (Value : List QString) (set : EStrSet) : List UInt8 :=
  1 :: writeString (List.intercalate [32] Value) set 2

/-- `WriteParam` with a text. -/
def writeTextParam (TagID : ℕ) (Value : QString) (set : EStrSet) : List UInt8 :=
  2 :: (writeString Value set 2 ++ (littleEndian 2 1 ++ littleEndian 1 TagID))

/-- `WriteParam` with a number. -/
def writeParam (bSupports64bit : Bool) (TagID uOperator Value : ℕ) : List UInt8 :=
  (if 0xFFFFFFFF < Value ∧ bSupports64bit then 8 :: littleEndian 8 Value
    else 3 :: littleEndian 4 (if 0xFFFFFFFF < Value then 0xFFFFFFFF else Value)) ++
      (littleEndian 1 uOperator ++ (littleEndian 2 1 ++ littleEndian 1 TagID))

def writeTree (set : EStrSet) : SSearchTree → List UInt8
  | .null => []
  | .string Strings => writeStrings Strings set
  | .node type Left Right => writeOperator type ++ (writeTree set Left ++ writeTree set Right)

/-- `iParameterTotal`, without the strings. -/
def iParameterTotal (root : SSearchRoot) : ℕ :=
  (if root.typeText ≠ [] then 1 else 0) + (if 0 < root.minSize then 1 else 0) + (if 0 < root.maxSize then 1 else 0) +
    (if 0 < root.availability then 1 else 0) + if root.extension ≠ [] then 1 else 0

/-- `typeText` as servers know it. -/
def serverType (typeText : QString) : QString :=
  if typeText = ED2KFTSTR_ARCHIVE then ED2KFTSTR_PROGRAM
  else if typeText = ED2KFTSTR_CDIMAGE then ED2KFTSTR_PROGRAM
  else typeText

/-- The parameters in their order, and whether they are given. -/
def parameters (root : SSearchRoot) (typeText : QString) (bSupports64bit : Bool) (set : EStrSet) :
    List (Bool × List UInt8) :=
  [(typeText ≠ [], writeTextParam FT_FILETYPE typeText .eAscii),
    (0 < root.minSize, writeParam bSupports64bit FT_FILESIZE 1 root.minSize.toNat),
    (0 < root.maxSize, writeParam bSupports64bit FT_FILESIZE 2 root.maxSize.toNat),
    (0 < root.availability, writeParam bSupports64bit FT_SOURCES 1 root.availability.toNat),
    (root.extension ≠ [], writeTextParam FT_FILEFORMAT root.extension set)]

/-- The parameters of a plain search, each but the last one behind an operator. -/
def writeSeries (iParameterTotal : ℕ) : ℕ → List (Bool × List UInt8) → List UInt8
  | _, [] => []
  | iParameterCount, (given, bytes) :: rest =>
    if given then
      (if iParameterCount + 1 < iParameterTotal then writeOperator .AND else []) ++
        (bytes ++ writeSeries iParameterTotal (iParameterCount + 1) rest)
    else writeSeries iParameterTotal iParameterCount rest

/-- The operators of a search with a boolean tree. -/
def writeOperators (iParameterTotal : ℕ) : ℕ → List Bool → List UInt8
  | _, [] => []
  | iParameterCount, given :: rest =>
    if given then
      (if iParameterCount + 1 < iParameterTotal then writeOperator .AND else []) ++
        writeOperators iParameterTotal (iParameterCount + 1) rest
    else writeOperators iParameterTotal iParameterCount rest

/-- `WriteSearchTree`, or nothing if there is no tree to look at. -/
def writeSearchTree (root : SSearchRoot) (bSupports64bit bSupportsUnicode : Bool) : Option (List UInt8) :=
  let set := encoding bSupportsUnicode
  match root.pSearchTree with
  | .null => none
  | .string Strings =>
    let total := iParameterTotal root + if Strings ≠ [] then 1 else 0
    some (writeSeries total 0
      ((Strings ≠ [], writeStrings Strings set) :: parameters root (serverType root.typeText) bSupports64bit set))
  | .node type Left Right =>
    some (writeOperators (iParameterTotal root) 0
      [root.extension ≠ [], 0 < root.availability, 0 < root.maxSize, 0 < root.minSize, serverType root.typeText ≠ []] ++
        (writeTree set (.node type Left Right) ++
          (parameters root root.typeText bSupports64bit set).flatMap fun p => if p.1 then p.2 else []))

end Code

section Terms

/-- An operand of a query. -/
inductive Operand where
  /-- Words in the name. -/
  | text (raw : List UInt8)
  /-- A property with a text. -/
  | textParam (tag raw : List UInt8)
  /-- A property compared with a number. -/
  | param (tag : List UInt8) (uOperator value : ℕ)

/-- A query as a server sees it. -/
inductive Term where
  /-- An operand. -/
  | operand (o : Operand)
  /-- An operator. -/
  | node (type : ESearchTermType) (l r : Term)

/-- A text with its length. -/
def lengthText (raw : List UInt8) : List UInt8 := littleEndian 2 raw.length ++ raw

/-- The bytes of an operand. -/
def Operand.bytes : Operand → List UInt8
  | text raw => 1 :: lengthText raw
  | textParam tag raw => 2 :: (lengthText raw ++ lengthText tag)
  | param tag uOperator value =>
    (if 0xFFFFFFFF < value then 8 :: littleEndian 8 value else 3 :: littleEndian 4 value) ++
      (littleEndian 1 uOperator ++ lengthText tag)

/-- The bytes of a query in prefix notation. -/
def Term.bytes : Term → List UInt8
  | operand o => o.bytes
  | node type l r => writeOperator type ++ (l.bytes ++ r.bytes)

/-- A text is read after its length. -/
def readText : Reader (List UInt8) := do
  let n ← readNumber 2
  readBytes n

/-- An operand is read after its kind. -/
def readOperand : ℕ → Reader Operand
  | 1 => do return .text (← readText)
  | 2 => do
    let raw ← readText
    return .textParam (← readText) raw
  | 3 => do
    let value ← readNumber 4
    let uOperator ← readNumber 1
    return .param (← readText) uOperator value
  | 8 => do
    let value ← readNumber 8
    let uOperator ← readNumber 1
    return .param (← readText) uOperator value
  | _ => failure

/-- The operator with a number. -/
def operatorOf : ℕ → Option ESearchTermType
  | 0 => some .AND
  | 1 => some .OR
  | 2 => some .NAND
  | _ => none

/-- A query is read, so many operators deep. -/
def readTerm : ℕ → Reader Term
  | 0 => failure
  | fuel + 1 => do
    let kind ← readNumber 1
    if kind = 0 then
      let number ← readNumber 1
      match operatorOf number with
      | none => failure
      | some type =>
        let l ← readTerm fuel
        let r ← readTerm fuel
        return .node type l r
    else return .operand (← readOperand kind)

/-- What a query says of a file, if `holds` are the operands that are true of it. -/
def Term.eval (holds : Operand → Prop) : Term → Prop
  | operand o => holds o
  | node .AND l r => l.eval holds ∧ r.eval holds
  | node .OR l r => l.eval holds ∨ r.eval holds
  | node .NAND l r => l.eval holds ∧ ¬r.eval holds

/-- The operands in their order. -/
def Term.operands : Term → List Operand
  | operand o => [o]
  | node _ l r => l.operands ++ r.operands

/-- The query that a tree stands for, if each operator has its operands. -/
def SSearchTree.term (set : EStrSet) : SSearchTree → Option Term
  | null => none
  | string Strings => some (.operand (.text (rawString (List.intercalate [32] Strings) set)))
  | node type Left Right => do return .node type (← Left.term set) (← Right.term set)

/-- A number as it is sent. -/
def clamped (bSupports64bit : Bool) (value : ℕ) : ℕ :=
  if 0xFFFFFFFF < value ∧ ¬bSupports64bit then 0xFFFFFFFF else value

/-- The criteria of a search, and whether they are given. -/
def criteria (root : SSearchRoot) (typeText : QString) (bSupports64bit : Bool) (set : EStrSet) :
    List (Bool × Operand) :=
  [(typeText ≠ [], .textParam (littleEndian 1 FT_FILETYPE) (rawString typeText .eAscii)),
    (0 < root.minSize, .param (littleEndian 1 FT_FILESIZE) 1 (clamped bSupports64bit root.minSize.toNat)),
    (0 < root.maxSize, .param (littleEndian 1 FT_FILESIZE) 2 (clamped bSupports64bit root.maxSize.toNat)),
    (0 < root.availability, .param (littleEndian 1 FT_SOURCES) 1 (clamped bSupports64bit root.availability.toNat)),
    (root.extension ≠ [], .textParam (littleEndian 1 FT_FILEFORMAT) (rawString root.extension set))]

/-- What is given. -/
def given {α : Type*} (l : List (Bool × α)) : List α := (l.filter (·.1)).map (·.2)

/-- An operand that does not ask for an empty text, which is in every name. -/
def asks : Operand → Bool
  | .text [] => false
  | _ => true

/-- The bytes are one complete query, with the operands of the tree and the given criteria, that says what they say
together. -/
def SearchRight (root : SSearchRoot) (bSupports64bit bSupportsUnicode : Bool) : Prop :=
  let set := encoding bSupportsUnicode
  let asked := given (criteria root (serverType root.typeText) bSupports64bit set)
  ∃ bytes tree t, writeSearchTree root bSupports64bit bSupportsUnicode = some bytes ∧
    root.pSearchTree.term set = some tree ∧ readTerm (bytes.length + 1) bytes = some (t, []) ∧
    t.operands.filter asks = (tree.operands ++ asked).filter asks ∧
    ∀ holds : Operand → Prop, holds (.text []) → (t.eval holds ↔ tree.eval holds ∧ ∀ o ∈ asked, holds o)

/-- A text whose length can be written. -/
def Short : Operand → Prop
  | .text raw => raw.length < 2 ^ 16
  | .textParam _ raw => raw.length < 2 ^ 16
  | .param _ _ _ => True

/-- A plain search has a word or a criterion, and a search with a boolean tree has no criteria. -/
def Complete (root : SSearchRoot) : Prop :=
  match root.pSearchTree with
  | .null => False
  | .string Strings => Strings ≠ [] ∨ iParameterTotal root ≠ 0
  | .node _ _ _ => iParameterTotal root = 0

end Terms

section Reading

/-- An operand that can be read. -/
def Operand.Fits : Operand → Prop
  | text raw => raw.length < 2 ^ 16
  | textParam tag raw => raw.length < 2 ^ 16 ∧ tag.length < 2 ^ 16
  | param tag uOperator value => tag.length < 2 ^ 16 ∧ uOperator < 256 ∧ value < 2 ^ 64

theorem reads_text {raw : List UInt8} (h : raw.length < 2 ^ 16) : Reads readText (lengthText raw) raw :=
  reads_bind (reads_number (by simpa using h)) (reads_bytes raw)

theorem reads_param {n value uOperator : ℕ} {tag : List UInt8} (hvalue : value < 256 ^ n) (hop : uOperator < 256)
    (htag : tag.length < 2 ^ 16) : Reads (do
      let value ← readNumber n
      let uOperator ← readNumber 1
      return Operand.param (← readText) uOperator value)
    (littleEndian n value ++ (littleEndian 1 uOperator ++ lengthText tag)) (.param tag uOperator value) :=
  reads_bind (reads_number hvalue) (reads_bind (reads_number (by simpa using hop)) (reads_bind_pure (reads_text htag)))

theorem reads_operand {o : Operand} (h : o.Fits) {fuel : ℕ} : Reads (readTerm (fuel + 1)) o.bytes (.operand o) := by
  have hkind : ∀ (kind : ℕ) {bytes : List UInt8}, 0 < kind → kind < 256 → Reads (readOperand kind) bytes o →
      Reads (readTerm (fuel + 1)) (littleEndian 1 kind ++ bytes) (.operand o) := by
    intro kind bytes hpos hlt hread
    refine reads_bind (reads_number (by simpa using hlt)) ?_
    simpa [hpos.ne'] using reads_bind_pure (f := Term.operand) hread
  cases o with
  | text raw => exact hkind 1 (by omega) (by omega) (reads_bind_pure (reads_text h))
  | textParam tag raw =>
    exact hkind 2 (by omega) (by omega) (reads_bind (reads_text h.1) (reads_bind_pure (reads_text h.2)))
  | param tag uOperator value =>
    obtain ⟨htag, hop, hvalue⟩ := h
    rw [Operand.bytes]
    split_ifs with hwide
    · exact hkind 8 (by omega) (by omega) (reads_param (by omega) hop htag)
    · exact hkind 3 (by omega) (by omega) (reads_param (by omega) hop htag)

/-- A query is read from its bytes. -/
theorem reads_term {t : Term} (h : ∀ o ∈ t.operands, o.Fits) {fuel : ℕ} (hfuel : t.bytes.length < fuel) :
    Reads (readTerm fuel) t.bytes t := by
  induction t generalizing fuel with
  | operand o =>
    obtain ⟨fuel, rfl⟩ := Nat.exists_eq_succ_of_ne_zero (by omega : fuel ≠ 0)
    exact reads_operand (h o (by simp [Term.operands]))
  | node type l r ihl ihr =>
    obtain ⟨fuel, rfl⟩ := Nat.exists_eq_succ_of_ne_zero (by omega : fuel ≠ 0)
    simp only [Term.operands, List.mem_append] at h
    have hlength : 2 + (l.bytes.length + r.bytes.length) < fuel + 1 := by
      have htwo : (writeOperator type).length = 2 := by cases type <;> rfl
      simpa [Term.bytes, htwo] using hfuel
    have hright := reads_bind_pure (f := Term.node type l) (ihr (fun o ho => h o (Or.inr ho)) (by omega : _ < fuel))
    have hboth : Reads (do
        let l ← readTerm fuel
        let r ← readTerm fuel
        return Term.node type l r) (l.bytes ++ r.bytes) (.node type l r) :=
      reads_bind (ihl (fun o ho => h o (Or.inl ho)) (by omega)) hright
    have hkind : ∀ number < 256, operatorOf number = some type →
        Reads (readTerm (fuel + 1)) (littleEndian 1 0 ++ (littleEndian 1 number ++ (l.bytes ++ r.bytes)))
          (.node type l r) := fun number hlt htype =>
      reads_bind (reads_number (by omega))
        (reads_bind (reads_number (by simpa using hlt)) (by simpa [htype] using hboth))
    cases type with
    | AND => exact hkind 0 (by omega) rfl
    | OR => exact hkind 1 (by omega) rfl
    | NAND => exact hkind 2 (by omega) rfl

variable {s rest : List UInt8}

theorem bind_eq_some {β γ : Type} {p : Reader β} {f : β → Reader γ} {w : γ} :
    (p >>= f) s = some (w, rest) ↔ ∃ v s', p s = some (v, s') ∧ f v s' = some (w, rest) := by
  change (p s).bind (fun r => f r.1 r.2) = _ ↔ _
  simp [Option.bind_eq_some_iff]

theorem readText_short {s rest raw : List UInt8} (h : readText s = some (raw, rest)) : raw.length < 2 ^ 16 := by
  obtain ⟨n, s', hn, hraw⟩ := bind_eq_some.mp h
  obtain ⟨bytes, s'', hbytes, hsame⟩ := bind_eq_some.mp hn
  rw [readBytes] at hbytes hraw
  split_ifs at hbytes hraw with htwo hlength
  obtain ⟨rfl, rfl⟩ := Prod.mk.inj (Option.some.inj hbytes)
  obtain ⟨rfl, rfl⟩ := Prod.mk.inj (Option.some.inj hsame)
  obtain ⟨rfl, -⟩ := Prod.mk.inj (Option.some.inj hraw)
  have hlt := ofLittleEndian_lt (s.take 2)
  rw [List.length_take_of_le htwo] at hlt
  simpa [List.length_take_of_le hlength] using hlt

theorem readOperand_short {kind : ℕ} {o : Operand} (h : readOperand kind s = some (o, rest)) : Short o := by
  unfold readOperand at h
  split at h
  · obtain ⟨raw, s', hraw, hsame⟩ := bind_eq_some.mp h
    obtain ⟨rfl, -⟩ := Prod.mk.inj (Option.some.inj hsame)
    exact readText_short hraw
  · obtain ⟨raw, s', hraw, h⟩ := bind_eq_some.mp h
    obtain ⟨tag, s'', -, hsame⟩ := bind_eq_some.mp h
    obtain ⟨rfl, -⟩ := Prod.mk.inj (Option.some.inj hsame)
    exact readText_short hraw
  · obtain ⟨value, s', -, h⟩ := bind_eq_some.mp h
    obtain ⟨uOperator, s'', -, h⟩ := bind_eq_some.mp h
    obtain ⟨tag, s''', -, hsame⟩ := bind_eq_some.mp h
    obtain ⟨rfl, -⟩ := Prod.mk.inj (Option.some.inj hsame)
    trivial
  · obtain ⟨value, s', -, h⟩ := bind_eq_some.mp h
    obtain ⟨uOperator, s'', -, h⟩ := bind_eq_some.mp h
    obtain ⟨tag, s''', -, hsame⟩ := bind_eq_some.mp h
    obtain ⟨rfl, -⟩ := Prod.mk.inj (Option.some.inj hsame)
    trivial
  · exact absurd h nofun

theorem readTerm_short {fuel : ℕ} {t : Term} (h : readTerm fuel s = some (t, rest)) : ∀ o ∈ t.operands, Short o := by
  induction fuel generalizing s rest t with
  | zero => exact absurd h nofun
  | succ fuel ih =>
    obtain ⟨kind, s', -, h⟩ := bind_eq_some.mp h
    split_ifs at h with hzero
    · obtain ⟨number, s'', -, h⟩ := bind_eq_some.mp h
      cases htype : operatorOf number with
      | none => exact absurd (htype ▸ h) nofun
      | some type =>
        rw [htype] at h
        obtain ⟨l, sl, hl, h⟩ := bind_eq_some.mp h
        obtain ⟨r, sr, hr, hsame⟩ := bind_eq_some.mp h
        obtain ⟨rfl, -⟩ := Prod.mk.inj (Option.some.inj hsame)
        exact fun o ho => (List.mem_append.mp ho).elim (ih hl o) (ih hr o)
    · obtain ⟨o, s'', ho, hsame⟩ := bind_eq_some.mp h
      obtain ⟨rfl, -⟩ := Prod.mk.inj (Option.some.inj hsame)
      simpa [Term.operands] using readOperand_short ho

end Reading

section Writing

variable {root : SSearchRoot} {set : EStrSet} {bSupports64bit : Bool}

theorem writeString_eq (Value : QString) (set : EStrSet) :
    writeString Value set 2 = lengthText (rawString Value set) := by
  cases set <;> rfl

theorem writeStrings_eq (Value : List QString) (set : EStrSet) :
    writeStrings Value set = (Operand.text (rawString (List.intercalate [32] Value) set)).bytes := by
  rw [writeStrings, writeString_eq]
  rfl

theorem writeTextParam_eq (TagID : ℕ) (Value : QString) (set : EStrSet) :
    writeTextParam TagID Value set = (Operand.textParam (littleEndian 1 TagID) (rawString Value set)).bytes := by
  rw [writeTextParam, writeString_eq]
  rfl

theorem writeParam_eq (bSupports64bit : Bool) (TagID uOperator Value : ℕ) :
    writeParam bSupports64bit TagID uOperator Value =
      (Operand.param (littleEndian 1 TagID) uOperator (clamped bSupports64bit Value)).bytes := by
  unfold writeParam clamped Operand.bytes
  by_cases hwide : 0xFFFFFFFF < Value <;> cases bSupports64bit <;> simp [hwide, lengthText]

theorem parameters_eq (root : SSearchRoot) (typeText : QString) (bSupports64bit : Bool) (set : EStrSet) :
    parameters root typeText bSupports64bit set =
      (criteria root typeText bSupports64bit set).map fun c => (c.1, c.2.bytes) := by
  simp only [parameters, criteria, writeTextParam_eq, writeParam_eq, List.map_cons, List.map_nil]

variable (typeText : QString)

theorem length_given (h : typeText = [] ↔ root.typeText = []) :
    (given (criteria root typeText bSupports64bit set)).length = iParameterTotal root := by
  simp only [given, criteria, iParameterTotal, List.length_map, List.filter_cons, List.filter_nil, decide_eq_true_eq,
    ne_eq, h]
  split_ifs <;> rfl

theorem serverType_eq_nil : serverType typeText = [] ↔ typeText = [] := by
  unfold serverType
  split_ifs with harchive himage
  · simp [harchive, ED2KFTSTR_PROGRAM, ED2KFTSTR_ARCHIVE]
  · simp [himage, ED2KFTSTR_PROGRAM, ED2KFTSTR_CDIMAGE]
  · rfl

/-- Operands that are joined. -/
def joined (o : Operand) : List Operand → Term
  | [] => .operand o
  | o' :: rest => .node .AND (.operand o) (joined o' rest)

theorem operands_joined (o : Operand) (os : List Operand) : (joined o os).operands = o :: os := by
  induction os generalizing o with
  | nil => rfl
  | cons o' os ih => simp [joined, Term.operands, ih]

theorem eval_joined (holds : Operand → Prop) (o : Operand) (os : List Operand) :
    (joined o os).eval holds ↔ ∀ o' ∈ o :: os, holds o' := by
  induction os generalizing o with
  | nil => simp [joined, Term.eval]
  | cons o' os ih => simp [joined, Term.eval, ih]

theorem writeSeries_none {l : List (Bool × Operand)} (h : given l = []) (total count : ℕ) :
    writeSeries total count (l.map fun c => (c.1, c.2.bytes)) = [] := by
  have hall : ∀ c ∈ l, c.1 = false := by simpa [given] using h
  clear h
  induction l with
  | nil => rfl
  | cons c l ih =>
    obtain ⟨hc, hl⟩ := List.forall_mem_cons.mp hall
    simpa [writeSeries, hc] using ih hl

/-- A plain search is written with as many operators as it needs. -/
theorem writeSeries_eq {l : List (Bool × Operand)} {o : Operand} {os : List Operand} (h : given l = o :: os)
    {total count : ℕ} (htotal : count + (os.length + 1) = total) :
    writeSeries total count (l.map fun c => (c.1, c.2.bytes)) = (joined o os).bytes := by
  induction l generalizing o os count with
  | nil => simp [given] at h
  | cons c l ih =>
    obtain ⟨b, o'⟩ := c
    cases b with
    | false => simpa [writeSeries] using ih (by simpa [given] using h) htotal
    | true =>
      obtain ⟨rfl, hrest⟩ : o' = o ∧ given l = os := by simpa [given] using h
      cases os with
      | nil =>
        simp only [List.length_nil] at htotal
        have hlast : ¬count + 1 < total := by omega
        simp [writeSeries, writeSeries_none hrest, hlast, joined, Term.bytes]
      | cons o'' os =>
        simp only [List.length_cons] at htotal
        have hmore : count + 1 < total := by omega
        simp [writeSeries, hmore, ih hrest (by omega : count + 1 + (os.length + 1) = total), joined, Term.bytes]

theorem writeOperators_none {l : List Bool} (h : l.countP (·) = 0) (total count : ℕ) :
    writeOperators total count l = [] := by
  have hall : ∀ b ∈ l, b = false := by simpa [List.countP_eq_zero] using h
  clear h
  induction l with
  | nil => rfl
  | cons b l ih =>
    obtain ⟨hb, hl⟩ := List.forall_mem_cons.mp hall
    simpa [writeOperators, hb] using ih hl

/-- A boolean tree has an operator less in front of it than it has criteria. -/
theorem writeOperators_eq {l : List Bool} {k total count : ℕ} (hk : l.countP (·) = k + 1)
    (htotal : count + (k + 1) = total) :
    writeOperators total count l = (List.replicate k (writeOperator .AND)).flatten := by
  induction l generalizing k count with
  | nil => simp at hk
  | cons b l ih =>
    cases b with
    | false => simpa [writeOperators] using ih (by simpa using hk) htotal
    | true =>
      cases k with
      | zero =>
        have hlast : ¬count + 1 < total := by omega
        simp [writeOperators, writeOperators_none (by simpa using hk), hlast]
      | succ k =>
        have hmore : count + 1 < total := by omega
        simp [writeOperators, hmore, ih (by simpa using hk) (by omega : count + 1 + (k + 1) = total),
          List.replicate_succ]

theorem bytes_foldl (t : Term) (os : List Operand) : (os.foldl (fun t o => .node .AND t (.operand o)) t).bytes =
      (List.replicate os.length (writeOperator .AND)).flatten ++ (t.bytes ++ os.flatMap Operand.bytes) := by
  induction os generalizing t with
  | nil => simp
  | cons o os ih => simp [ih, Term.bytes, List.replicate_succ', List.append_assoc]

theorem operands_foldl (t : Term) (os : List Operand) :
    (os.foldl (fun t o => .node .AND t (.operand o)) t).operands = t.operands ++ os := by
  induction os generalizing t with
  | nil => simp
  | cons o os ih => simp [ih, Term.operands]

theorem bytes_ne_nil (o : Operand) : o.bytes ≠ [] := by
  cases o with
  | text raw => simp [Operand.bytes]
  | textParam tag raw => simp [Operand.bytes]
  | param tag uOperator value =>
    rw [Operand.bytes]
    split_ifs <;> simp

/-- A tree is written as the query that it stands for. -/
theorem writeTree_eq {tree : SSearchTree} {t : Term} (h : tree.term set = some t) : writeTree set tree = t.bytes := by
  induction tree generalizing t with
  | null => simp [SSearchTree.term] at h
  | string Strings =>
    rw [SSearchTree.term] at h
    rw [writeTree, writeStrings_eq, ← Option.some.inj h]
    rfl
  | node type Left Right ihl ihr =>
    simp only [SSearchTree.term, Option.bind_eq_bind, Option.bind_eq_some_iff, Option.pure_def, Option.some.injEq] at h
    obtain ⟨l, hl, r, hr, rfl⟩ := h
    rw [writeTree, ihl hl, ihr hr]
    rfl

/-- A criterion that is short can be read. -/
theorem fits_criteria {o : Operand} (ho : o ∈ given (criteria root typeText bSupports64bit set))
    (hshort : Short o) : o.Fits := by
  have hmin := root.minSize.toNat_lt
  have hmax := root.maxSize.toNat_lt
  have havailable := root.availability.toNat_lt
  have hclamped : ∀ value < 2 ^ 64, clamped bSupports64bit value < 2 ^ 64 := fun value hvalue => by
    unfold clamped
    split_ifs <;> omega
  obtain ⟨c, hc, rfl⟩ := List.mem_map.mp ho
  have hmem := List.mem_of_mem_filter hc
  simp only [criteria, List.mem_cons, List.not_mem_nil, or_false] at hmem
  rcases hmem with rfl | rfl | rfl | rfl | rfl
  · exact ⟨hshort, by simp⟩
  · exact ⟨by simp, by simp, hclamped _ hmin⟩
  · exact ⟨by simp, by simp, hclamped _ hmax⟩
  · exact ⟨by simp, by simp, hclamped _ (by omega)⟩
  · exact ⟨hshort, by simp⟩

/-- An operand of a tree that is short can be read. -/
theorem fits_term {tree : SSearchTree} {t : Term} (h : tree.term set = some t) {o : Operand} (ho : o ∈ t.operands)
    (hshort : Short o) : o.Fits := by
  induction tree generalizing t with
  | null => simp [SSearchTree.term] at h
  | string Strings =>
    rw [← Option.some.inj h] at ho
    rw [List.mem_singleton.mp ho] at hshort ⊢
    exact hshort
  | node type Left Right ihl ihr =>
    simp only [SSearchTree.term, Option.bind_eq_bind, Option.bind_eq_some_iff, Option.pure_def, Option.some.injEq] at h
    obtain ⟨l, hl, r, hr, rfl⟩ := h
    exact (List.mem_append.mp ho).elim (ihl hl) (ihr hr)

end Writing

section Queries

variable {root : SSearchRoot} {bSupports64bit bSupportsUnicode : Bool}

theorem countP_flags (root : SSearchRoot) : [decide (root.extension ≠ []), decide (0 < root.availability),
    decide (0 < root.maxSize), decide (0 < root.minSize), decide (serverType root.typeText ≠ [])].countP (·) =
      iParameterTotal root := by
  simp only [iParameterTotal, List.countP_cons, List.countP_nil, decide_eq_true_eq, ne_eq, serverType_eq_nil]
  omega

theorem flatMap_given (l : List (Bool × Operand)) :
    ((l.map fun c => (c.1, c.2.bytes)).flatMap fun p => if p.1 then p.2 else []) = (given l).flatMap Operand.bytes := by
  induction l with
  | nil => rfl
  | cons c l ih =>
    obtain ⟨b, o⟩ := c
    cases b <;> simpa [given] using ih

/-- A query of a right search asks for short texts. -/
theorem SearchRight.short {set : EStrSet} (hset : set = encoding bSupportsUnicode)
    (h : SearchRight root bSupports64bit bSupportsUnicode) : ∃ tree, root.pSearchTree.term set = some tree ∧
      ∀ o ∈ tree.operands ++ given (criteria root (serverType root.typeText) bSupports64bit set), Short o := by
  obtain ⟨bytes, tree, t, -, htree, hread, hsame, -⟩ := h
  subst hset
  refine ⟨tree, htree, fun o ho => ?_⟩
  by_cases hasks : asks o
  · have hmem := List.mem_filter.mpr ⟨ho, hasks⟩
    rw [← hsame] at hmem
    exact readTerm_short hread o (List.mem_of_mem_filter hmem)
  · cases o with
    | text raw =>
      cases raw with
      | nil => simp [Short]
      | cons c raw => exact absurd rfl hasks
    | textParam tag raw => exact absurd rfl hasks
    | param tag uOperator value => trivial

theorem short_typeText {typeText : QString} (h : (rawString (serverType typeText) .eAscii).length < 2 ^ 16) :
    (rawString typeText .eAscii).length < 2 ^ 16 := by
  unfold serverType at h
  split_ifs at h with harchive himage
  · simp [harchive, rawString, wStrToAscii, ED2KFTSTR_ARCHIVE]
  · simp [himage, rawString, wStrToAscii, ED2KFTSTR_CDIMAGE]
  · exact h

theorem given_cons {α : Type*} (c : Bool × α) (l : List (Bool × α)) :
    given (c :: l) = (if c.1 then [c.2] else []) ++ given l := by
  by_cases hc : c.1 <;> simp [given, hc]

/-- The criteria are short with either type. -/
theorem short_criteria {set : EStrSet}
    (h : ∀ o ∈ given (criteria root (serverType root.typeText) bSupports64bit set), Short o) :
    ∀ o ∈ given (criteria root root.typeText bSupports64bit set), Short o := by
  rw [criteria, given_cons] at h ⊢
  simp only [List.mem_append] at h ⊢
  rintro o (ho | ho)
  · by_cases hnil : root.typeText = []
    · simp [hnil] at ho
    · have hne : serverType root.typeText ≠ [] := fun heq => hnil ((serverType_eq_nil _).mp heq)
      have hmapped := h (.textParam (littleEndian 1 FT_FILETYPE) (rawString (serverType root.typeText) .eAscii))
        (Or.inl (by simp [hne]))
      simp only [ne_eq, hnil, not_false_eq_true, decide_true, if_true, List.mem_singleton] at ho
      rw [ho]
      exact short_typeText hmapped
  · exact h o (Or.inr ho)

/-- A boolean tree with criteria is followed by a criterion that belongs to no operator. -/
theorem left_over {set : EStrSet} {tree : SSearchTree} {t : Term} (htree : tree.term set = some t)
    (hsome : iParameterTotal root ≠ 0) : ∃ (t' : Term) (o : Operand),
      (∀ o' ∈ t'.operands, o' ∈ t.operands ++ given (criteria root root.typeText bSupports64bit set)) ∧
      writeOperators (iParameterTotal root) 0 [decide (root.extension ≠ []), decide (0 < root.availability),
        decide (0 < root.maxSize), decide (0 < root.minSize), decide (serverType root.typeText ≠ [])] ++
        (writeTree set tree ++ (parameters root root.typeText bSupports64bit set).flatMap fun p =>
          if p.1 then p.2 else []) = t'.bytes ++ o.bytes := by
  have hlength : (given (criteria root root.typeText bSupports64bit set)).length = iParameterTotal root :=
    length_given _ Iff.rfl
  obtain ⟨k, hk⟩ := Nat.exists_eq_succ_of_ne_zero hsome
  rw [writeOperators_eq ((countP_flags root).trans hk) (by omega), writeTree_eq htree, parameters_eq, flatMap_given]
  rcases List.eq_nil_or_concat (given (criteria root root.typeText bSupports64bit set)) with hnil | ⟨os, o, hos⟩
  · rw [hnil] at hlength
    exact absurd hlength.symm hsome
  · have hk' : os.length = k := by
      rw [hos] at hlength
      simp at hlength
      omega
    refine ⟨os.foldl (fun t o => .node .AND t (.operand o)) t, o, fun o' ho' => ?_, ?_⟩
    · rw [operands_foldl] at ho'
      rw [hos]
      simp only [List.mem_append, List.concat_eq_append] at ho' ⊢
      tauto
    · rw [bytes_foldl, hk', hos]
      simp

theorem SearchRight.complete (h : SearchRight root bSupports64bit bSupportsUnicode) : Complete root := by
  obtain ⟨tree, htree, hshort⟩ := h.short rfl
  obtain ⟨bytes, tree', t, hwrite, -, hread, -⟩ := h
  unfold Complete
  cases hroot : root.pSearchTree with
  | null => simp [hroot, SSearchTree.term] at htree
  | string Strings =>
    by_contra hnone
    obtain ⟨rfl, hzero⟩ : Strings = [] ∧ iParameterTotal root = 0 := by simpa using hnone
    have hgiven : given (criteria root (serverType root.typeText) bSupports64bit (encoding bSupportsUnicode)) = [] :=
      List.length_eq_zero_iff.mp ((length_given _ (serverType_eq_nil _)).trans hzero)
    simp only [writeSearchTree, hroot, writeSeries, parameters_eq, writeSeries_none hgiven] at hwrite
    simp at hwrite
    subst hwrite
    exact absurd hread nofun
  | node type Left Right =>
    by_contra hsome
    rw [hroot] at htree
    obtain ⟨t', o, hmem, hbytes⟩ := @left_over root bSupports64bit _ _ _ htree hsome
    have hfits : ∀ o' ∈ t'.operands, o'.Fits := fun o' ho' => (List.mem_append.mp (hmem o' ho')).elim
      (fun ht => fits_term htree ht (hshort o' (List.mem_append_left _ ht))) fun hc =>
        fits_criteria _ hc (short_criteria (fun o ho => hshort o (List.mem_append_right _ ho)) o' hc)
    simp only [writeSearchTree, hroot, Option.some.injEq, hbytes] at hwrite
    subst hwrite
    have hrest : readTerm ((t'.bytes ++ o.bytes).length + 1) (t'.bytes ++ o.bytes) = some (t', o.bytes) :=
      reads_term hfits (by rw [List.length_append]; omega) o.bytes
    exact bytes_ne_nil o (Prod.mk.inj (Option.some.inj (hrest.symm.trans hread))).2

/-- A search that is written is a query exactly if it is complete: every operator of the tree has its operands, there
are no criteria beside a boolean tree, there is something to ask for, and all texts are short. -/
theorem searchTree_right_iff (root : SSearchRoot) (bSupports64bit bSupportsUnicode : Bool) :
    SearchRight root bSupports64bit bSupportsUnicode ↔
      Complete root ∧ ∃ tree, root.pSearchTree.term (encoding bSupportsUnicode) = some tree ∧
        ∀ o ∈ tree.operands ++ given (criteria root (serverType root.typeText) bSupports64bit
          (encoding bSupportsUnicode)), Short o := by
  refine ⟨fun h => ⟨h.complete, h.short rfl⟩, ?_⟩
  rintro ⟨hcomplete, tree, htree, hshort⟩
  generalize hset : (encoding bSupportsUnicode) = set at htree hshort
  have hfits : ∀ o ∈ tree.operands ++ given (criteria root (serverType root.typeText) bSupports64bit set), o.Fits :=
    fun o ho => (List.mem_append.mp ho).elim (fun hmem => fits_term htree hmem (hshort o ho))
      fun hmem => fits_criteria _ hmem (hshort o ho)
  have hlength : (given (criteria root (serverType root.typeText) bSupports64bit set)).length = iParameterTotal root :=
    length_given _ (serverType_eq_nil _)
  unfold Complete at hcomplete
  unfold SearchRight
  simp only [hset]
  cases hroot : root.pSearchTree with
  | null => simp [hroot] at hcomplete
  | string Strings =>
    rw [hroot] at htree hcomplete
    have hwritten : given ((decide (Strings ≠ []), Operand.text (rawString (List.intercalate [32] Strings) set)) ::
        criteria root (serverType root.typeText) bSupports64bit set) =
        (if Strings ≠ [] then [.text (rawString (List.intercalate [32] Strings) set)] else []) ++
          given (criteria root (serverType root.typeText) bSupports64bit set) := by
      rw [given_cons]
      simp
    obtain rfl := Option.some.inj htree
    have hempty : Strings = [] → rawString (List.intercalate [32] Strings) set = [] := by
      rintro rfl
      rw [← hset]
      cases bSupportsUnicode <;> rfl
    have hseries := fun o os hgiven total => @writeSeries_eq _ o os (hwritten.trans hgiven) total 0
    generalize given (criteria root (serverType root.typeText) bSupports64bit set) = asked at *
    obtain ⟨o, os, hos⟩ : ∃ o os, (if Strings ≠ [] then
        [Operand.text (rawString (List.intercalate [32] Strings) set)] else []) ++ asked = o :: os := by
      refine List.exists_cons_of_ne_nil fun hnil => ?_
      simp only [List.append_eq_nil_iff, ite_eq_right_iff, List.cons_ne_nil, imp_false, not_not] at hnil
      rw [hnil.2] at hlength
      exact hcomplete.elim (· hnil.1) (· hlength.symm)
    have hbytes : writeSearchTree root bSupports64bit bSupportsUnicode = some (joined o os).bytes := by
      have hcount := congrArg List.length hos
      have htotal : 0 + (os.length + 1) = iParameterTotal root + if Strings ≠ [] then 1 else 0 := by
        by_cases hnil : Strings = [] <;> simp [hnil, hlength] at hcount ⊢ <;> omega
      simpa [writeSearchTree, hset, hroot, parameters_eq, writeStrings_eq] using hseries o os hos _ htotal
    have hread := reads_term (t := joined o os) (fun o' ho' => hfits o' (by
      rw [operands_joined, ← hos] at ho'
      by_cases hnil : Strings = [] <;> simp_all [Term.operands])) (Nat.lt_succ_self _) []
    rw [List.append_nil] at hread
    clear hseries hfits hshort hwritten
    generalize rawString (List.intercalate [32] Strings) set = raw at *
    refine ⟨_, .operand (.text raw), joined o os, hbytes, htree, hread, ?_, fun holds hnone => ?_⟩
    · rw [operands_joined, ← hos]
      by_cases hnil : Strings = []
      · simp [hnil, hempty hnil, Term.operands, asks]
      · simp [hnil, Term.operands]
    · rw [eval_joined, ← hos]
      by_cases hnil : Strings = []
      · simp [hnil, hempty hnil, Term.eval, hnone]
      · simp [hnil, Term.eval]
  | node type Left Right =>
    rw [hroot] at htree hcomplete
    have hnil : ∀ typeText, (typeText = [] ↔ root.typeText = []) →
        given (criteria root typeText bSupports64bit set) = [] := fun typeText hsame =>
      List.length_eq_zero_iff.mp ((length_given typeText hsame).trans hcomplete)
    have hbytes : writeSearchTree root bSupports64bit bSupportsUnicode = some tree.bytes := by
      simp only [writeSearchTree, hset, hroot, writeOperators_none ((countP_flags root).trans hcomplete),
        writeTree_eq htree, parameters_eq, flatMap_given, hnil root.typeText Iff.rfl]
      simp
    have hread := reads_term (t := tree) (fun o ho => hfits o (List.mem_append_left _ ho)) (Nat.lt_succ_self _) []
    rw [List.append_nil] at hread
    simp only [hnil _ (serverType_eq_nil _), List.append_nil]
    exact ⟨tree.bytes, tree, tree, hbytes, htree, hread, rfl, fun holds _ => by simp⟩

/-- Two words with OR and a least size are written without the operator that the size needs. -/
theorem searchTree_wrong : ¬SearchRight ⟨.node .OR (.string [[97]]) (.string [[98]]), [], [], 1, 0, 0⟩ true true :=
  fun h => absurd h.complete (by rw [Complete]; decide)

end Queries

end NeoLoader.SearchTree
