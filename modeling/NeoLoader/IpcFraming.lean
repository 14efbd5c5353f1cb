import Mathlib.Data.List.TakeWhile
import NeoLoader.TextEncodings

/-!
# Messages on the local connection

A message is a header of lines, an empty line and the content. The reader looks for the empty
line, takes the length of the content from the header as a signed number, and drops what it has
handled from its buffer. Its loop ends, and stays within what was received, exactly if every
header it comes to announces an end below two to the power of 31.
-/

namespace NeoLoader.IpcFraming

open TextEncodings

abbrev QByteArray := List UInt8

/-- How the content of a message is written. -/
inductive EEncoding where
  | eUnknown
  | eXML
  | eJson
  | eBencode
  | eBinary
  deriving DecidableEq

/-- The bytes of an ASCII constant. -/
def ascii (s : String) : QByteArray := s.toList.map fun c => UInt8.ofNat c.toNat

/-- `QByteArray::number`. -/
def number (i : ℤ) : QByteArray := (decimalText i).map fun c => UInt8.ofNat c.toNat

/-- The value as an `int`. -/
def toInt (x : ℤ) : ℤ := (BitVec.ofInt 32 x).toInt

/-- The conversions of Qt and the encodings of the content. -/
structure Qt (D : Type*) where
  /-- `QByteArray::toUInt`. -/
  toUInt : QByteArray → ℕ
  /-- `QByteArray::toLongLong`. -/
  toLongLong : QByteArray → Int64
  /-- `CIPCSocket::Variant2String`. -/
  variant2String : D → EEncoding → QByteArray
  /-- `CIPCSocket::String2Variant`. -/
  string2Variant : QByteArray → EEncoding → D
  /-- The number has 32 bits; it is zero where there is none. -/
  toUInt_lt : ∀ s, toUInt s < 2 ^ 32
  /-- A number of 32 bits is read back. -/
  toUInt_number : ∀ n : ℕ, n < 2 ^ 32 → toUInt (number n) = n
  /-- A number of 64 bits is read back. -/
  toLongLong_number : ∀ n : Int64, toLongLong (number n.toInt) = n

/-- What `Send` is given and `Receive` gets. -/
structure Message (D : Type*) where
  /-- Type. -/
  type : QByteArray
  /-- Name. -/
  name : QByteArray
  /-- Content. -/
  data : D
  /-- How the content is written. -/
  encoding : EEncoding
  /-- Number. -/
  number : Int64

/-- The end of a line. -/
def crlf : QByteArray := [13, 10]

/-- The header line that tells the encoding. -/
def encodingLine : EEncoding → QByteArray
  | .eJson => ascii "Encoding: json" ++ crlf
  | .eXML => ascii "Encoding: xml" ++ crlf
  | .eBencode => ascii "Encoding: bencode" ++ crlf
  | .eBinary => ascii "Encoding: binary" ++ crlf
  | .eUnknown => []

variable {D : Type*}

/-- The header that `Send` writes before some content. -/
def header (m : Message D) (out : QByteArray) : QByteArray :=
  m.type ++ (if m.name = [] then [] else 32 :: m.name) ++ crlf ++
    (ascii "Length: " ++ number out.length ++ crlf) ++ encodingLine m.encoding ++
    (ascii "Number: " ++ number m.number.toInt ++ crlf) ++ crlf

/-- The bytes of a message before they are encrypted. -/
def frame (qt : Qt D) (m : Message D) : QByteArray :=
  header m (qt.variant2String m.data m.encoding) ++ qt.variant2String m.data m.encoding

/-- `ReadBuffer.indexOf` of an empty line. -/
def indexOfEnd : QByteArray → Option ℕ
  | [] => none
  | b :: bs => if (b :: bs).take 4 = crlf ++ crlf then some 0 else (indexOfEnd bs).map (· + 1)

/-- White space. -/
def isSpace (b : UInt8) : Bool := b = 32 || (9 ≤ b && b ≤ 13)

/-- `QByteArray::trimmed`. -/
def trimmed (s : QByteArray) : QByteArray :=
  ((s.dropWhile isSpace).reverse.dropWhile isSpace).reverse

/-- What a header says. -/
structure Header where
  /-- Type. -/
  type : QByteArray
  /-- Name. -/
  name : QByteArray
  /-- Length of the content. -/
  length : ℕ
  /-- How the content is written. -/
  encoding : EEncoding
  /-- Number. -/
  number : Int64

/-- The encoding of a name. -/
def encodingOf (value : QByteArray) : Option EEncoding :=
  if value = ascii "json" then some .eJson
  else if value = ascii "xml" then some .eXML
  else if value = ascii "bencode" then some .eBencode
  else if value = ascii "binary" then some .eBinary
  else none

/-- What stands before the first colon of a line. -/
def lineKey (line : QByteArray) : QByteArray :=
  if 58 ∈ line then line.takeWhile (· ≠ 58) else []

/-- What stands behind it. -/
def lineValue (line : QByteArray) : QByteArray :=
  trimmed (if 58 ∈ line then (line.dropWhile (· ≠ 58)).drop 1 else line)

/-- Take over a line of the header. -/
def readLine (qt : Qt D) (h : Header) (line : QByteArray) : Header :=
  if lineKey line = ascii "Length" then { h with length := qt.toUInt (lineValue line) }
  else if lineKey line = ascii "Encoding" then
    { h with encoding := (encodingOf (lineValue line)).getD h.encoding }
  else if lineKey line = ascii "Number" then { h with number := qt.toLongLong (lineValue line) }
  else h

/-- Read the text before the empty line. The encoding is the last one if no line tells it. -/
def readHeader (qt : Qt D) (encoding : EEncoding) (text : QByteArray) : Header :=
  let lines := text.splitOn 10
  let typeName := (lines.headD []).splitOn 32
  lines.tail.foldl (readLine qt) ⟨trimmed (typeName.headD []), trimmed (typeName.getD 1 []), 0, encoding, 0⟩

/-- The buffer as an array whose size is an `int`. -/
def readBuffer (b : QByteArray) : QByteArray := b.take (toInt b.length).toNat

/-- How a round of the loop goes on. -/
inductive Round where
  /-- More has to come. -/
  | wait
  /-- The encoding is not known. -/
  | disconnect
  /-- The content begins here, has this length, and the buffer is shifted by so much. -/
  | pass (h : Header) (start : ℕ) (length total : ℤ)

/-- Length of the content as the reader takes it. -/
def contentLength (h : Header) : ℤ := toInt h.length

/-- By how much the buffer is shifted after a message whose header ends here. -/
def shiftLength (e : ℕ) (h : Header) : ℤ := toInt (e + 4 + contentLength h)

/-- A round of the loop in `OnReadyRead` with a header in a buffer of this size. -/
def roundAt (size : ℤ) (e : ℕ) (h : Header) : Round :=
  if size < shiftLength e h then .wait
  else if h.encoding = .eUnknown then .disconnect
  else .pass h (e + 4) (contentLength h) (shiftLength e h)

/-- A round of the loop in `OnReadyRead`, with the encoding after it. -/
def round (qt : Qt D) (encoding : EEncoding) (b : QByteArray) : EEncoding × Round :=
  match indexOfEnd (readBuffer b) with
  | none => (encoding, .wait)
  | some e =>
    ((readHeader qt encoding (b.take e)).encoding, roundAt (toInt b.length) e (readHeader qt encoding (b.take e)))

/-- `CBuffer::ShiftData`, by a number that is converted to `size_t`. -/
def shiftData (b : QByteArray) (total : ℤ) : QByteArray :=
  if 0 ≤ total ∧ total ≤ b.length then b.drop total.toNat else b

/-- The receiving side of a connection. -/
structure CIPCSocket (σ D : Type*) where
  readBuffer : QByteArray
  encoding : EEncoding
  /-- The decryption of `m_CryptoKey`, if there is one. -/
  cryptoKey : Option σ
  /-- What was passed to `Receive`, from the first message on. -/
  received : List (Message D)

variable {σ : Type*}

/-- Pass a message to `Receive`, which may switch the cipher on, and shift the buffer. Bytes
behind those in the buffer are left out of the content. -/
def pass (qt : Qt D) (secure : List (Message D) → Option σ) (s : CIPCSocket σ D) (h : Header)
    (start : ℕ) (length total : ℤ) : CIPCSocket σ D :=
  let data := qt.string2Variant ((s.readBuffer.drop start).take length.toNat) h.encoding
  let received := s.received ++ [⟨h.type, h.name, data, h.encoding, h.number⟩]
  ⟨shiftData s.readBuffer total, h.encoding, (secure received).or s.cryptoKey, received⟩

/-- The loop in `OnReadyRead`, for so many rounds at most. -/
def loop (qt : Qt D) (secure : List (Message D) → Option σ) : ℕ → CIPCSocket σ D → Option (CIPCSocket σ D)
  | 0, _ => none
  | fuel + 1, s =>
    match round qt s.encoding s.readBuffer with
    | (encoding, .pass h start length total) =>
      loop qt secure fuel (pass qt secure { s with encoding := encoding } h start length total)
    | (encoding, _) => some { s with encoding := encoding }

/-- The loop ends. -/
def Terminates (qt : Qt D) (secure : List (Message D) → Option σ) (s : CIPCSocket σ D) : Prop :=
  ∃ fuel, (loop qt secure fuel s).isSome

/-- In so many rounds the content of each message lies within the buffer. -/
def WithinFor (qt : Qt D) (secure : List (Message D) → Option σ) : ℕ → CIPCSocket σ D → Prop
  | 0, _ => True
  | fuel + 1, s =>
    match round qt s.encoding s.readBuffer with
    | (encoding, .pass h start length total) =>
      (0 ≤ length ∧ start + length ≤ s.readBuffer.length) ∧ WithinFor qt secure fuel
          (pass qt secure { s with encoding := encoding } h start length total)
    | _ => True

/-- All headers that are come to announce an end below two to the power of 31. -/
inductive Fits (qt : Qt D) : EEncoding → QByteArray → Prop
  /-- There is no header. -/
  | noHeader {encoding : EEncoding} {b : QByteArray} (h : indexOfEnd (readBuffer b) = none) : Fits qt encoding b
  /-- The content has not yet come. -/
  | incomplete {encoding : EEncoding} {b : QByteArray} {e : ℕ} (h : indexOfEnd (readBuffer b) = some e)
      (hfits : e + 4 + (readHeader qt encoding (b.take e)).length < 2 ^ 31)
      (hlater : (readBuffer b).length < e + 4 + (readHeader qt encoding (b.take e)).length) :
      Fits qt encoding b
  /-- The encoding is not known. -/
  | unknown {encoding : EEncoding} {b : QByteArray} {e : ℕ} (h : indexOfEnd (readBuffer b) = some e)
      (hunknown : (readHeader qt encoding (b.take e)).encoding = .eUnknown) : Fits qt encoding b
  /-- The message is there, and what comes after it fits. -/
  | message {encoding : EEncoding} {b : QByteArray} {e : ℕ} (h : indexOfEnd (readBuffer b) = some e)
      (hthere : e + 4 + (readHeader qt encoding (b.take e)).length ≤ (readBuffer b).length)
      (hrest : Fits qt (readHeader qt encoding (b.take e)).encoding
        (b.drop (e + 4 + (readHeader qt encoding (b.take e)).length))) : Fits qt encoding b

/-- A number within 32 bits is its own value as an `int` below two to the power of 31, and
negative from there on. -/
theorem toInt_cases {x : ℤ} (hlow : -2 ^ 31 ≤ x) (hhigh : x < 2 ^ 32) :
    x < 2 ^ 31 ∧ toInt x = x ∨ 2 ^ 31 ≤ x ∧ toInt x = x - 2 ^ 32 := by
  rw [toInt, BitVec.toInt_ofInt, Int.bmod_def]
  split_ifs <;> omega

theorem toInt_eq {x : ℤ} (hlow : -2 ^ 31 ≤ x) (hhigh : x < 2 ^ 31) : toInt x = x := by
  rcases toInt_cases hlow (by omega) with h | h
  · exact h.2
  · omega

theorem toInt_lt (x : ℤ) : toInt x < 2 ^ 31 := by
  rw [toInt, BitVec.toInt_ofInt, Int.bmod_def]
  split_ifs <;> omega

theorem toInt_le (n : ℕ) : toInt n ≤ n := by
  rw [toInt, BitVec.toInt_ofInt, Int.bmod_def]
  split_ifs <;> omega

variable {e : ℕ}

/-- The empty line and the line before it lie within the text. -/
theorem indexOfEnd_le {l : QByteArray} (h : indexOfEnd l = some e) : e + 4 ≤ l.length := by
  induction l generalizing e with
  | nil => exact absurd h nofun
  | cons b bs ih =>
    rw [indexOfEnd] at h
    split_ifs at h with hhere
    · obtain rfl := Option.some.inj h
      have hlength := congrArg List.length hhere
      rw [List.length_take] at hlength
      have hfour : (crlf ++ crlf).length = 4 := rfl
      omega
    · obtain ⟨e', he', rfl⟩ := Option.map_eq_some_iff.mp h
      have hrest := ih he'
      rw [List.length_cons]
      omega

variable {b : QByteArray}

theorem length_readBuffer (h : indexOfEnd (readBuffer b) = some e) :
    toInt b.length = (readBuffer b).length ∧ (readBuffer b).length ≤ b.length ∧ e + 4 ≤ (readBuffer b).length := by
  have hle := indexOfEnd_le h
  have hint := toInt_le b.length
  have hlength : (readBuffer b).length = min (toInt b.length).toNat b.length := List.length_take
  omega

variable {encoding : EEncoding}

theorem round_of_end {qt : Qt D} (h : indexOfEnd (readBuffer b) = some e) :
    round qt encoding b = ((readHeader qt encoding (b.take e)).encoding,
      roundAt (toInt b.length) e (readHeader qt encoding (b.take e))) := by
  rw [round, h]

variable {h : Header}

theorem shiftLength_eq (hfits : e + 4 + h.length < 2 ^ 31) :
    contentLength h = h.length ∧ shiftLength e h = ((e + 4 + h.length : ℕ) : ℤ) := by
  have hlength : contentLength h = h.length := toInt_eq (by omega) (by omega)
  refine ⟨hlength, ?_⟩
  rw [shiftLength, hlength, toInt_eq (by omega) (by omega)]
  push_cast
  rfl

theorem shiftData_eq {n : ℕ} (h : n ≤ b.length) : shiftData b n = b.drop n := by
  rw [shiftData, if_pos ⟨Int.natCast_nonneg n, Int.ofNat_le.mpr h⟩, Int.toNat_natCast]

section Lengths

variable (qt : Qt D)

/-- The announced length has 32 bits. -/
theorem length_readHeader_lt (encoding : EEncoding) (text : QByteArray) :
    (readHeader qt encoding text).length < 2 ^ 32 := by
  have hall : ∀ (lines : List QByteArray) (h : Header), h.length < 2 ^ 32 →
      (lines.foldl (readLine qt) h).length < 2 ^ 32 := by
    intro lines
    induction lines with
    | nil => exact fun h hh => hh
    | cons line lines ih =>
      intro h hh
      refine ih _ ?_
      rw [readLine]
      split_ifs
      · exact qt.toUInt_lt _
      · exact hh
      · exact hh
      · exact hh
  exact hall _ _ (Nat.two_pow_pos 32)

/-- The announced length does not depend on the encoding before the header. -/
theorem length_readHeader_eq (encoding encoding' : EEncoding) (text : QByteArray) :
    (readHeader qt encoding text).length = (readHeader qt encoding' text).length := by
  have hall : ∀ (lines : List QByteArray) (h h' : Header), h.length = h'.length →
      (lines.foldl (readLine qt) h).length = (lines.foldl (readLine qt) h').length := by
    intro lines
    induction lines with
    | nil => exact fun h h' hh => hh
    | cons line lines ih =>
      intro h h' hh
      refine ih _ _ ?_
      rw [readLine, readLine]
      split_ifs
      · rfl
      · exact hh
      · exact hh
      · exact hh
  exact hall _ _ _ rfl

theorem encodingOf_ne (value : QByteArray) : encodingOf value ≠ some .eUnknown := by
  unfold encodingOf
  split_ifs <;> simp

/-- A header leaves a known encoding known. -/
theorem encoding_readHeader_ne {encoding : EEncoding} (h : encoding ≠ .eUnknown)
    (text : QByteArray) : (readHeader qt encoding text).encoding ≠ .eUnknown := by
  have hall : ∀ (lines : List QByteArray) (h : Header), h.encoding ≠ .eUnknown →
      (lines.foldl (readLine qt) h).encoding ≠ .eUnknown := by
    intro lines
    induction lines with
    | nil => exact fun h hh => hh
    | cons line lines ih =>
      intro h hh
      refine ih _ ?_
      rw [readLine]
      split_ifs
      · exact hh
      · cases hvalue : encodingOf (lineValue line) with
        | none => exact hh
        | some found => exact fun heq => encodingOf_ne _ (hvalue.trans (congrArg some heq))
      · exact hh
      · exact hh
  exact hall _ _ h

end Lengths

variable (qt : Qt D) (secure : List (Message D) → Option σ)

/-- What a round with a message leaves. -/
def after (s : CIPCSocket σ D) (e : ℕ) (h : Header) : CIPCSocket σ D :=
  pass qt secure { s with encoding := h.encoding } h (e + 4) (contentLength h) (shiftLength e h)

variable {s : CIPCSocket σ D}

section

variable
  (hround : round qt s.encoding s.readBuffer = (h.encoding, .pass h (e + 4) (contentLength h) (shiftLength e h)))
  (fuel : ℕ)

include hround fuel

theorem loop_pass : loop qt secure (fuel + 1) s = loop qt secure fuel (after qt secure s e h) := by
  rw [loop, hround]
  rfl

theorem withinFor_pass : WithinFor qt secure (fuel + 1) s ↔
      (0 ≤ contentLength h ∧ ((e + 4 : ℕ) : ℤ) + contentLength h ≤ s.readBuffer.length) ∧
        WithinFor qt secure fuel (after qt secure s e h) := by
  rw [WithinFor, hround]
  rfl

end

/-- A round without a message ends the loop. -/
theorem loop_stop {r : Round}
    (hround : round qt s.encoding s.readBuffer = (encoding, r)) (hr : r = .wait ∨ r = .disconnect) :
    Terminates qt secure s ∧ ∀ n, WithinFor qt secure n s := by
  have hloop : loop qt secure 1 s = some { s with encoding := encoding } := by
    rcases hr with rfl | rfl <;> rw [loop, hround]
  refine ⟨⟨1, hloop ▸ rfl⟩, fun n => ?_⟩
  cases n with
  | zero => exact trivial
  | succ n =>
    rcases hr with rfl | rfl
    · rw [WithinFor, hround]
      exact trivial
    · rw [WithinFor, hround]
      exact trivial

theorem roundAt_pass {size : ℤ} (hthere : ¬size < shiftLength e h) (hknown : h.encoding ≠ .eUnknown) :
    roundAt size e h = .pass h (e + 4) (contentLength h) (shiftLength e h) := by
  rw [roundAt, if_neg hthere, if_neg hknown]

/-- If the buffer is not shifted after a message, the message is handled over and over. -/
theorem loop_stuck (fuel : ℕ) (hheader : readHeader qt s.encoding (s.readBuffer.take e) = h)
    (hend : indexOfEnd (readBuffer s.readBuffer) = some e) (hknown : h.encoding ≠ .eUnknown)
    (hthere : ¬toInt s.readBuffer.length < shiftLength e h)
    (hshift : shiftData s.readBuffer (shiftLength e h) = s.readBuffer) : loop qt secure fuel s = none := by
  induction fuel generalizing s h with
  | zero => rfl
  | succ fuel ih =>
    have hround : round qt s.encoding s.readBuffer = _ := round_of_end hend
    rw [hheader, roundAt_pass hthere hknown] at hround
    rw [loop_pass qt secure hround]
    have hbuffer : (after qt secure s e h).readBuffer = s.readBuffer := hshift
    have hlength : (readHeader qt h.encoding (s.readBuffer.take e)).length = h.length :=
      hheader ▸ length_readHeader_eq qt _ _ _
    have hsame : shiftLength e (readHeader qt h.encoding (s.readBuffer.take e)) =
        shiftLength e h := by
      rw [shiftLength, shiftLength, contentLength, contentLength, hlength]
    refine ih (h := readHeader qt h.encoding (s.readBuffer.take e)) ?_ ?_ (encoding_readHeader_ne qt hknown _) ?_ ?_
    · rw [hbuffer]
      rfl
    · rw [hbuffer]
      exact hend
    · rw [hbuffer, hsame]
      exact hthere
    · rw [hbuffer, hsame]
      exact hshift

/-- What the numbers of a header mean where the buffer is shifted after its message. -/
theorem fits_of_moves (hsize : e + 4 < 2 ^ 31) (hlength : h.length < 2 ^ 32) (hwithin : 0 ≤ contentLength h)
    (hmoves : shiftData b (shiftLength e h) ≠ b) : e + 4 + h.length < 2 ^ 31 := by
  by_contra hbig
  refine hmoves (if_neg fun hpos => ?_)
  have hL := toInt_cases (x := h.length) (by omega) (by omega)
  rw [contentLength] at hwithin
  have hsmall : toInt h.length = h.length := by omega
  have hT := toInt_cases (x := e + 4 + h.length) (by omega) (by omega)
  rw [shiftLength, contentLength, hsmall] at hpos
  omega

theorem fits_of_waits {size : ℤ} (hsize : (e : ℤ) + 4 ≤ size)
    (hlt : size < 2 ^ 31) (hlength : h.length < 2 ^ 32) (hwaits : size < shiftLength e h) :
    e + 4 + h.length < 2 ^ 31 := by
  have hL := toInt_cases (x := h.length) (by omega) (by omega)
  rw [shiftLength, contentLength] at hwaits
  have hT := toInt_cases (x := e + 4 + toInt h.length) (by omega) (by omega)
  omega

/-- A loop that ends and stays within the buffer comes to headers that fit. -/
theorem fits_of_loop (fuel : ℕ) (hend : (loop qt secure fuel s).isSome)
    (hwithin : ∀ n, WithinFor qt secure n s) : Fits qt s.encoding s.readBuffer := by
  induction fuel generalizing s with
  | zero => exact absurd hend nofun
  | succ fuel ih =>
    cases hfound : indexOfEnd (readBuffer s.readBuffer) with
    | none => exact .noHeader hfound
    | some e =>
      obtain ⟨hint, hle, hend4⟩ := length_readBuffer hfound
      have hlt := toInt_lt s.readBuffer.length
      have hround : round qt s.encoding s.readBuffer = _ := round_of_end hfound
      have hlength := length_readHeader_lt qt s.encoding (s.readBuffer.take e)
      generalize hheader : readHeader qt s.encoding (s.readBuffer.take e) = h at hround hlength
      by_cases hwait : toInt s.readBuffer.length < shiftLength e h
      · have hfits := fits_of_waits (by omega) hlt hlength hwait
        rw [(shiftLength_eq hfits).2] at hwait
        exact .incomplete hfound (by rwa [hheader]) (by rw [hheader]; omega)
      · by_cases hunknown : h.encoding = .eUnknown
        · exact .unknown hfound (by rwa [hheader])
        · rw [roundAt_pass hwait hunknown] at hround
          have hmoves : shiftData s.readBuffer (shiftLength e h) ≠ s.readBuffer := by
            intro hshift
            rw [loop_stuck qt secure (fuel + 1) hheader hfound hunknown hwait hshift] at hend
            exact absurd hend nofun
          have hfirst := ((withinFor_pass qt secure hround 0).mp (hwithin 1)).1.1
          have hfits := fits_of_moves (by omega) hlength hfirst hmoves
          have hafter : (after qt secure s e h).readBuffer = s.readBuffer.drop (e + 4 + h.length) := by
            rw [(shiftLength_eq hfits).2] at hwait
            have hthere : e + 4 + h.length ≤ s.readBuffer.length := by omega
            rw [after, pass, (shiftLength_eq hfits).2]
            exact shiftData_eq hthere
          rw [loop_pass qt secure hround] at hend
          have hrest := ih hend fun n => ((withinFor_pass qt secure hround n).mp (hwithin (n + 1))).2
          rw [(shiftLength_eq hfits).2] at hwait
          refine .message hfound (by rw [hheader]; omega) ?_
          rw [hheader, ← hafter]
          exact hrest

/-- Over headers that fit the loop ends and stays within the buffer. -/
theorem loop_of_fits (h : Fits qt encoding b) : ∀ s : CIPCSocket σ D, s.encoding = encoding → s.readBuffer = b →
      Terminates qt secure s ∧ ∀ n, WithinFor qt secure n s := by
  induction h with
  | noHeader hfound =>
    rintro s rfl rfl
    have hround : round qt s.encoding s.readBuffer = (s.encoding, .wait) := by rw [round, hfound]
    exact loop_stop qt secure hround (Or.inl rfl)
  | @incomplete encoding b e hfound hfits hlater =>
    rintro s rfl rfl
    obtain ⟨hint, hle, hend4⟩ := length_readBuffer hfound
    refine loop_stop qt secure (round_of_end hfound) (Or.inl (if_pos ?_))
    rw [(shiftLength_eq hfits).2]
    omega
  | @unknown encoding b e hfound hunknown =>
    rintro s rfl rfl
    refine loop_stop qt secure (round_of_end hfound) ?_
    rw [roundAt, if_pos hunknown]
    split_ifs
    · exact Or.inl rfl
    · exact Or.inr rfl
  | @message encoding b e hfound hthere _ ih =>
    rintro s rfl rfl
    obtain ⟨hint, hle, hend4⟩ := length_readBuffer hfound
    have hlt := toInt_lt s.readBuffer.length
    have hround : round qt s.encoding s.readBuffer = _ := round_of_end hfound
    generalize readHeader qt s.encoding (s.readBuffer.take e) = h at hround hthere ih
    have hnumbers := shiftLength_eq (e := e) (h := h) (by omega)
    have hnot : ¬toInt s.readBuffer.length < shiftLength e h := by
      rw [hnumbers.2]
      omega
    by_cases hunknown : h.encoding = .eUnknown
    · refine loop_stop qt secure hround (Or.inr ?_)
      rw [roundAt, if_neg hnot, if_pos hunknown]
    · rw [roundAt_pass hnot hunknown] at hround
      have hafter : (after qt secure s e h).readBuffer = s.readBuffer.drop (e + 4 + h.length) := by
        have hwhole : e + 4 + h.length ≤ s.readBuffer.length := by omega
        rw [after, pass, hnumbers.2]
        exact shiftData_eq hwhole
      obtain ⟨⟨fuel, hfuel⟩, hwithin⟩ := ih (after qt secure s e h) rfl hafter
      refine ⟨⟨fuel + 1, by rwa [loop_pass qt secure hround]⟩, fun n => ?_⟩
      cases n with
      | zero => exact trivial
      | succ n =>
        refine (withinFor_pass qt secure hround n).mpr ⟨⟨?_, ?_⟩, hwithin n⟩
        · rw [hnumbers.1]
          exact Int.natCast_nonneg _
        · rw [hnumbers.1]
          omega

theorem loop_iff_fits (s : CIPCSocket σ D) :
    (Terminates qt secure s ∧ ∀ n, WithinFor qt secure n s) ↔ Fits qt s.encoding s.readBuffer :=
  ⟨fun h => h.1.elim fun fuel hfuel => fits_of_loop qt secure fuel hfuel h.2,
    fun h => loop_of_fits qt secure h s rfl rfl⟩

end NeoLoader.IpcFraming
