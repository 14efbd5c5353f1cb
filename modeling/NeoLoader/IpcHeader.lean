import Mathlib.Data.List.Infix
import NeoLoader.IpcFraming

/-!
# Headers are read back

The header that is written for a message ends at its first empty line, and its lines give back
the type, the name, the length, the encoding and the number. This needs a type and a name that
trimming leaves alone and that do not break the lines.
-/

namespace NeoLoader.IpcHeader

open TextEncodings IpcFraming

variable {D : Type*}

section Trimming

theorem trimmed_cons {b : UInt8} (h : isSpace b = true) (s : QByteArray) : trimmed (b :: s) = trimmed s := by
  rw [trimmed, List.dropWhile_cons_of_pos h, trimmed]

theorem trimmed_append (s : QByteArray) {spaces : QByteArray}
    (h : ∀ b ∈ spaces, isSpace b = true) : trimmed (s ++ spaces) = trimmed s := by
  have hall : spaces.dropWhile isSpace = [] := List.dropWhile_eq_nil_iff.mpr h
  rw [trimmed, trimmed, List.dropWhile_append]
  cases hs : s.dropWhile isSpace with
  | nil => simp [hall]
  | cons b s' =>
    have hback : ∀ a ∈ spaces.reverse, isSpace a = true := fun a ha => h a (List.mem_reverse.mp ha)
    rw [List.isEmpty_cons, if_neg Bool.false_ne_true, List.reverse_append, List.dropWhile_append_of_pos hback]

theorem trimmed_eq {s : QByteArray} (h : ∀ b ∈ s, isSpace b = false) : trimmed s = s := by
  have hnone : ∀ l : QByteArray, (∀ b ∈ l, isSpace b = false) → l.dropWhile isSpace = l := by
    intro l hl
    cases l with
    | nil => rfl
    | cons b l =>
      exact List.dropWhile_cons_of_neg (by rw [hl b List.mem_cons_self]; exact Bool.false_ne_true)
  rw [trimmed, hnone s h, hnone s.reverse fun b hb => h b (List.mem_reverse.mp hb), List.reverse_reverse]

theorem trimmed_line (s : QByteArray) : trimmed (s ++ [13]) = trimmed s :=
  trimmed_append s fun b hb => by rw [List.mem_singleton.mp hb]; rfl

end Trimming

section EmptyLine

theorem indexOfEnd_skip (b : UInt8) {bs : QByteArray} (h : bs.head? ≠ some 10) :
    indexOfEnd (b :: bs) = (indexOfEnd bs).map (· + 1) := by
  rw [indexOfEnd, if_neg]
  intro heq
  cases bs with
  | nil => exact absurd heq (by simp [crlf])
  | cons c cs =>
    rw [List.take_succ_cons, List.take_succ_cons] at heq
    exact h (congrArg some (List.cons.inj (List.cons.inj heq).2).1)

theorem indexOfEnd_lineFeed (bs : QByteArray) : indexOfEnd (10 :: bs) = (indexOfEnd bs).map (· + 1) := by
  rw [indexOfEnd, if_neg]
  intro heq
  rw [List.take_succ_cons] at heq
  exact absurd (List.cons.inj heq).1 (by decide)

theorem head_line {line : QByteArray} (hline : 10 ∉ line) (rest : QByteArray) :
    (line ++ 13 :: rest).head? ≠ some 10 := by
  cases line with
  | nil => exact fun h => absurd (Option.some.inj h) (by decide)
  | cons c line => exact fun h => hline (Option.some.inj h ▸ List.mem_cons_self)

/-- An empty line is searched for behind a line, unless it follows at once. -/
theorem indexOfEnd_line {line rest : QByteArray} (hline : 10 ∉ line) (hrest : rest.head? ≠ some 13) :
    indexOfEnd (line ++ 13 :: 10 :: rest) = (indexOfEnd rest).map (· + (line.length + 2)) := by
  induction line with
  | nil =>
    have hhere : ¬(13 :: 10 :: rest).take 4 = crlf ++ crlf := by
      intro heq
      cases rest with
      | nil => exact absurd heq (by decide)
      | cons c cs =>
        rw [List.take_succ_cons, List.take_succ_cons, List.take_succ_cons] at heq
        exact hrest (congrArg some (List.cons.inj (List.cons.inj (List.cons.inj heq).2).2).1)
    rw [List.nil_append, indexOfEnd, if_neg hhere, indexOfEnd_lineFeed, Option.map_map]
    rfl
  | cons b line ih =>
    have hrest : 10 ∉ line := fun h => hline (List.mem_cons_of_mem _ h)
    rw [List.cons_append, indexOfEnd_skip b (head_line hrest _), ih hrest, Option.map_map]
    rfl

/-- An empty line behind a line is found. -/
theorem indexOfEnd_last {line : QByteArray} (hline : 10 ∉ line) (rest : QByteArray) :
    indexOfEnd (line ++ 13 :: 10 :: 13 :: 10 :: rest) = some line.length := by
  induction line with
  | nil => exact if_pos rfl
  | cons b line ih =>
    have hrest : 10 ∉ line := fun h => hline (List.mem_cons_of_mem _ h)
    rw [List.cons_append, indexOfEnd_skip b (head_line hrest _), ih hrest]
    rfl

/-- An empty line is found in a part of a text once all of it is there. -/
theorem indexOfEnd_prefix {l p : QByteArray} {e : ℕ} (h : indexOfEnd l = some e) (hp : p <+: l) :
    indexOfEnd p = if e + 4 ≤ p.length then some e else none := by
  induction l generalizing p e with
  | nil => exact absurd h nofun
  | cons b l ih =>
    cases p with
    | nil => exact (if_neg (by simp)).symm
    | cons c p =>
      obtain ⟨rfl, hrest⟩ := List.cons_prefix_cons.mp hp
      have htake : (c :: p).take 4 <+: (c :: l).take 4 := hp.take 4
      rw [indexOfEnd] at h
      split_ifs at h with hhere
      · obtain rfl := Option.some.inj h
        rw [hhere] at htake
        rw [indexOfEnd]
        split_ifs with hc hlong hlong
        · rfl
        · refine absurd ?_ hlong
          have := congrArg List.length hc
          rw [List.length_take] at this
          have hfour : (crlf ++ crlf).length = 4 := rfl
          omega
        · refine absurd (htake.eq_of_length ?_) hc
          rw [List.length_take]
          have hfour : (crlf ++ crlf).length = 4 := rfl
          omega
        · cases hfound : indexOfEnd p with
          | none => rfl
          | some e' =>
            have hle := indexOfEnd_le hfound
            rw [List.length_cons] at hlong
            omega
      · obtain ⟨e', he', rfl⟩ := Option.map_eq_some_iff.mp h
        have hnot : ¬(c :: p).take 4 = crlf ++ crlf := by
          intro heq
          have hlength := congrArg List.length heq
          rw [List.length_take] at hlength
          have hfour : (crlf ++ crlf).length = 4 := rfl
          have hsame := htake.eq_of_length_le (by
            rw [List.length_take, List.length_take]
            omega)
          exact hhere (hsame.symm.trans heq)
        rw [indexOfEnd, if_neg hnot, ih he' hrest, List.length_cons]
        split_ifs with hlong hlong' hlong'
        · rfl
        · omega
        · omega
        · rfl

end EmptyLine

section Lines

variable (qt : Qt D)

/-- A line of the header that is not the first one. -/
def line (key : String) (value : QByteArray) : QByteArray := ascii key ++ 58 :: 32 :: value

/-- The first line. -/
def firstLine (m : Message D) : QByteArray :=
  m.type ++ (if m.name = [] then [] else 32 :: m.name)

/-- Text before the empty line, of four lines. -/
def fourLines (first second third fourth : QByteArray) : QByteArray :=
  (first ++ [13]) ++ 10 :: ((second ++ [13]) ++ 10 :: ((third ++ [13]) ++ 10 :: fourth))

/-- What stands behind the colon of a line, up to its end. -/
theorem lineValue_line {key : String} (hkey : 58 ∉ ascii key) {value : QByteArray}
    (hvalue : ∀ b ∈ value, isSpace b = false) {spaces : QByteArray} (hspaces : ∀ b ∈ spaces, isSpace b = true) :
    lineKey (line key value ++ spaces) = ascii key ∧ lineValue (line key value ++ spaces) = value := by
  have hmem : 58 ∈ line key value ++ spaces :=
    List.mem_append_left _ (List.mem_append_right _ List.mem_cons_self)
  have hall : ∀ b ∈ ascii key, decide (b ≠ 58) = true := fun b hb =>
    decide_eq_true fun h => hkey (h ▸ hb)
  have hsplit : line key value ++ spaces = ascii key ++ 58 :: 32 :: (value ++ spaces) := by
    rw [line, List.append_assoc, List.cons_append, List.cons_append]
  constructor
  · rw [lineKey, if_pos hmem, hsplit, List.takeWhile_append_of_pos hall,
      List.takeWhile_cons_of_neg (by decide), List.append_nil]
  · rw [lineValue, if_pos hmem, hsplit, List.dropWhile_append_of_pos hall,
      List.dropWhile_cons_of_neg (by decide), List.drop_succ_cons, List.drop_zero,
      trimmed_cons rfl, trimmed_append _ hspaces, trimmed_eq hvalue]

theorem isSpace_number (i : ℤ) : ∀ b ∈ number i, isSpace b = false ∧ b ≠ 10 := by
  have hall : ∀ n : ℕ, 45 ≤ n → n ≤ 57 → isSpace (UInt8.ofNat n) = false ∧ UInt8.ofNat n ≠ 10 := by
    intro n hlow hhigh
    interval_cases n <;> decide
  intro b hb
  obtain ⟨c, hc, rfl⟩ := List.mem_map.mp hb
  have hrange := toNat_of_mem_decimalText hc
  exact hall c.toNat hrange.1 hrange.2

/-- The name of an encoding is read back, and is no white space. -/
theorem exists_encodingLine {e : EEncoding} (h : e ≠ .eUnknown) : ∃ value : QByteArray,
    encodingLine e = line "Encoding" value ++ crlf ∧ encodingOf value = some e ∧
      ∀ b ∈ value, isSpace b = false ∧ b ≠ 10 := by
  have hbytes : ∀ value : QByteArray, value.all (fun b => !isSpace b && b != 10) = true →
      ∀ b ∈ value, isSpace b = false ∧ b ≠ 10 := by
    intro value hall b hb
    simpa using List.all_eq_true.mp hall b hb
  cases e with
  | eUnknown => exact absurd rfl h
  | eXML => exact ⟨ascii "xml", rfl, by decide, hbytes _ (by decide)⟩
  | eJson => exact ⟨ascii "json", rfl, by decide, hbytes _ (by decide)⟩
  | eBencode => exact ⟨ascii "bencode", rfl, by decide, hbytes _ (by decide)⟩
  | eBinary => exact ⟨ascii "binary", rfl, by decide, hbytes _ (by decide)⟩

/-- A type or a name that the header keeps: trimmed, without spaces and line feeds. -/
structure IsBare (s : QByteArray) : Prop where
  /-- No white space at the ends. -/
  trimmed : trimmed s = s
  /-- No spaces. -/
  no_space : 32 ∉ s
  /-- No line feeds. -/
  no_lineFeed : 10 ∉ s

variable {m : Message D}

/-- Type and name are read back from the first line. -/
theorem typeName_firstLine (htype : IsBare m.type) (hname : IsBare m.name) :
    trimmed (((firstLine m ++ [13]).splitOn 32).headD []) = m.type ∧
      trimmed (((firstLine m ++ [13]).splitOn 32).getD 1 []) = m.name := by
  have hnot : ∀ s : QByteArray, 32 ∉ s → 32 ∉ s ++ [13] := by
    intro s hs hmem
    rcases List.mem_append.mp hmem with hmem | hmem
    · exact hs hmem
    · exact absurd (List.mem_singleton.mp hmem) (by decide)
  rw [firstLine]
  split_ifs with hempty
  · rw [List.append_nil, List.splitOn_eq_singleton (hnot _ htype.no_space)]
    refine ⟨(trimmed_line _).trans htype.trimmed, ?_⟩
    rw [hempty]
    rfl
  · rw [List.append_assoc, List.cons_append, List.splitOn_append_cons_self_of_not_mem htype.no_space,
      List.splitOn_eq_singleton (hnot _ hname.no_space)]
    exact ⟨htype.trimmed, (trimmed_line _).trans hname.trimmed⟩

theorem lineFeed_firstLine (htype : IsBare m.type) (hname : IsBare m.name) : 10 ∉ firstLine m := by
  intro hmem
  rcases List.mem_append.mp hmem with hmem | hmem
  · exact htype.no_lineFeed hmem
  · split_ifs at hmem
    · exact absurd hmem nofun
    · rcases List.mem_cons.mp hmem with hmem | hmem
      · exact absurd hmem (by decide)
      · exact hname.no_lineFeed hmem

theorem lineFeed_line {key : String} (hkey : 10 ∉ ascii key) {value : QByteArray}
    (hvalue : ∀ b ∈ value, isSpace b = false ∧ b ≠ 10) : 10 ∉ line key value := by
  intro hmem
  rcases List.mem_append.mp hmem with hmem | hmem
  · exact hkey hmem
  · rcases List.mem_cons.mp hmem with hmem | hmem
    · exact absurd hmem (by decide)
    · rcases List.mem_cons.mp hmem with hmem | hmem
      · exact absurd hmem (by decide)
      · exact (hvalue 10 hmem).2 rfl

theorem head?_line {key : String} {b : UInt8} (h : (ascii key).head? = some b)
    (value : QByteArray) : (line key value).head? = some b := by
  rw [line, List.head?_append, h]
  rfl

/-- The empty line is found behind four lines of which none breaks. -/
theorem indexOfEnd_fourLines {a b c d : QByteArray} (ha : 10 ∉ a) (hb : 10 ∉ b) (hc : 10 ∉ c)
    (hd : 10 ∉ d) (hbHead : b.head? = some 76) (hcHead : c.head? = some 69)
    (hdHead : d.head? = some 78) (rest : QByteArray) :
    indexOfEnd (fourLines a b c d ++ crlf ++ crlf ++ rest) = some (fourLines a b c d).length := by
  have hshape : fourLines a b c d ++ crlf ++ crlf ++ rest =
      a ++ 13 :: 10 :: (b ++ 13 :: 10 :: (c ++ 13 :: 10 :: (d ++ 13 :: 10 :: 13 :: 10 :: rest))) := by
    simp [fourLines, crlf]
  have hhead : ∀ (l rest' : QByteArray) (x : UInt8), l.head? = some x → x ≠ 13 → (l ++ rest').head? ≠ some 13 := by
    intro l rest' x hl hx
    cases l with
    | nil => exact absurd hl nofun
    | cons y l => exact fun h => hx ((Option.some.inj hl).symm.trans (Option.some.inj h))
  rw [hshape, indexOfEnd_line ha (hhead b _ _ hbHead (by decide)), indexOfEnd_line hb (hhead c _ _ hcHead (by decide)),
    indexOfEnd_line hc (hhead d _ _ hdHead (by decide)), indexOfEnd_last hd]
  simp [fourLines]
  omega

theorem exists_lines (h : m.encoding ≠ .eUnknown) (out : QByteArray) :
    ∃ value : QByteArray, encodingOf value = some m.encoding ∧ (∀ b ∈ value, isSpace b = false ∧ b ≠ 10) ∧
      header m out = fourLines (firstLine m) (line "Length" (number out.length))
        (line "Encoding" value) (line "Number" (number m.number.toInt)) ++ crlf ++ crlf := by
  obtain ⟨value, hline, hvalue, hbytes⟩ := exists_encodingLine h
  refine ⟨value, hvalue, hbytes, ?_⟩
  have hlength : ascii "Length: " = ascii "Length" ++ [58, 32] := by decide
  have hnumber : ascii "Number: " = ascii "Number" ++ [58, 32] := by decide
  rw [header, hline, hlength, hnumber]
  simp [fourLines, firstLine, line, crlf]

theorem readHeader_fourLines (htype : IsBare m.type) (hname : IsBare m.name)
    {out value : QByteArray} (hout : out.length < 2 ^ 32) (hvalue : encodingOf value = some m.encoding)
    (hbytes : ∀ b ∈ value, isSpace b = false ∧ b ≠ 10) (encoding : EEncoding) :
    readHeader qt encoding (fourLines (firstLine m) (line "Length" (number out.length))
        (line "Encoding" value) (line "Number" (number m.number.toInt))) =
      ⟨m.type, m.name, out.length, m.encoding, m.number⟩ := by
  have hnot : ∀ s : QByteArray, 10 ∉ s → 10 ∉ s ++ [13] := by
    intro s hs hmem
    rcases List.mem_append.mp hmem with hmem | hmem
    · exact hs hmem
    · exact absurd (List.mem_singleton.mp hmem) (by decide)
  have hreturn : ∀ b ∈ [(13 : UInt8)], isSpace b = true := fun b hb => by
    rw [List.mem_singleton.mp hb]
    rfl
  obtain ⟨hlengthKey, hlengthValue⟩ := lineValue_line (by decide : 58 ∉ ascii "Length")
    (fun b hb => (isSpace_number out.length b hb).1) hreturn
  obtain ⟨hencodingKey, hencodingValue⟩ := lineValue_line (by decide : 58 ∉ ascii "Encoding")
    (fun b hb => (hbytes b hb).1) hreturn
  obtain ⟨hnumberKey, hnumberValue⟩ := lineValue_line (by decide : 58 ∉ ascii "Number")
    (fun b hb => (isSpace_number m.number.toInt b hb).1) (nofun : ∀ b ∈ [], isSpace b = true)
  obtain ⟨htypeRead, hnameRead⟩ := typeName_firstLine htype hname
  rw [List.append_nil] at hnumberKey hnumberValue
  rw [readHeader, fourLines, List.splitOn_append_cons_self_of_not_mem (hnot _ (lineFeed_firstLine htype hname)),
    List.splitOn_append_cons_self_of_not_mem (hnot _ (lineFeed_line (by decide) (isSpace_number _))),
    List.splitOn_append_cons_self_of_not_mem (hnot _ (lineFeed_line (by decide) hbytes)),
    List.splitOn_eq_singleton (lineFeed_line (by decide) (isSpace_number _))]
  have hlengthLine : ∀ h : Header, readLine qt h (line "Length" (number out.length) ++ [13]) =
      { h with length := out.length } := by
    intro h
    rw [readLine, if_pos hlengthKey, hlengthValue, qt.toUInt_number _ hout]
  have hencodingLine : ∀ h : Header, readLine qt h (line "Encoding" value ++ [13]) =
      { h with encoding := m.encoding } := by
    intro h
    rw [readLine, hencodingKey, if_neg (by decide), if_pos rfl, hencodingValue, hvalue]
    rfl
  have hnumberLine : ∀ h : Header, readLine qt h (line "Number" (number m.number.toInt)) =
      { h with number := m.number } := by
    intro h
    rw [readLine, hnumberKey, if_neg (by decide), if_neg (by decide), if_pos rfl, hnumberValue, qt.toLongLong_number]
  simp only [List.headD_cons, List.tail_cons, List.foldl_cons, List.foldl_nil, htypeRead,
    hnameRead, hlengthLine, hencodingLine, hnumberLine]

end Lines

section Frames

variable (qt : Qt D)

/-- A message that its frame keeps. -/
structure IsSendable (m : Message D) : Prop where
  /-- The type is bare. -/
  type : IsBare m.type
  /-- The name is bare. -/
  name : IsBare m.name
  /-- The encoding is known. -/
  encoding : m.encoding ≠ .eUnknown
  /-- The content is read back from its encoding. -/
  data : qt.string2Variant (qt.variant2String m.data m.encoding) m.encoding = m.data
  /-- The frame has an `int` as its size. -/
  size : (frame qt m).length < 2 ^ 31

theorem readBuffer_eq {b : QByteArray} (h : b.length < 2 ^ 31) : readBuffer b = b := by
  rw [readBuffer, toInt_eq (by omega) (by omega), Int.toNat_natCast, List.take_length]

/-- The header of a message whose frame begins the buffer. -/
theorem header_frame {m : Message D} (hm : IsSendable qt m) : ∃ (e : ℕ) (h : Header),
    e + 4 + h.length = (frame qt m).length ∧ ((e + 4 = (header m (qt.variant2String m.data m.encoding)).length ∧
        h.length = (qt.variant2String m.data m.encoding).length) ∧
      (h.encoding = m.encoding ∧ ⟨h.type, h.name, m.data, h.encoding, h.number⟩ = m)) ∧
      (∀ rest, indexOfEnd (frame qt m ++ rest) = some e) ∧
      ∀ encoding rest, readHeader qt encoding ((frame qt m ++ rest).take e) = h := by
  have hsize := hm.size
  rw [frame, List.length_append] at hsize
  obtain ⟨value, hvalue, hbytes, hheader⟩ :=
    exists_lines hm.encoding (qt.variant2String m.data m.encoding)
  let lines := fourLines (firstLine m)
    (line "Length" (number (qt.variant2String m.data m.encoding).length))
    (line "Encoding" value) (line "Number" (number m.number.toInt))
  have hframe : ∀ rest, frame qt m ++ rest =
      lines ++ crlf ++ crlf ++ (qt.variant2String m.data m.encoding ++ rest) := by
    intro rest
    rw [frame, hheader, List.append_assoc _ _ rest]
  have hend : lines.length + 4 = (header m (qt.variant2String m.data m.encoding)).length := by
    have htwo : crlf.length = 2 := rfl
    rw [hheader, List.length_append, List.length_append, htwo]
  refine ⟨lines.length, ⟨m.type, m.name, (qt.variant2String m.data m.encoding).length, m.encoding,
    m.number⟩, ?_, ⟨⟨hend, rfl⟩, rfl, rfl⟩, fun rest => ?_, fun encoding rest => ?_⟩
  · rw [hend, frame, List.length_append]
  · rw [hframe]
    exact indexOfEnd_fourLines (lineFeed_firstLine hm.type hm.name)
      (lineFeed_line (by decide) (isSpace_number _)) (lineFeed_line (by decide) hbytes)
      (lineFeed_line (by decide) (isSpace_number _)) (head?_line (by decide) _)
      (head?_line (by decide) _) (head?_line (by decide) _) _
  · rw [hframe, List.append_assoc, List.append_assoc, List.take_left]
    exact readHeader_fourLines qt hm.type hm.name (by omega) hvalue hbytes encoding

variable {σ : Type*} (secure : List (Message D) → Option σ)

/-- A message whose frame begins the buffer is passed. -/
theorem loop_frame {m : Message D} (hm : IsSendable qt m) {rest : QByteArray}
    (hsize : (frame qt m ++ rest).length < 2 ^ 31) (encoding : EEncoding) (key : Option σ)
    (received : List (Message D)) (fuel : ℕ) :
    loop qt secure (fuel + 1) ⟨frame qt m ++ rest, encoding, key, received⟩ = loop qt secure fuel
        ⟨rest, m.encoding, (secure (received ++ [m])).or key, received ++ [m]⟩ := by
  obtain ⟨e, h, hlength, ⟨⟨he, hcontent⟩, henc, hmessage⟩, hend, hread⟩ := header_frame qt hm
  have hfits := hm.size
  have hnumbers := shiftLength_eq (e := e) (h := h) (by omega)
  have hround : round qt encoding (frame qt m ++ rest) = _ :=
    round_of_end ((congrArg indexOfEnd (readBuffer_eq hsize)).trans (hend rest))
  have hthere : ¬toInt (frame qt m ++ rest).length < shiftLength e h := by
    rw [hnumbers.2, toInt_eq (by omega) (by omega), List.length_append]
    omega
  rw [hread, roundAt_pass hthere (henc ▸ hm.encoding)] at hround
  have hshift : shiftData (frame qt m ++ rest) (shiftLength e h) = rest := by
    rw [hnumbers.2, hlength, shiftData_eq (by rw [List.length_append]; omega), List.drop_left]
  have hdata : ((frame qt m ++ rest).drop (e + 4)).take (contentLength h).toNat =
      qt.variant2String m.data m.encoding := by
    rw [hnumbers.1, Int.toNat_natCast, hcontent, frame, List.append_assoc, he, List.drop_left, List.take_left]
  have hpass := loop_pass qt secure (s := ⟨frame qt m ++ rest, encoding, key, received⟩) hround fuel
  refine hpass.trans (congrArg (loop qt secure fuel) ?_)
  rw [after, IpcFraming.pass, hshift, hdata, henc, hm.data]
  rw [henc] at hmessage
  rw [hmessage]

/-- While a part of a frame is missing, the loop waits. -/
theorem loop_part {m : Message D} (hm : IsSendable qt m) {b missing : QByteArray}
    (hb : b ++ missing = frame qt m) (hmissing : missing ≠ []) (encoding : EEncoding)
    (key : Option σ) (received : List (Message D)) (fuel : ℕ) :
    ∃ encoding', loop qt secure (fuel + 1) ⟨b, encoding, key, received⟩ = some ⟨b, encoding', key, received⟩ := by
  obtain ⟨e, h, hlength, -, hend, hread⟩ := header_frame qt hm
  have hfits := hm.size
  have hshort : b.length < (frame qt m).length := by
    have hpos := List.length_pos_iff.mpr hmissing
    rw [← hb, List.length_append]
    omega
  have hsize : b.length < 2 ^ 31 := by omega
  have hwhole : indexOfEnd (frame qt m) = some e :=
    (congrArg indexOfEnd (List.append_nil _)).symm.trans (hend [])
  have hpart := indexOfEnd_prefix hwhole ⟨missing, hb⟩
  split_ifs at hpart with hlong
  · have hround : round qt encoding b = _ :=
      round_of_end ((congrArg indexOfEnd (readBuffer_eq hsize)).trans hpart)
    have htake : b.take e = (frame qt m ++ []).take e := by
      rw [List.append_nil, ← hb, List.take_append_of_le_length (by omega)]
    have hwait : toInt b.length < shiftLength e h := by
      rw [(shiftLength_eq (by omega)).2, toInt_eq (by omega) (by omega)]
      omega
    rw [htake, hread, roundAt, if_pos hwait] at hround
    exact ⟨h.encoding, by rw [loop, hround]⟩
  · have hround : round qt encoding b = (encoding, .wait) := by
      rw [IpcFraming.round, readBuffer_eq hsize, hpart]
    exact ⟨encoding, by rw [loop, hround]⟩

theorem loop_empty (encoding : EEncoding) (key : Option σ) (received : List (Message D))
    (fuel : ℕ) : loop qt secure (fuel + 1) ⟨[], encoding, key, received⟩ = some ⟨[], encoding, key, received⟩ := by
  have hround : round qt encoding [] = (encoding, .wait) := by
    rw [IpcFraming.round, readBuffer, List.take_nil]
    rfl
  rw [loop, hround]

end Frames

end NeoLoader.IpcHeader
