import NeoLoader.Variant

/-!
# Packets with names in a stream of bytes

A packet is a name and a variant. Packets are written one behind the other, and the bytes arrive in
chunks. A function takes one packet from the front of what has arrived, if it is there completely, and
is called as long as there are bytes. It looks at the first byte before it knows that there is one.
-/

namespace NeoLoader.PacketStream

open ByteReader Variant

section Code

variable (z : Zlib) (crc : Bytes → Bytes)

def makePacket (Name : Bytes) (Packet : CVariant) : Bytes :=
  littleEndian 1 Name.length ++ Name ++ toPacket z false Packet

/-- `CBuffer::GetData`: bytes of the buffer, or a null pointer. -/
def getData (Buffer : Bytes) (uOffset uLength : ℕ) : Option Bytes :=
  if uOffset + uLength > Buffer.length then none else some ((Buffer.drop uOffset).take uLength)

/-- What `StreamPacket` does. -/
inductive Outcome where
  /-- It reads from a null pointer. -/
  | outside
  /-- An exception is thrown, or unpacking does not end. -/
  | failed
  /-- It returns false. -/
  | incomplete
  /-- It returns true, with a packet. -/
  | packet (Name : Bytes) (Packet : CVariant)

/-- `StreamPacket`, with the bytes that it leaves in the buffer. -/
def streamPacket (Buffer : Bytes) : Outcome × Bytes :=
  match getData Buffer 0 1 with
  | none => (Outcome.outside, Buffer)
  | some first =>
    let bCheckSumm := decide (128 ≤ ofLittleEndian first)
    let Len := ofLittleEndian first % 128
    match getData Buffer 1 Len with
    | none => (Outcome.incomplete, Buffer)
    | some Name =>
      match getData Buffer (1 + Len) 1 with
      | none => (Outcome.incomplete, Buffer)
      | some pType =>
        let uBytes := lengthBytes (ofLittleEndian pType / 64)
        match getData Buffer (1 + Len + 1) uBytes with
        | none => (Outcome.incomplete, Buffer)
        | some pSize =>
          let Size := 1 + uBytes + ofLittleEndian pSize
          let uCheck := if bCheckSumm then 4 else 0
          if Buffer.length - (1 + Len) < Size + uCheck then (Outcome.incomplete, Buffer)
          else if bCheckSumm ∧ getData Buffer (1 + Len + Size) 4 ≠ some (crc (Buffer.take (1 + Len + Size))) then
            (Outcome.failed, Buffer)
          else match fromPacket z false (Buffer.drop (1 + Len)) with
            | none => (Outcome.failed, Buffer)
            | some (Packet, _) =>
              (Outcome.packet Name Packet, Buffer.drop (1 + Len + (Size + uCheck)))

/-- The loop of `CSocketSession::Process`: packets are taken as long as there are bytes. -/
def process : ℕ → Bytes → Option (List (Bytes × CVariant) × Bytes)
  | 0, _ => none
  | fuel + 1, Buffer =>
    if Buffer.length > 0 then
      match streamPacket z crc Buffer with
      | (Outcome.packet Name Packet, rest) =>
        (process fuel rest).map fun r => ((Name, Packet) :: r.1, r.2)
      | (Outcome.incomplete, rest) => some ([], rest)
      | _ => none
    else some ([], Buffer)

/-- A chunk arrives, and packets are taken. -/
def receive (state : List (Bytes × CVariant) × Bytes) (chunk : Bytes) : Option (List (Bytes × CVariant) × Bytes) :=
  (process z crc ((state.2 ++ chunk).length + 1) (state.2 ++ chunk)).map fun r => (state.1 ++ r.1, r.2)

/-- All packets in a row. -/
def wire (ps : List (Bytes × CVariant)) : Bytes := ps.flatMap fun p => makePacket z p.1 p.2

end Code

/-- A packet that can be sent: the name has less than 127 bytes. -/
def Sendable (p : Bytes × CVariant) : Prop := p.1.length < 127 ∧ p.2.WellFormed

/-- A packet as it is received. -/
def received (p : Bytes × CVariant) : Bytes × CVariant :=
  (p.1, CVariant.packet p.2.type p.2.payload)

section Buffer

theorem getData_front {x : Bytes} {n : ℕ} (hx : x.length = n) (s : Bytes) : getData (x ++ s) 0 n = some x := by
  subst hx
  rw [getData, if_neg, List.drop_zero, List.take_left]
  rw [List.length_append]
  omega

theorem getData_append {x : Bytes} {k : ℕ} (hx : x.length = k) (s : Bytes) (o n : ℕ) :
    getData (x ++ s) (k + o) n = getData s o n := by
  subst hx
  rw [getData, getData, List.length_append, List.drop_append, List.drop_eq_nil_of_le (by omega),
    List.nil_append, Nat.add_sub_cancel_left]
  exact if_congr (by omega) rfl rfl

theorem getData_take {stream : Bytes} {m : ℕ} (hm : m ≤ stream.length) (uOffset uLength : ℕ) :
    getData (stream.take m) uOffset uLength =
      if uOffset + uLength ≤ m then getData stream uOffset uLength else none := by
  rw [getData, List.length_take_of_le hm]
  by_cases hin : uOffset + uLength ≤ m
  · rw [if_pos hin, if_neg (not_lt.mpr hin), getData, if_neg (not_lt.mpr (hin.trans hm)),
      List.drop_take, List.take_take, min_eq_left (by omega)]
  · rw [if_neg hin, if_pos (not_le.mp hin)]

end Buffer

section Stream

variable {z : Zlib} (crc : Bytes → Bytes)

theorem makePacket_append (Name : Bytes) (v : CVariant) (rest : Bytes) :
    makePacket z Name v ++ rest = littleEndian 1 Name.length ++ (Name ++
      (littleEndian 1 (v.type + 64 * lengthForm v.payload.length false) ++
        (littleEndian (lengthBytes (lengthForm v.payload.length false)) v.payload.length ++ (v.payload ++ rest)))) := by
  rw [makePacket, toPacket, if_neg Bool.false_ne_true]
  dsimp only
  rw [plainPacket]
  simp only [List.append_assoc]

theorem length_makePacket (Name : Bytes) (v : CVariant) : (makePacket z Name v).length =
    1 + Name.length + (1 + lengthBytes (lengthForm v.payload.length false) + v.payload.length) := by
  have h := congrArg List.length (makePacket_append (z := z) Name v [])
  simp only [List.length_append, length_littleEndian, List.length_nil] at h
  omega

/-- Where the parts of a packet are found in a stream. -/
theorem getData_parts (Name : Bytes) (v : CVariant) (rest : Bytes) :
    getData (makePacket z Name v ++ rest) 0 1 = some (littleEndian 1 Name.length) ∧
      getData (makePacket z Name v ++ rest) 1 Name.length = some Name ∧
      getData (makePacket z Name v ++ rest) (1 + Name.length) 1 =
        some (littleEndian 1 (v.type + 64 * lengthForm v.payload.length false)) ∧
      getData (makePacket z Name v ++ rest) (1 + Name.length + 1) (lengthBytes (lengthForm v.payload.length false)) =
        some (littleEndian (lengthBytes (lengthForm v.payload.length false)) v.payload.length) := by
  have hone := length_littleEndian 1
  rw [makePacket_append]
  refine ⟨getData_front (hone _) _, ?_, ?_, ?_⟩
  · rw [← Nat.add_zero 1, getData_append (hone _)]
    exact getData_front rfl _
  · rw [getData_append (hone _), ← Nat.add_zero Name.length, getData_append rfl]
    exact getData_front (hone _) _
  · rw [Nat.add_assoc, getData_append (hone _), getData_append rfl, ← Nat.add_zero 1, getData_append (hone _)]
    exact getData_front (length_littleEndian _ _) _

variable {p : Bytes × CVariant}

/-- The numbers in a packet are read as they were written. -/
theorem numbers_parts (hp : Sendable p) : ofLittleEndian (littleEndian 1 p.1.length) = p.1.length ∧
      ofLittleEndian (littleEndian 1 (p.2.type + 64 * lengthForm p.2.payload.length false)) / 64 =
        lengthForm p.2.payload.length false ∧
      ofLittleEndian (littleEndian (lengthBytes (lengthForm p.2.payload.length false))
        p.2.payload.length) = p.2.payload.length := by
  have hname := hp.1
  have htype := hp.2.type_lt
  have hform := lengthForm_bounds p.2.payload.length false
  rw [ofLittleEndian_littleEndian, ofLittleEndian_littleEndian, ofLittleEndian_littleEndian]
  exact ⟨by omega, by omega, Nat.mod_eq_of_lt (lt_lengthBytes hp.2.length_lt false)⟩

/-- The variant of a packet is read from behind the name. -/
theorem fromPacket_drop (hp : Sendable p) (rest : Bytes) {m : ℕ} (hm : (makePacket z p.1 p.2).length ≤ m) : ∃ later,
      fromPacket z false (((makePacket z p.1 p.2 ++ rest).take m).drop (1 + p.1.length)) =
        some ((received p).2, later) := by
  obtain ⟨more, rfl⟩ := Nat.exists_eq_add_of_le hm
  have hfront : (makePacket z p.1 p.2 ++ rest).take ((makePacket z p.1 p.2).length + more) =
      littleEndian 1 p.1.length ++ p.1 ++ (plainPacket p.2.type false p.2.payload ++ rest.take more) := by
    rw [List.take_length_add_append, makePacket, toPacket, if_neg Bool.false_ne_true]
    exact List.append_assoc _ _ _
  have hlength : (littleEndian 1 p.1.length ++ p.1).length = 1 + p.1.length := by
    rw [List.length_append, length_littleEndian]
  rw [hfront, List.drop_left' hlength]
  exact ⟨rest.take more, fromPacket_plainPacket hp.2 false _⟩

/-- A packet is taken from the front of a stream as soon as it is complete, and not before. -/
theorem streamPacket_take (hp : Sendable p) (rest : Bytes) {m : ℕ}
    (hpos : 0 < m) (hm : m ≤ (makePacket z p.1 p.2 ++ rest).length) :
    streamPacket z crc ((makePacket z p.1 p.2 ++ rest).take m) = if m < (makePacket z p.1 p.2).length then
        (Outcome.incomplete, (makePacket z p.1 p.2 ++ rest).take m)
      else (Outcome.packet p.1 (received p).2,
        ((makePacket z p.1 p.2 ++ rest).take m).drop (makePacket z p.1 p.2).length) := by
  have hlength := length_makePacket (z := z) p.1 p.2
  have hname := hp.1
  have hget := getData_take hm
  obtain ⟨hfirst, hpName, hpType, hpSize⟩ := getData_parts (z := z) p.1 p.2 rest
  obtain ⟨hLen, hform, hSize⟩ := numbers_parts hp
  have hnocheck : decide (128 ≤ p.1.length) = false := decide_eq_false (by omega)
  have hmod : p.1.length % 128 = p.1.length := Nat.mod_eq_of_lt (by omega)
  rw [streamPacket, hget, if_pos (by omega), hfirst]
  dsimp only
  rw [hLen, hmod, hnocheck, if_neg Bool.false_ne_true, hget]
  by_cases hin : 1 + p.1.length ≤ m
  swap
  · rw [if_neg hin, if_pos (show m < (makePacket z p.1 p.2).length by omega)]
  rw [if_pos hin, hpName]
  dsimp only
  rw [hget]
  by_cases hinType : 1 + p.1.length + 1 ≤ m
  swap
  · rw [if_neg hinType, if_pos (show m < (makePacket z p.1 p.2).length by omega)]
  rw [if_pos hinType, hpType]
  dsimp only
  rw [hform, hget]
  by_cases hinSize : 1 + p.1.length + 1 + lengthBytes (lengthForm p.2.payload.length false) ≤ m
  swap
  · rw [if_neg hinSize, if_pos (show m < (makePacket z p.1 p.2).length by omega)]
  rw [if_pos hinSize, hpSize]
  dsimp only
  rw [hSize, Nat.add_zero, List.length_take_of_le hm]
  by_cases hcomplete : m < (makePacket z p.1 p.2).length
  · rw [if_pos hcomplete, if_pos (by omega)]
  · obtain ⟨later, hfrom⟩ := fromPacket_drop hp rest (not_lt.mp hcomplete)
    rw [if_neg hcomplete, if_neg (by omega), if_neg fun hc => absurd hc.1 Bool.false_ne_true, hfrom, hlength]

variable (z) in
/-- What a call does with the front of a stream: it takes the first packet, with its tree, or leaves the
buffer as it is, because that packet is not there completely. -/
def Meets (ps : List (Bytes × CVariant)) (Buffer : Bytes) : Prop :=
  match streamPacket z crc Buffer with
  | (Outcome.packet Name Packet, rest) => ∃ p later, ps = p :: later ∧ (Name, Packet) = received p ∧
      Packet.tree = p.2.tree ∧ Buffer = makePacket z p.1 p.2 ++ rest
  | (Outcome.incomplete, rest) => rest = Buffer ∧
      ∀ p later, ps = p :: later → Buffer.length < (makePacket z p.1 p.2).length
  | _ => False

theorem tree_received (hp : Sendable p) : (received p).2.tree = p.2.tree :=
  parse_payload p.2 hp.2 _ le_rfl

theorem wire_cons (p : Bytes × CVariant) (ps : List (Bytes × CVariant)) :
    wire z (p :: ps) = makePacket z p.1 p.2 ++ wire z ps := List.flatMap_cons

theorem makePacket_pos (p : Bytes × CVariant) : 0 < (makePacket z p.1 p.2).length := by
  rw [length_makePacket]
  omega

variable {ps : List (Bytes × CVariant)} {Buffer : Bytes}

/-- A call takes the first packet of a stream, or says that it is not complete. -/
theorem streamPacket_front (hp : Sendable p) (hstart : Buffer <+: wire z (p :: ps)) (hne : Buffer ≠ []) :
    (Buffer.length < (makePacket z p.1 p.2).length ∧ streamPacket z crc Buffer = (Outcome.incomplete, Buffer)) ∨
    ∃ rest, Buffer = makePacket z p.1 p.2 ++ rest ∧ rest <+: wire z ps ∧
      streamPacket z crc Buffer = (Outcome.packet p.1 (received p).2, rest) := by
  rw [wire_cons] at hstart
  have htake := List.prefix_iff_eq_take.mp hstart
  have hcall := streamPacket_take crc hp (wire z ps) (List.length_pos_iff.mpr hne) hstart.length_le
  rw [← htake] at hcall
  by_cases hcomplete : Buffer.length < (makePacket z p.1 p.2).length
  · rw [if_pos hcomplete] at hcall
    exact Or.inl ⟨hcomplete, hcall⟩
  · rw [if_neg hcomplete] at hcall
    obtain ⟨rest, rfl⟩ := List.prefix_of_prefix_length_le (List.prefix_append _ (wire z ps)) hstart
      (not_lt.mp hcomplete)
    rw [List.drop_left] at hcall
    exact Or.inr ⟨rest, rfl, (List.prefix_append_right_inj _).mp hstart, hcall⟩

/-- A call does with the front of a stream what it should if and only if there is a byte. -/
theorem meets_iff (hps : ∀ p ∈ ps, Sendable p)
    (hstart : Buffer <+: wire z ps) : Meets z crc ps Buffer ↔ Buffer ≠ [] := by
  constructor
  · rintro hmeets rfl
    exact hmeets
  · intro hne
    cases ps with
    | nil => exact absurd (List.prefix_nil.mp hstart) hne
    | cons p ps =>
      have hp := hps p List.mem_cons_self
      rcases streamPacket_front crc hp hstart hne with ⟨hless, hcall⟩ | ⟨rest, hbuffer, -, hcall⟩
      · rw [Meets, hcall]
        exact ⟨rfl, fun q later hq => (List.cons.inj hq).1 ▸ hless⟩
      · rw [Meets, hcall]
        exact ⟨p, ps, rfl, rfl, tree_received hp, hbuffer⟩

/-- The loop takes all packets that are complete. -/
theorem process_spec {fuel : ℕ} (hps : ∀ p ∈ ps, Sendable p) (hstart : Buffer <+: wire z ps)
    (hfuel : Buffer.length < fuel) : ∃ before later rest, ps = before ++ later ∧ Buffer = wire z before ++ rest ∧
      process z crc fuel Buffer = some (before.map received, rest) ∧
      ∀ p more, later = p :: more → rest.length < (makePacket z p.1 p.2).length := by
  induction fuel generalizing ps Buffer with
  | zero => exact absurd hfuel (Nat.not_lt_zero _)
  | succ fuel ih =>
    rw [process]
    by_cases hne : Buffer = []
    · subst hne
      exact ⟨[], ps, [], rfl, rfl, rfl, fun p _ _ => makePacket_pos p⟩
    rw [if_pos (List.length_pos_iff.mpr hne)]
    cases ps with
    | nil => exact absurd (List.prefix_nil.mp hstart) hne
    | cons p ps =>
      rcases streamPacket_front crc (hps p List.mem_cons_self) hstart hne with
        ⟨hless, hcall⟩ | ⟨rest, rfl, hrest, hcall⟩
      · rw [hcall]
        exact ⟨[], p :: ps, Buffer, rfl, rfl, rfl, fun q _ hq => (List.cons.inj hq).1 ▸ hless⟩
      · have hpos := makePacket_pos (z := z) p
        rw [List.length_append] at hfuel
        obtain ⟨before, later, last, rfl, rfl, hprocess, hlast⟩ :=
          ih (fun q hq => hps q (List.mem_cons_of_mem _ hq)) hrest (by omega)
        rw [hcall]
        dsimp only
        rw [hprocess]
        exact ⟨p :: before, later, last, rfl, by rw [wire_cons, List.append_assoc], rfl, hlast⟩

/-- Chunk by chunk, all packets that are complete are taken. -/
theorem receive_spec (hps : ∀ p ∈ ps, Sendable p) (chunks : List Bytes) {before later : List (Bytes × CVariant)}
    (hsplit : ps = before ++ later) (hstart : Buffer ++ chunks.flatten <+: wire z later)
    (hlast : ∀ p more, later = p :: more → Buffer.length < (makePacket z p.1 p.2).length) :
    ∃ before' later' rest, ps = before' ++ later' ∧
      wire z before ++ (Buffer ++ chunks.flatten) = wire z before' ++ rest ∧
      chunks.foldlM (receive z crc) (before.map received, Buffer) = some (before'.map received, rest) ∧
      ∀ p more, later' = p :: more → rest.length < (makePacket z p.1 p.2).length := by
  induction chunks generalizing before later Buffer with
  | nil =>
    refine ⟨before, later, Buffer, hsplit, ?_, rfl, hlast⟩
    rw [List.flatten_nil, List.append_nil]
  | cons chunk chunks ih =>
    rw [List.flatten_cons, ← List.append_assoc Buffer] at hstart ⊢
    have hlater : ∀ p ∈ later, Sendable p := fun p hp =>
      hps p (hsplit ▸ List.mem_append_right _ hp)
    obtain ⟨taken, left, rest, rfl, hbuffer, hprocess, hrest⟩ := process_spec crc hlater
      ((List.prefix_append _ _).trans hstart) (Nat.lt_succ_self _)
    have hwire : wire z (taken ++ left) = wire z taken ++ wire z left := List.flatMap_append
    rw [hbuffer, hwire, List.append_assoc, List.prefix_append_right_inj] at hstart
    obtain ⟨before', later', last, hps', hbytes, hfold, hend⟩ :=
      ih (show ps = (before ++ taken) ++ left from hsplit.trans (List.append_assoc _ _ _).symm) hstart hrest
    refine ⟨before', later', last, hps', ?_, ?_, hend⟩
    · have happend : wire z (before ++ taken) = wire z before ++ wire z taken := List.flatMap_append
      rw [← hbytes, hbuffer, happend, List.append_assoc, List.append_assoc]
    · rw [List.foldlM_cons, receive, hprocess]
      rw [List.map_append] at hfold
      exact hfold

/-- A call with the front of a stream does what it should if and only if there is a byte, and called
for chunk after chunk as long as there are bytes all packets are received. -/
theorem streamPacket_exact {ps : List (Bytes × CVariant)} (hps : ∀ p ∈ ps, Sendable p) :
    (∀ Buffer, Buffer <+: wire z ps → (Meets z crc ps Buffer ↔ Buffer ≠ [])) ∧
      ∀ chunks : List Bytes, chunks.flatten = wire z ps →
        chunks.foldlM (receive z crc) ([], []) = some (ps.map received, []) := by
  refine ⟨fun Buffer hstart => meets_iff crc hps hstart, fun chunks hchunks => ?_⟩
  have hstart : ([] : Bytes) ++ chunks.flatten <+: wire z ps := by
    rw [hchunks]
    exact List.prefix_rfl
  obtain ⟨before, later, rest, rfl, hbytes, hfold, hlast⟩ :=
    receive_spec crc hps chunks (List.nil_append ps).symm hstart fun p _ _ => makePacket_pos p
  have hwire : wire z (before ++ later) = wire z before ++ wire z later := List.flatMap_append
  change [] ++ ([] ++ chunks.flatten) = _ at hbytes
  rw [List.nil_append, List.nil_append, hchunks, hwire, List.append_cancel_left_eq] at hbytes
  have hnone : later = [] := by
    cases later with
    | nil => rfl
    | cons p more =>
      have hless := hlast p more rfl
      rw [← hbytes, wire_cons, List.length_append] at hless
      omega
  subst hnone
  obtain rfl : rest = [] := hbytes.symm
  rw [List.append_nil]
  exact hfold

end Stream

/-- One packet. -/
def onePacket : List (Bytes × CVariant) := [([97], CVariant.raw 7 [1, 2])]

/-- It has five bytes, which are received in two chunks. -/
theorem streamPacket_exact_two : Meets zeroRuns id onePacket [1, 97] ∧
    [[1], [97, 71, 2, 1, 2]].foldlM (receive zeroRuns id) ([], []) = some (onePacket.map received, []) := by
  have hps : ∀ p ∈ onePacket, Sendable p := fun p hp => by
    rw [List.mem_singleton.mp hp]
    exact ⟨by decide, ⟨by decide, by decide⟩, by decide⟩
  exact ⟨((streamPacket_exact (z := zeroRuns) id hps).1 [1, 97] (by decide)).mpr nofun,
    (streamPacket_exact id hps).2 _ (by decide)⟩

/-- A call without any bytes reads from a null pointer. -/
theorem streamPacket_outside : [] <+: wire zeroRuns onePacket ∧ ¬Meets zeroRuns id onePacket [] :=
  ⟨List.nil_prefix, fun hc => hc⟩

end NeoLoader.PacketStream
