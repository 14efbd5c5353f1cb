import NeoLoader.MuleDownload

/-!
# Answers to requests for blocks

A sender answers each request for a block with the pieces of its data, plain or packed. The pieces of a block arrive
in their order, and those of several blocks in any. What is left of the pieces of a block goes with what was written
of it.
-/

namespace NeoLoader.MuleAnswers

open InflateStream Tiling MuleDownload
open MuleUpload hiding CMuleClient

/-- The bytes of a file in a range. -/
def content (file : ℕ → UInt8) (uBegin uEnd : ℕ) : List UInt8 :=
  (List.range (uEnd - uBegin)).map fun i => file (uBegin + i)

/-- The pieces of an answer that are still to come, and the ranges that were handed over for the others. -/
structure Answer where
  /-- First offset of the block. -/
  uBegin : ℕ
  /-- First offset after the block. -/
  uEnd : ℕ
  /-- The packets to come. -/
  packets : List PartPacket
  /-- The ranges handed over. -/
  ranges : List (Span (List UInt8))

/-- A peer with the answers of the sender. -/
structure Transfer (Z : Type*) where
  /-- The peer that receives. -/
  client : CMuleClient Z
  /-- The answers. -/
  answers : List Answer

/-- A step of a transfer. -/
inductive TransferOp where
  /-- A block is requested, which the sender answers from a slow upload or not. -/
  | request (range : UInt64 × UInt64) (slow : Bool)
  /-- The next packet of an answer arrives. -/
  | deliver (i : ℕ)

section Sender

variable {Z : Type*} (zlib : Zlib Z) (peer : Peer) (file : ℕ → UInt8) (hash : ℕ) (bI64 : Bool)

/-- The packets that answer the request for a block, whose offsets have the size that `SendBlockRequest` takes. -/
def answerPackets (range : UInt64 × UInt64) (slow : Bool) : List PartPacket :=
  (blockPackets peer slow ⟨0, offsetField bI64 range.1.toNat, offsetField bI64 range.2.toNat, hash⟩
    (content file (offsetField bI64 range.1.toNat) (offsetField bI64 range.2.toNat))).1

/-- The answer of the sender, if the block is not empty. -/
def newAnswers (range : UInt64 × UInt64) (slow : Bool) : List Answer :=
  if range.1 < range.2 then
    [⟨range.1.toNat, range.2.toNat, answerPackets peer file hash bI64 range slow, []⟩]
  else []

/-- The next state of a transfer. -/
def transferStep (t : Transfer Z) : TransferOp → Transfer Z
  | .request range slow =>
    { client := sendBlockRequest [range] t.client
      answers := t.answers ++ newAnswers peer file hash bI64 range slow }
  | .deliver i =>
    match t.answers[i]? with
    | none => t
    | some a =>
      match a.packets with
      | [] => t
      | packet :: packets =>
        let processed := processBlock zlib packet t.client
        { client := processed.1
          answers := t.answers.set i { a with packets := packets, ranges := a.ranges ++ processed.2 } }

/-- The condition of a request: its offsets have room in the packets, and it does not overlap a block of which there
are packets to come. -/
def TransferOk (t : Transfer Z) : TransferOp → Prop
  | .request range _ => range.1 < range.2 → (bI64 = true ∧ peer.bI64 = true ∨ range.2.toNat < 2 ^ 32) ∧
      ∀ a ∈ t.answers, a.packets ≠ [] → range.2.toNat ≤ a.uBegin ∨ a.uEnd ≤ range.1.toNat
  | .deliver _ => True

/-- The state of a transfer after some steps. -/
def transferRun (t : Transfer Z) (ops : List TransferOp) : Transfer Z :=
  ops.foldl (transferStep zlib peer file hash bI64) t

/-- All requests meet the condition. -/
def TransferRunOk : Transfer Z → List TransferOp → Prop
  | _, [] => True
  | t, op :: ops => TransferOk peer bI64 t op ∧ TransferRunOk (transferStep zlib peer file hash bI64 t op) ops

end Sender

section Pieces

variable {file : ℕ → UInt8} {peer : Peer}

@[simp] theorem length_content (uBegin uEnd : ℕ) : (content file uBegin uEnd).length = uEnd - uBegin := by
  simp [content]

variable {uBegin uEnd : ℕ}

theorem take_content (h : uBegin ≤ uEnd) (n : ℕ) :
    (content file uBegin uEnd).take n = content file uBegin (min (uBegin + n) uEnd) := by
  unfold content
  rw [← List.map_take, List.take_range, show min (uBegin + n) uEnd - uBegin = min n (uEnd - uBegin) by omega]

theorem drop_content (n : ℕ) : (content file uBegin uEnd).drop n = content file (uBegin + n) uEnd := by
  refine List.ext_getElem (by simp; omega) fun i h h' => ?_
  simp [content, Nat.add_assoc]

/-- The bytes behind the first ones of a range. -/
theorem eq_content_of_prefix {written output : List UInt8} (h : written ++ output <+: content file uBegin uEnd) :
    written.length + output.length ≤ uEnd - uBegin ∧
      output = content file (uBegin + written.length) (uBegin + written.length + output.length) := by
  obtain ⟨behind, heq⟩ := h
  have hlength := congrArg List.length heq
  simp only [List.length_append, length_content] at hlength
  refine ⟨by omega, ?_⟩
  have hdrop : (content file uBegin uEnd).drop written.length = output ++ behind := by
    rw [← heq, List.append_assoc, List.drop_left]
  rw [drop_content] at hdrop
  rcases Nat.lt_or_ge uEnd (uBegin + written.length) with hbehind | hle
  · have hnone : output = [] := List.length_eq_zero_iff.mp (by omega)
    simp [hnone, content]
  · have htake := congrArg (List.take output.length) hdrop
    rw [take_content hle, List.take_left] at htake
    rw [← htake]
    congr 1
    simp
    omega

theorem pieces_nil : pieces [] = [] := by
  decide

/-- The first piece. -/
theorem pieces_cons {data : List UInt8} (h : data ≠ []) :
    pieces data = data.take 10240 :: pieces (data.drop 10240) := by
  have hpos : 0 < data.length := List.length_pos_iff.mpr h
  have hcount : ShareMapBits.divUp data.length 10240 = ShareMapBits.divUp (data.drop 10240).length 10240 + 1 := by
    rw [ShareMapBits.divUp, ShareMapBits.divUp, List.length_drop]
    omega
  unfold pieces
  rw [hcount, List.range_succ_eq_map, List.map_cons, List.map_map]
  simp only [Nat.zero_mul, List.drop_zero, List.drop_drop, List.cons.injEq, true_and]
  refine List.map_congr_left fun k _ => ?_
  simp only [Function.comp_apply, Nat.succ_eq_add_one]
  rw [Nat.add_mul, Nat.one_mul, Nat.add_comm]

theorem plainPackets_nil (block : SPendingBlock) : plainPackets peer block [] = [] := by
  rw [plainPackets, pieces_nil, List.mapIdx_nil]

theorem plainPackets_cons {block : SPendingBlock} {data : List UInt8} (h : data ≠ []) : plainPackets peer block data =
      .sendingPart block.hash (offsetField peer.bI64 block.uBegin)
        (offsetField peer.bI64 (block.uBegin + (data.take 10240).length)) (data.take 10240) ::
      plainPackets peer { block with uBegin := block.uBegin + 10240 } (data.drop 10240) := by
  rw [plainPackets, plainPackets, pieces_cons h, List.mapIdx_cons]
  simp only [Nat.zero_mul, Nat.add_zero, Nat.add_mul, Nat.one_mul, Nat.add_assoc, Nat.add_comm 10240]

/-- The packets of what is left of packed data. -/
def packedLeft (hash uBegin uNewSize : ℕ) (left : List UInt8) : List PartPacket :=
  (pieces left).map fun data => .compressedPart hash uBegin uNewSize data

theorem packedLeft_nil (hash uBegin uNewSize : ℕ) : packedLeft hash uBegin uNewSize [] = [] := by
  rw [packedLeft, pieces_nil, List.map_nil]

theorem packedLeft_cons {hash uBegin uNewSize : ℕ} {left : List UInt8} (h : left ≠ []) :
    packedLeft hash uBegin uNewSize left = .compressedPart hash uBegin uNewSize (left.take 10240) ::
        packedLeft hash uBegin uNewSize (left.drop 10240) := by
  rw [packedLeft, pieces_cons h, List.map_cons, packedLeft]

end Pieces

section Slots

variable {Z : Type*} {zlib : Zlib Z} {peer : Peer} {file : ℕ → UInt8} {hash : ℕ}

/-- The packets to come are plain ones of what was not written. -/
def PlainLeft (peer : Peer) (file : ℕ → UInt8) (hash : ℕ) (packets : List PartPacket) (b : SRequestedBlock Z) : Prop :=
  packets = plainPackets peer ⟨0, b.uBegin + b.uWriten, b.uEnd, hash⟩ (content file (b.uBegin + b.uWriten) b.uEnd)

/-- The packets to come are packed ones, and the stream is after those that came. -/
def PackedLeft (zlib : Zlib Z) (file : ℕ → UInt8) (hash : ℕ) (packets : List PartPacket)
    (b : SRequestedBlock Z) : Prop :=
  ∃ packed At read written left uNewSize, Inflates zlib packed (content file b.uBegin b.uEnd) At ∧
    packed = read ++ left ∧ left ≠ [] ∧ packets = packedLeft hash b.uBegin uNewSize left ∧
      Before At read written b.zStream ∧ written.length = b.uWriten ∧ written <+: content file b.uBegin b.uEnd

/-- An answer and its block, if that is still outstanding. -/
structure SlotOk (zlib : Zlib Z) (peer : Peer) (file : ℕ → UInt8) (hash : ℕ) (a : Answer)
    (slot : Option (SRequestedBlock Z)) : Prop where
  /-- The block is not empty. -/
  less : a.uBegin < a.uEnd
  /-- The offsets have room in the packets. -/
  fields : ∀ x ≤ a.uEnd, offsetField peer.bI64 x = x
  /-- The ranges have their bytes. -/
  values : ∀ range ∈ a.ranges, range.value = content file range.first range.last
  /-- All was written of a block that is done. -/
  done : slot = none → Tiles a.uBegin a.uEnd a.ranges ∧
    ∃ uNewSize left, a.packets = packedLeft hash a.uBegin uNewSize left
  /-- What was written of an outstanding block is a front part of it. -/
  outstanding : ∀ b ∈ slot, b.uBegin = a.uBegin ∧ b.uEnd = a.uEnd ∧ b.uWriten < a.uEnd - a.uBegin ∧
    Tiles a.uBegin (a.uBegin + b.uWriten) a.ranges ∧
      (PlainLeft peer file hash a.packets b ∨ PackedLeft zlib file hash a.packets b)

variable {a : Answer}

theorem SlotOk.uEnd_lt {slot : Option (SRequestedBlock Z)}
    (h : SlotOk zlib peer file hash a slot) : a.uEnd < 2 ^ 64 := by
  have hfield := h.fields a.uEnd le_rfl
  unfold offsetField at hfield
  split_ifs at hfield
  · rw [← hfield]
    exact Nat.mod_lt _ (by norm_num)
  · rw [← hfield]
    exact (Nat.mod_lt _ (by norm_num)).trans (by norm_num)

variable {packets : List PartPacket} {b : SRequestedBlock Z}

/-- More bytes of a block are written. -/
theorem SlotOk.write (h : SlotOk zlib peer file hash a (some b))
    {uLength : ℕ} {zStream : Option Z} {range : Span (List UInt8)}
    (hpos : 0 < uLength) (hfits : b.uWriten + uLength ≤ a.uEnd - a.uBegin)
    (hrange : range = ⟨a.uBegin + b.uWriten, a.uBegin + b.uWriten + uLength,
      content file (a.uBegin + b.uWriten) (a.uBegin + b.uWriten + uLength)⟩)
    (hdone : b.uWriten + uLength = a.uEnd - a.uBegin →
      ∃ uNewSize left, packets = packedLeft hash a.uBegin uNewSize left)
    (hopen : b.uWriten + uLength < a.uEnd - a.uBegin →
      PlainLeft peer file hash packets { b with uWriten := b.uWriten + uLength, zStream := zStream } ∨
        PackedLeft zlib file hash packets { b with uWriten := b.uWriten + uLength, zStream := zStream }) :
    SlotOk zlib peer file hash { a with packets := packets, ranges := a.ranges ++ [range] }
      (writeBlock uLength zStream b) := by
  obtain ⟨hbegin, hend, hless, htiles, -⟩ := h.outstanding b rfl
  have hmod : (b.uWriten + uLength) % 2 ^ 64 = b.uWriten + uLength := by
    have hlt := h.uEnd_lt
    exact Nat.mod_eq_of_lt (by omega)
  have htiles' : Tiles a.uBegin (a.uBegin + (b.uWriten + uLength)) (a.ranges ++ [range]) := by
    refine tiles_append.mpr ⟨_, htiles, ?_⟩
    rw [hrange]
    exact ⟨rfl, by simpa using hpos, by simp [Tiles, Nat.add_assoc]⟩
  have hvalues : ∀ r ∈ a.ranges ++ [range], r.value = content file r.first r.last := by
    intro r hr
    rcases List.mem_append.mp hr with hr | hr
    · exact h.values r hr
    · rw [List.mem_singleton.mp hr, hrange]
  have hwrite : writeBlock uLength zStream b = if a.uEnd - a.uBegin ≤ b.uWriten + uLength then none
      else some { b with uWriten := b.uWriten + uLength, zStream := zStream } := by
    rw [writeBlock, hmod, hbegin, hend]
  rw [hwrite]
  refine ⟨h.less, h.fields, hvalues, fun hnone => ?_, fun b' hb' => ?_⟩
  · split_ifs at hnone with hall
    have hsize : b.uWriten + uLength = a.uEnd - a.uBegin := le_antisymm hfits hall
    refine ⟨?_, hdone hsize⟩
    rw [hsize, Nat.add_sub_cancel' h.less.le] at htiles'
    exact htiles'
  · split_ifs at hb' with hall
    · simp at hb'
    · rw [Option.mem_some_iff] at hb'
      subst hb'
      exact ⟨hbegin, hend, not_le.mp hall, htiles', hopen (not_le.mp hall)⟩

variable {packet : PartPacket}

section

variable (h : SlotOk zlib peer file hash a (some b)) (hpackets : a.packets = packet :: packets)

include h hpackets

/-- The next plain packet of an answer. -/
theorem SlotOk.plain (hleft : PlainLeft peer file hash a.packets b) :
    ∃ range : Span (List UInt8), packet = .sendingPart hash range.first range.last range.value ∧
      a.uBegin ≤ range.first ∧ range.first < range.last ∧ range.last ≤ a.uEnd ∧
      SlotOk zlib peer file hash { a with packets := packets, ranges := a.ranges ++ [range] }
        (writeBlock range.value.length b.zStream b) := by
  obtain ⟨hbegin, hend, hless, -, -⟩ := h.outstanding b rfl
  rw [PlainLeft, hpackets] at hleft
  generalize hx : b.uBegin + b.uWriten = x at hleft
  have hne : content file x b.uEnd ≠ [] := by
    rw [← List.length_pos_iff, length_content]
    omega
  obtain ⟨n, hn⟩ : ∃ n, n = min 10240 (b.uEnd - x) := ⟨_, rfl⟩
  have htake : (content file x b.uEnd).take 10240 = content file x (x + n) := by
    rw [take_content (by omega), show min (x + 10240) b.uEnd = x + n by omega]
  have hlength : (content file x (x + n)).length = n := by simp
  have hrest : plainPackets peer ⟨0, x + 10240, b.uEnd, hash⟩ ((content file x b.uEnd).drop 10240) =
      plainPackets peer ⟨0, x + n, b.uEnd, hash⟩ (content file (x + n) b.uEnd) := by
    rw [drop_content]
    rcases Nat.lt_or_ge (b.uEnd - x) 10240 with hlast | hmore
    · have hnone : content file (x + 10240) b.uEnd = [] := List.length_eq_zero_iff.mp (by simp; omega)
      have hnone' : content file (x + n) b.uEnd = [] := List.length_eq_zero_iff.mp (by simp; omega)
      rw [hnone, hnone', plainPackets_nil, plainPackets_nil]
    · rw [show n = 10240 by omega]
  rw [plainPackets_cons hne, htake, hlength, List.cons.injEq] at hleft
  obtain ⟨hpacket, hleft⟩ := hleft
  rw [hrest] at hleft
  rw [h.fields x (by omega), h.fields (x + n) (by omega)] at hpacket
  refine ⟨⟨x, x + n, content file x (x + n)⟩, hpacket, by dsimp only; omega, by dsimp only; omega,
    by dsimp only; omega, ?_⟩
  dsimp only
  rw [hlength]
  refine h.write (by omega) (by omega) (by rw [← hx, hbegin]) (fun hall => ⟨0, [], ?_⟩) fun _ => Or.inl ?_
  · have hnone : content file (x + n) b.uEnd = [] := List.length_eq_zero_iff.mp (by simp; omega)
    rw [hleft, hnone, plainPackets_nil, packedLeft_nil]
  · rw [PlainLeft, hleft, ← Nat.add_assoc, hx]

/-- The next packed packet of an answer. -/
theorem SlotOk.packed (hleft : PackedLeft zlib file hash a.packets b) :
    ∃ uNewSize data, packet = .compressedPart hash a.uBegin uNewSize data ∧
      ((unpackFor zlib data b).1 = [] ∧ SlotOk zlib peer file hash { a with packets := packets }
          (some { b with zStream := (unpackFor zlib data b).2 }) ∨
        (unpackFor zlib data b).1 ≠ [] ∧ b.uWriten + (unpackFor zlib data b).1.length ≤ a.uEnd - a.uBegin ∧
          SlotOk zlib peer file hash { a with
              packets := packets
              ranges := a.ranges ++ [⟨a.uBegin + b.uWriten,
                a.uBegin + b.uWriten + (unpackFor zlib data b).1.length, (unpackFor zlib data b).1⟩] }
            (writeBlock (unpackFor zlib data b).1.length (unpackFor zlib data b).2 b)) := by
  obtain ⟨hbegin, hend, hless, htiles, -⟩ := h.outstanding b rfl
  obtain ⟨packed, At, read, written, left, uNewSize, hinflates, hpacked, hne, hleft, hbefore, hwritten, hfront⟩ :=
    hleft
  rw [hpackets, packedLeft_cons hne, List.cons.injEq, hbegin] at hleft
  obtain ⟨hpacket, hleft⟩ := hleft
  refine ⟨uNewSize, _, hpacket, ?_⟩
  have hchunk : left.take 10240 ≠ [] := by
    intro hnone
    have hlength := congrArg List.length hnone
    rw [List.length_take, List.length_nil] at hlength
    have hpos := List.length_pos_iff.mpr hne
    omega
  have hread : read ++ left.take 10240 <+: packed := by
    rw [hpacked, List.prefix_append_right_inj]
    exact List.take_prefix _ _
  have hafter := hinflates.ungzipArr hbefore hchunk hread
  have hstream : unpackFor zlib (left.take 10240) b = ungzipArr zlib b.zStream (left.take 10240) := rfl
  rw [hstream]
  generalize ungzipArr zlib b.zStream (left.take 10240) = unpacked at hafter ⊢
  obtain ⟨output, zStream⟩ := unpacked
  dsimp only at hafter ⊢
  cases zStream with
  | some zS =>
    obtain ⟨hat, hmore⟩ := hafter
    have hbehind : left.drop 10240 ≠ [] := by
      intro hnone
      refine hmore ?_
      rw [hpacked, ← List.take_append_drop 10240 left, hnone, List.append_nil, List.take_take, Nat.min_self]
    have hgoes : ∀ b' : SRequestedBlock Z, b'.uBegin = b.uBegin → b'.uEnd = b.uEnd → b'.zStream = some zS →
        b'.uWriten = b.uWriten + output.length → PackedLeft zlib file hash packets b' := by
      intro b' hbegin' hend' hzStream hcount
      refine ⟨packed, At, read ++ left.take 10240, written ++ output, left.drop 10240, uNewSize, ?_, ?_, hbehind, ?_,
        ?_, ?_, ?_⟩
      · rw [hbegin', hend']
        exact hinflates
      · rw [List.append_assoc, List.take_append_drop]
        exact hpacked
      · rw [hbegin', hbegin]
        exact hleft
      · rw [hzStream]
        exact hat
      · rw [List.length_append, hwritten, hcount]
      · rw [hbegin', hend']
        exact hinflates.isPrefix hat
    obtain ⟨hfits, houtput⟩ := eq_content_of_prefix (hinflates.isPrefix hat)
    rw [hwritten, hbegin] at houtput
    rw [hwritten, hbegin, hend] at hfits
    by_cases hnone : output = []
    · refine Or.inl ⟨hnone, { h with done := by simp, outstanding := fun b' hb' => ?_ }⟩
      rw [Option.mem_some_iff] at hb'
      subst hb'
      exact ⟨hbegin, hend, hless, htiles, Or.inr (hgoes _ rfl rfl rfl (by simp [hnone]))⟩
    · refine Or.inr ⟨hnone, hfits, h.write (List.length_pos_iff.mpr hnone) hfits (by rw [← houtput])
        (fun _ => ⟨uNewSize, _, hleft⟩) fun _ => Or.inr (hgoes _ rfl rfl rfl rfl)⟩
  | none =>
    obtain ⟨hall, hdata⟩ := hafter
    have hlength := congrArg List.length hdata
    rw [List.length_append, hwritten, length_content, hbegin, hend] at hlength
    have hnone : output ≠ [] := by
      rintro rfl
      rw [List.length_nil] at hlength
      omega
    have hfront : written ++ output <+: content file b.uBegin b.uEnd := by
      rw [hdata]
    obtain ⟨-, houtput⟩ := eq_content_of_prefix hfront
    rw [hwritten, hbegin] at houtput
    refine Or.inr ⟨hnone, hlength.le, h.write (List.length_pos_iff.mpr hnone) hlength.le (by rw [← houtput])
      (fun _ => ⟨uNewSize, _, hleft⟩) fun hmore => absurd hlength hmore.ne⟩

end

/-- A packet of an answer whose block is done. -/
theorem SlotOk.rest (h : SlotOk zlib peer file hash a none) (hpackets : a.packets = packet :: packets) :
    (∃ uNewSize data, packet = .compressedPart hash a.uBegin uNewSize data) ∧
      SlotOk zlib peer file hash { a with packets := packets } none := by
  obtain ⟨htiles, uNewSize, left, hleft⟩ := h.done rfl
  have hne : left ≠ [] := by
    rintro rfl
    rw [packedLeft_nil, hpackets] at hleft
    exact List.cons_ne_nil _ _ hleft
  rw [packedLeft_cons hne, hpackets, List.cons.injEq] at hleft
  exact ⟨⟨uNewSize, _, hleft.1⟩,
    { h with done := fun _ => ⟨htiles, uNewSize, _, hleft.2⟩, outstanding := by simp }⟩

end Slots

section Deliveries

variable {Z : Type*} {zlib : Zlib Z} {peer : Peer} {file : ℕ → UInt8} {hash : ℕ} {bI64 : Bool}

theorem find_behind {α : Type*} {p : α → Bool} {before behind : List α} {b : α} (h : ∀ a ∈ before, p a = false)
    (hb : p b = true) : (before ++ b :: behind).find? p = some b := by
  rw [List.find?_append, List.find?_eq_none.mpr (by simpa using h), Option.none_or, List.find?_cons_of_pos hb]

theorem atFirst_behind {α : Type*} {p : α → Bool} {f : α → Option α} {before behind : List α} {b : α}
    (h : ∀ a ∈ before, p a = false) (hb : p b = true) :
    atFirst p f (before ++ b :: behind) = before ++ (f b).toList ++ behind := by
  induction before with
  | nil => simp [atFirst, hb]
  | cons a before ih =>
    rw [List.forall_mem_cons] at h
    simp [atFirst, h.1, ih h.2]

/-- The two ranges do not overlap. -/
def ApartFrom (a a' : Answer) : Prop := a.uEnd ≤ a'.uBegin ∨ a'.uEnd ≤ a.uBegin

/-- The blocks of some answers. -/
def blocksOf (slots : List (Answer × Option (SRequestedBlock Z))) : List (SRequestedBlock Z) :=
  slots.filterMap Prod.snd

/-- An outstanding block is one of an answer of which there are packets to come. -/
theorem SlotOk.packets_ne_nil {a : Answer} {b : SRequestedBlock Z} (h : SlotOk zlib peer file hash a (some b)) :
    a.packets ≠ [] := by
  obtain ⟨hbegin, hend, hless, -, hleft | hleft⟩ := h.outstanding b rfl
  · have hne : content file (b.uBegin + b.uWriten) b.uEnd ≠ [] := by
      rw [← List.length_pos_iff, length_content]
      omega
    rw [hleft, plainPackets_cons hne]
    exact List.cons_ne_nil _ _
  · obtain ⟨packed, At, read, written, left, uNewSize, -, -, hne, hpackets, -⟩ := hleft
    rw [hpackets, packedLeft_cons hne]
    exact List.cons_ne_nil _ _

/-- A transfer with the blocks of its answers. -/
structure TransferInv (zlib : Zlib Z) (peer : Peer) (file : ℕ → UInt8) (hash : ℕ) (t : Transfer Z)
    (slots : List (Answer × Option (SRequestedBlock Z))) : Prop where
  /-- The file is downloaded. -/
  wanted : t.client.isWanted hash = true
  /-- The answers. -/
  answers : t.answers = slots.map Prod.fst
  /-- The outstanding blocks. -/
  blocks : t.client.m_IncomingBlocks = blocksOf slots
  /-- Each answer goes with its block. -/
  slots_ok : ∀ slot ∈ slots, SlotOk zlib peer file hash slot.1 slot.2
  /-- Blocks of which there are packets to come do not overlap. -/
  apart : slots.Pairwise fun slot slot' =>
    slot.1.packets ≠ [] → slot'.1.packets ≠ [] → ApartFrom slot.1 slot'.1

/-- Blocks of other answers do not overlap with the one of an answer. -/
theorem blocks_apart {before behind : List (Answer × Option (SRequestedBlock Z))} {a : Answer}
    {slot : Option (SRequestedBlock Z)}
    (hslots : ∀ other ∈ before ++ (a, slot) :: behind, SlotOk zlib peer file hash other.1 other.2)
    (hapart : (before ++ (a, slot) :: behind).Pairwise fun slot slot' =>
      slot.1.packets ≠ [] → slot'.1.packets ≠ [] → ApartFrom slot.1 slot'.1) (hpackets : a.packets ≠ []) :
    ∀ b ∈ blocksOf before ++ blocksOf behind, b.uBegin < b.uEnd ∧ (b.uEnd ≤ a.uBegin ∨ a.uEnd ≤ b.uBegin) := by
  have hother : ∀ other ∈ before ++ behind, ∀ b ∈ other.2, ApartFrom other.1 a →
      b.uBegin < b.uEnd ∧ (b.uEnd ≤ a.uBegin ∨ a.uEnd ≤ b.uBegin) := by
    intro other hother b hb hne
    have hok := hslots other (by
      rcases List.mem_append.mp hother with hm | hm
      · exact List.mem_append_left _ hm
      · exact List.mem_append_right _ (List.mem_cons_of_mem _ hm))
    obtain ⟨hbegin, hend, -⟩ := hok.outstanding b hb
    rw [hbegin, hend]
    exact ⟨hok.less, hne⟩
  obtain ⟨-, htail, hcross⟩ := List.pairwise_append.mp hapart
  obtain ⟨hbehind, -⟩ := List.pairwise_cons.mp htail
  intro b hb
  rcases List.mem_append.mp hb with hb | hb
  · obtain ⟨other, hmem, hb⟩ := List.mem_filterMap.mp hb
    have hopen : other.1.packets ≠ [] := by
      have hok := hslots other (List.mem_append_left _ hmem)
      rw [hb] at hok
      exact hok.packets_ne_nil
    exact hother other (List.mem_append_left _ hmem) b hb (hcross other hmem _ List.mem_cons_self hopen hpackets)
  · obtain ⟨other, hmem, hb⟩ := List.mem_filterMap.mp hb
    have hopen : other.1.packets ≠ [] := by
      have hok := hslots other (List.mem_append_right _ (List.mem_cons_of_mem _ hmem))
      rw [hb] at hok
      exact hok.packets_ne_nil
    exact hother other (List.mem_append_right _ hmem) b hb (hbehind other hmem hpackets hopen).symm

/-- A packet of an answer changes its block only. -/
theorem deliver_slot {c : CMuleClient Z} {before behind : List (SRequestedBlock Z)} {a : Answer}
    {slot : Option (SRequestedBlock Z)} {packet : PartPacket} {packets : List PartPacket}
    (h : SlotOk zlib peer file hash a slot) (hpackets : a.packets = packet :: packets)
    (hwanted : c.isWanted hash = true) (hblocks : c.m_IncomingBlocks = before ++ slot.toList ++ behind)
    (hapart : ∀ b ∈ before ++ behind, b.uBegin < b.uEnd ∧ (b.uEnd ≤ a.uBegin ∨ a.uEnd ≤ b.uBegin)) :
    ∃ slot', (processBlock zlib packet c).1.m_IncomingBlocks = before ++ slot'.toList ++ behind ∧
      (processBlock zlib packet c).1.m_DownSource = c.m_DownSource ∧
      SlotOk zlib peer file hash
        { a with packets := packets, ranges := a.ranges ++ (processBlock zlib packet c).2 } slot' := by
  have hother : ∀ b ∈ before ++ behind, b.uBegin ≠ a.uBegin := by
    intro b hb heq
    obtain ⟨hless, hbefore | hbehind⟩ := hapart b hb
    · omega
    · have hsize := h.less
      omega
  have hfirst : ∀ b ∈ before, beginsAt a.uBegin b = false := fun b hb =>
    decide_eq_false (hother b (List.mem_append_left _ hb))
  cases slot with
  | none =>
    obtain ⟨⟨uNewSize, data, rfl⟩, hrest⟩ := h.rest hpackets
    have hnone : c.m_IncomingBlocks.find? (beginsAt a.uBegin) = none := by
      rw [hblocks, List.find?_eq_none]
      simpa [beginsAt] using hother
    have hprocess : processPacked zlib a.uBegin data c.m_IncomingBlocks = (c.m_IncomingBlocks, []) := by
      rw [processPacked, hnone]
    refine ⟨none, ?_⟩
    simp only [processBlock, hwanted, if_true, hprocess, List.append_nil]
    exact ⟨hblocks, trivial, hrest⟩
  | some b =>
    obtain ⟨hbegin, hend, hless, -, hplain | hpacked⟩ := h.outstanding b rfl
    · obtain ⟨range, rfl, hle, hlt, hlast, hnext⟩ := h.plain hpackets hplain
      have houtside : ∀ b ∈ before, isWithin range.first range.last b = false := by
        intro b hb
        have hne := hapart b (List.mem_append_left _ hb)
        rw [isWithin, decide_eq_false_iff_not]
        omega
      have hinside : isWithin range.first range.last b = true := by
        rw [isWithin, decide_eq_true_eq, hbegin, hend]
        exact ⟨hle, hlast⟩
      rw [Option.toList_some, List.append_assoc, List.singleton_append] at hblocks
      have hprocess : processPlain range.first range.last range.value c.m_IncomingBlocks =
          (before ++ (writeBlock range.value.length b.zStream b).toList ++ behind, [range]) := by
        rw [processPlain, hblocks, find_behind houtside hinside]
        dsimp only
        rw [atFirst_behind houtside hinside, if_neg hlt.ne']
      refine ⟨writeBlock range.value.length b.zStream b, ?_⟩
      simp only [processBlock, hwanted, if_true, hprocess, true_and]
      exact hnext
    · obtain ⟨uNewSize, data, rfl, hnext⟩ := h.packed hpackets hpacked
      have hthis : beginsAt a.uBegin b = true := decide_eq_true hbegin
      rw [Option.toList_some, List.append_assoc, List.singleton_append] at hblocks
      have hfind : c.m_IncomingBlocks.find? (beginsAt a.uBegin) = some b := by
        rw [hblocks]
        exact find_behind hfirst hthis
      have hrange : ∀ n, n ≤ a.uEnd → n % 2 ^ 64 = n := fun n hn => Nat.mod_eq_of_lt (hn.trans_lt h.uEnd_lt)
      rcases hnext with ⟨hnone, hnext⟩ | ⟨hsome, hroom, hnext⟩
      · have hprocess : processPacked zlib a.uBegin data c.m_IncomingBlocks =
            (before ++ (some { b with zStream := (unpackFor zlib data b).2 }).toList ++ behind, []) := by
          rw [processPacked, hfind]
          dsimp only
          rw [if_pos hnone, hblocks]
          rw [atFirst_behind hfirst hthis]
        refine ⟨some { b with zStream := (unpackFor zlib data b).2 }, ?_⟩
        simp only [processBlock, hwanted, if_true, hprocess, true_and, List.append_nil]
        exact hnext
      · have hfits : a.uBegin + b.uWriten + (unpackFor zlib data b).1.length ≤ a.uEnd := by omega
        have hprocess : processPacked zlib a.uBegin data c.m_IncomingBlocks =
            (before ++ (writeBlock (unpackFor zlib data b).1.length (unpackFor zlib data b).2 b).toList ++ behind,
              [⟨a.uBegin + b.uWriten, a.uBegin + b.uWriten + (unpackFor zlib data b).1.length,
                (unpackFor zlib data b).1⟩]) := by
          rw [processPacked, hfind]
          dsimp only
          rw [if_neg hsome, hblocks, hrange (a.uBegin + b.uWriten) (by omega), hrange _ hfits]
          rw [atFirst_behind hfirst hthis]
        refine ⟨writeBlock (unpackFor zlib data b).1.length (unpackFor zlib data b).2 b, ?_⟩
        simp only [processBlock, hwanted, if_true, hprocess, true_and]
        exact hnext

variable {slots : List (Answer × Option (SRequestedBlock Z))} {t : Transfer Z}

/-- A step with a packet keeps the answers with their blocks. -/
theorem TransferInv.deliver (h : TransferInv zlib peer file hash t slots) (i : ℕ) :
    ∃ slots', TransferInv zlib peer file hash (transferStep zlib peer file hash bI64 t (.deliver i)) slots' := by
  rw [transferStep]
  cases hanswer : t.answers[i]? with
  | none => exact ⟨slots, h⟩
  | some a =>
    dsimp only
    cases hpackets : a.packets with
    | nil => exact ⟨slots, h⟩
    | cons packet packets =>
      dsimp only
      rw [h.answers, List.getElem?_map, Option.map_eq_some_iff] at hanswer
      obtain ⟨⟨a', slot⟩, hslot, rfl⟩ := hanswer
      obtain ⟨hlt, hget⟩ := List.getElem?_eq_some_iff.mp hslot
      have hslots : slots = slots.take i ++ (a', slot) :: slots.drop (i + 1) := by
        rw [← hget, List.cons_getElem_drop_succ, List.take_append_drop]
      generalize hbefore : slots.take i = before at hslots
      generalize slots.drop (i + 1) = behind at hslots
      have hlength : before.length = i := by
        rw [← hbefore, List.length_take]
        omega
      have hok := h.slots_ok
      have hapart := h.apart
      have hblocks := h.blocks
      rw [hslots] at hok hapart hblocks
      have hblocks' : t.client.m_IncomingBlocks = blocksOf before ++ slot.toList ++ blocksOf behind := by
        rw [hblocks, blocksOf, List.filterMap_append]
        cases slot <;> simp [blocksOf]
      have hne : a'.packets ≠ [] := by
        rw [hpackets]
        exact List.cons_ne_nil _ _
      obtain ⟨slot', hnext, hsource, hslot'⟩ := deliver_slot (hok _ (List.mem_append_right _ List.mem_cons_self))
        hpackets h.wanted hblocks' (blocks_apart hok hapart hne)
      obtain ⟨a'', ha''⟩ : ∃ a'' : Answer, a'' = { a' with
          packets := packets, ranges := a'.ranges ++ (processBlock zlib packet t.client).2 } := ⟨_, rfl⟩
      rw [← ha''] at hslot' ⊢
      refine ⟨before ++ (a'', slot') :: behind, ?_, ?_, ?_, ?_, ?_⟩
      · have hwanted := h.wanted
        unfold CMuleClient.isWanted at hwanted ⊢
        rw [hsource]
        exact hwanted
      · rw [h.answers, hslots, ← hlength]
        simp
      · rw [hnext, blocksOf, blocksOf, blocksOf, List.filterMap_append]
        cases slot' <;> simp
      · intro other hother
        rcases List.mem_append.mp hother with hm | hm
        · exact hok other (List.mem_append_left _ hm)
        · rcases List.mem_cons.mp hm with rfl | hm
          · exact hslot'
          · exact hok other (List.mem_append_right _ (List.mem_cons_of_mem _ hm))
      · have hrange : a''.uBegin = a'.uBegin ∧ a''.uEnd = a'.uEnd := by
          rw [ha'']
          exact ⟨rfl, rfl⟩
        obtain ⟨hfirst, htail, hcross⟩ := List.pairwise_append.mp hapart
        obtain ⟨hbehind, hlast⟩ := List.pairwise_cons.mp htail
        refine List.pairwise_append.mpr ⟨hfirst, List.pairwise_cons.mpr ⟨fun other hother _ hopen => ?_, hlast⟩, ?_⟩
        · have hold := hbehind other hother hne hopen
          unfold ApartFrom at hold ⊢
          dsimp only at hold ⊢
          rw [hrange.1, hrange.2]
          exact hold
        · intro other hother later hlater hopen hopen'
          rcases List.mem_cons.mp hlater with rfl | hlater
          · have hold := hcross other hother _ List.mem_cons_self hopen hne
            unfold ApartFrom at hold ⊢
            dsimp only at hold ⊢
            rw [hrange.1, hrange.2]
            exact hold
          · exact hcross other hother later (List.mem_cons_of_mem _ hlater) hopen hopen'

/-- What a sender sends packed can be inflated. -/
def Unpacks (zlib : Zlib Z) (peer : Peer) : Prop :=
  ∀ slow data packed, sentData peer slow data = .inl packed → ∃ At, Inflates zlib packed data At

theorem offsetField_eq {x : ℕ} (h : bI64 = true ∧ x < 2 ^ 64 ∨ x < 2 ^ 32) : offsetField bI64 x = x := by
  unfold offsetField
  cases bI64 with
  | true => exact Nat.mod_eq_of_lt (by simp at h ⊢; omega)
  | false => exact Nat.mod_eq_of_lt (by simpa using h)

/-- A new answer with its block. -/
theorem slotOk_new (hzlib : Unpacks zlib peer) {range : UInt64 × UInt64} (hless : range.1 < range.2)
    (hfields : bI64 = true ∧ peer.bI64 = true ∨ range.2.toNat < 2 ^ 32) (slow : Bool) :
    SlotOk zlib peer file hash ⟨range.1.toNat, range.2.toNat, answerPackets peer file hash bI64 range slow, []⟩
      (some ⟨range.1.toNat, range.2.toNat, 0, none⟩) := by
  have hlt : range.1.toNat < range.2.toNat := UInt64.lt_iff_toNat_lt.mp hless
  have hroom : range.2.toNat < 2 ^ 64 := range.2.toNat_lt
  have hsent : ∀ x ≤ range.2.toNat, offsetField bI64 x = x := fun x hx =>
    offsetField_eq (hfields.imp (fun h => ⟨h.1, hx.trans_lt hroom⟩) fun h => hx.trans_lt h)
  have hread : ∀ x ≤ range.2.toNat, offsetField peer.bI64 x = x := fun x hx =>
    offsetField_eq (hfields.imp (fun h => ⟨h.2, hx.trans_lt hroom⟩) fun h => hx.trans_lt h)
  have hpackets : answerPackets peer file hash bI64 range slow =
      (blockPackets peer slow ⟨0, range.1.toNat, range.2.toNat, hash⟩
        (content file range.1.toNat range.2.toNat)).1 := by
    rw [answerPackets, hsent _ hlt.le, hsent _ le_rfl]
  refine ⟨hlt, hread, by simp, by simp, fun b hb => ?_⟩
  rw [Option.mem_some_iff] at hb
  subst hb
  refine ⟨rfl, rfl, Nat.sub_pos_of_lt hlt, rfl, ?_⟩
  dsimp only
  rw [hpackets, blockPackets]
  cases hsentData : sentData peer slow (content file range.1.toNat range.2.toNat) with
  | inl packed =>
    obtain ⟨At, hinflates⟩ := hzlib _ _ _ hsentData
    have hne : packed ≠ [] := by
      unfold sentData at hsentData
      split_ifs at hsentData with hsmall
      rw [← Sum.inl.inj hsentData]
      simpa using (Bool.and_eq_true_iff.mp (Bool.and_eq_true_iff.mp hsmall).1).2
    refine Or.inr ⟨packed, At, [], [], packed, packed.length % 2 ^ 32, hinflates, rfl, hne, ?_, ⟨rfl, rfl⟩, rfl,
      List.nil_prefix⟩
    dsimp only
    rw [compressedPackets, packedLeft, hread _ hlt.le]
  | inr data =>
    have hdata : data = content file range.1.toNat range.2.toNat := by
      unfold sentData at hsentData
      split_ifs at hsentData
      exact (Sum.inr.inj hsentData).symm
    rw [hdata]
    exact Or.inl rfl

/-- A step with a request keeps the answers with their blocks. -/
theorem TransferInv.request (hzlib : Unpacks zlib peer) (h : TransferInv zlib peer file hash t slots)
    {range : UInt64 × UInt64} {slow : Bool} (hok : TransferOk peer bI64 t (.request range slow)) :
    ∃ slots', TransferInv zlib peer file hash
      (transferStep zlib peer file hash bI64 t (.request range slow)) slots' := by
  rw [transferStep, newAnswers]
  by_cases hless : range.1 < range.2
  · obtain ⟨hfields, hapart⟩ := hok hless
    rw [if_pos hless]
    refine ⟨slots ++ [(⟨range.1.toNat, range.2.toNat, answerPackets peer file hash bI64 range slow, []⟩,
      some ⟨range.1.toNat, range.2.toNat, 0, none⟩)], h.wanted, ?_, ?_, ?_, ?_⟩
    · rw [h.answers, List.map_append, List.map_singleton]
    · have hblocks := h.blocks
      unfold sendBlockRequest newBlocks blocksOf at *
      rw [hblocks]
      simp [hless]
    · intro slot hslot
      rcases List.mem_append.mp hslot with hm | hm
      · exact h.slots_ok slot hm
      · rw [List.mem_singleton.mp hm]
        exact slotOk_new hzlib hless hfields slow
    · refine List.pairwise_append.mpr ⟨h.apart, List.pairwise_singleton _ _, fun slot hslot new hnew hopen _ => ?_⟩
      rw [List.mem_singleton.mp hnew]
      have hmem : slot.1 ∈ t.answers := by
        rw [h.answers]
        exact List.mem_map_of_mem hslot
      exact (hapart slot.1 hmem hopen).symm
  · rw [if_neg hless, List.append_nil]
    refine ⟨slots, h.wanted, h.answers, ?_, h.slots_ok, h.apart⟩
    unfold sendBlockRequest newBlocks
    simpa [hless] using h.blocks

/-- A run keeps the answers with their blocks. -/
theorem TransferInv.run (hzlib : Unpacks zlib peer) {ops : List TransferOp}
    (h : TransferInv zlib peer file hash t slots) (hok : TransferRunOk zlib peer file hash bI64 t ops) :
    ∃ slots', TransferInv zlib peer file hash (transferRun zlib peer file hash bI64 t ops) slots' := by
  induction ops generalizing t slots with
  | nil => exact ⟨slots, h⟩
  | cons op ops ih =>
    have hnext : ∃ slots', TransferInv zlib peer file hash (transferStep zlib peer file hash bI64 t op) slots' := by
      cases op with
      | request range slow => exact h.request hzlib hok.1
      | deliver i => exact h.deliver i
    obtain ⟨slots', hslots'⟩ := hnext
    exact ih hslots' hok.2

/-- What is expected of a transfer: what was handed over for an answer is a front part of its block with the bytes of
the file, and all of it if no packets are to come. The outstanding blocks are those of which packets are to come. -/
def TransferRight (file : ℕ → UInt8) (t : Transfer Z) : Prop :=
  (∀ a ∈ t.answers, ∃ uLast ≤ a.uEnd, Tiles a.uBegin uLast a.ranges ∧
    (∀ range ∈ a.ranges, range.value = content file range.first range.last) ∧ (a.packets = [] → uLast = a.uEnd)) ∧
    ∀ b ∈ t.client.m_IncomingBlocks, ∃ a ∈ t.answers, a.packets ≠ [] ∧ a.uBegin = b.uBegin ∧ a.uEnd = b.uEnd

/-- A transfer whose answers go with their blocks is right. -/
theorem TransferInv.right (h : TransferInv zlib peer file hash t slots) : TransferRight file t := by
  constructor
  · intro a ha
    rw [h.answers] at ha
    obtain ⟨⟨a, slot⟩, hslot, rfl⟩ := List.mem_map.mp ha
    have hok := h.slots_ok _ hslot
    dsimp only at hok ⊢
    cases slot with
    | none => exact ⟨a.uEnd, le_rfl, (hok.done rfl).1, hok.values, fun _ => rfl⟩
    | some b =>
      obtain ⟨-, -, hless, htiles, -⟩ := hok.outstanding b rfl
      exact ⟨a.uBegin + b.uWriten, by omega, htiles, hok.values, fun hnone => absurd hnone hok.packets_ne_nil⟩
  · intro b hb
    rw [h.blocks] at hb
    obtain ⟨⟨a, slot⟩, hslot, rfl⟩ := List.mem_filterMap.mp hb
    have hok := h.slots_ok _ hslot
    obtain ⟨hbegin, hend, -⟩ := hok.outstanding b rfl
    refine ⟨a, ?_, hok.packets_ne_nil, hbegin.symm, hend.symm⟩
    rw [h.answers]
    exact List.mem_map_of_mem hslot

/-- A file is downloaded, and no blocks were requested. -/
def newClient (m_DownSource : Option DownFile) : CMuleClient Z := ⟨m_DownSource, [], 0⟩

/-- In every run only ranges that lie in an outstanding block and have the length of their data are handed over, if
and only if all packets meet the condition. If what a sender packs can be inflated, then in every run in which the
requests meet their condition and the sender answers them, all bytes of a block are handed over once. -/
theorem blocks_handed_over (zlib : Zlib Z) (peer : Peer) (file : ℕ → UInt8) (hash : ℕ) (bI64 : Bool)
    (m_DownSource : Option DownFile) (ops : List DownloadOp) :
    (RangesRight zlib (newClient m_DownSource) ops ↔ PacketsOk zlib (newClient m_DownSource) ops) ∧
      (Unpacks zlib peer → ∀ ops, TransferRunOk zlib peer file hash bI64 ⟨newClient (some ⟨hash, true⟩), []⟩ ops →
          TransferRight file (transferRun zlib peer file hash bI64 ⟨newClient (some ⟨hash, true⟩), []⟩ ops)) := by
  refine ⟨rangesRight_iff (by simp [BlocksOk, newClient]) ops, fun hzlib ops hok => ?_⟩
  have hstart : TransferInv zlib peer file hash ⟨newClient (some ⟨hash, true⟩), []⟩ [] :=
    ⟨by simp [CMuleClient.isWanted, newClient], rfl, rfl, by simp, List.Pairwise.nil⟩
  obtain ⟨slots, hslots⟩ := hstart.run hzlib hok
  exact hslots.right

end Deliveries

section Examples

/-- A decompressor for one stream, which writes when it has read all of it. -/
def oneStream (packed data : List UInt8) : Zlib (List UInt8 × ℕ) where
  init := ([], 0)
  inflate zS input room :=
    if zS.1 ++ input = packed then
      if data.length - zS.2 ≤ room then ⟨.streamEnd, data.drop zS.2, [], (packed, data.length)⟩
      else ⟨.ok, (data.drop zS.2).take room, input.drop (input.length - 1),
        (zS.1 ++ input.take (input.length - 1), zS.2 + room)⟩
    else ⟨.ok, [], [], (zS.1 ++ input, zS.2)⟩
  pending zS _ := data.length - zS.2
  pending_le zS input room hcode := by
    by_cases hall : zS.1 ++ input = packed
    · rw [if_pos hall] at hcode ⊢
      by_cases hfits : data.length - zS.2 ≤ room
      · rw [if_pos hfits] at hcode
        cases hcode
      · rw [if_neg hfits]
        simp
        omega
    · rw [if_neg hall]
      simp

theorem inflates_oneStream (packed data : List UInt8) : Inflates (oneStream packed data) packed data
    fun zS read written => zS.1 = read ∧ written = data.take zS.2 where
  init := by simp [oneStream]
  isPrefix := by
    rintro zS read written ⟨-, rfl⟩
    exact List.take_prefix _ _
  next := by
    rintro ⟨_, n⟩ read written input room ⟨rfl, rfl⟩ hinput hpacked hroom
    have hpos := List.length_pos_iff.mpr hinput
    dsimp only [oneStream] at hpacked ⊢
    split_ifs with hall hfits
    · exact ⟨input, by simp, Or.inr ⟨rfl, hall, List.take_append_drop _ _⟩⟩
    · refine ⟨input.take (input.length - 1), (List.take_append_drop _ _).symm, Or.inl ⟨rfl, ?_, ⟨rfl, ?_⟩, Or.inr ?_⟩⟩
      · intro heq
        have hlength := congrArg List.length (heq.trans hall.symm)
        simp only [List.length_append, List.length_take] at hlength
        omega
      · exact List.take_add.symm
      · simp
        omega
    · exact ⟨input, by simp, Or.inl ⟨rfl, hall, ⟨rfl, by simp⟩, Or.inl rfl⟩⟩

/-- Twenty bytes of zero. -/
def zeros : List UInt8 := List.replicate 20 0

/-- What the compression makes of them. -/
def packedZeros : List UInt8 := [0x78, 0xda, 0x63, 0x60, 0xc0, 0x04, 0, 0, 0x14, 0, 0x01]

/-- A sender that packs them. -/
def zerosPeer : Peer := ⟨true, true, fun data => if data = zeros then packedZeros else data⟩

/-- What it sends packed can be inflated. -/
theorem unpacks_zeros : Unpacks (oneStream packedZeros zeros) zerosPeer := by
  intro slow data packed hsent
  by_cases hdata : data = zeros
  · have hpack : zerosPeer.pack data = packedZeros := if_pos hdata
    have hpacked : packed = packedZeros := by
      unfold sentData at hsent
      rw [hpack] at hsent
      split_ifs at hsent
      exact (Sum.inl.inj hsent).symm
    rw [hpacked, hdata]
    exact ⟨_, inflates_oneStream packedZeros zeros⟩
  · have hpack : zerosPeer.pack data = data := if_neg hdata
    unfold sentData at hsent
    rw [hpack] at hsent
    simp at hsent

/-- A block of twenty zeros is requested, and its packed data arrives. -/
theorem blocks_handed_over_zeros :
    TransferRight (fun _ => 0) (transferRun (oneStream packedZeros zeros) zerosPeer (fun _ => 0) 7 true
      ⟨newClient (some ⟨7, true⟩), []⟩ [.request (0, 20) true, .deliver 0]) := by
  refine (blocks_handed_over (oneStream packedZeros zeros) zerosPeer (fun _ => 0) 7 true none []).2 unpacks_zeros _ ?_
  refine ⟨fun _ => ⟨Or.inl ⟨rfl, rfl⟩, by simp⟩, trivial, trivial⟩

/-- Of a requested block of ten bytes a plain piece is handed over with another length than its data, and the twenty
bytes of a packed one. -/
theorem ranges_wrong : ¬ RangesRight (oneStream packedZeros zeros) (newClient (some ⟨7, true⟩))
        [.request [(0, 10)], .receive (.sendingPart 7 0 10 [1])] ∧
      ¬ RangesRight (oneStream packedZeros zeros) (newClient (some ⟨7, true⟩))
        [.request [(0, 10)], .receive (.compressedPart 7 0 11 packedZeros)] := by
  have hstate : downloadStep (oneStream packedZeros zeros) (newClient (some ⟨7, true⟩)) (.request [(0, 10)]) =
      ⟨some ⟨7, true⟩, [⟨0, 10, 0, none⟩], 0⟩ := by
    simp [downloadStep, sendBlockRequest, newBlocks, newClient]
  constructor
  · intro hright
    have hranges := hright.2.1
    rw [hstate] at hranges
    obtain ⟨pBlock, -, -, hlength, -⟩ := hranges ⟨0, 10, [1]⟩ (by decide)
    simp at hlength
  · intro hright
    have hranges := hright.2.1
    rw [hstate] at hranges
    obtain ⟨pBlock, hmem, -, -, hlast⟩ := hranges ⟨0, 20, zeros⟩ (by decide)
    rw [List.mem_singleton.mp hmem] at hlast
    simp at hlast

end Examples

end NeoLoader.MuleAnswers
