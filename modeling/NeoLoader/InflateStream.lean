import Mathlib.Data.List.Infix
import Mathlib.Tactic.Linarith

/-!
# Inflating a stream piece by piece

A decompressor keeps its state between the pieces of a stream. For each piece it is called until all of the piece
was read, each time with more room for the output. Nothing below depends on what the stream is for.
-/

namespace NeoLoader.InflateStream

/-- What `inflate` returns. -/
inductive InflateCode where
  /-- `Z_OK`. -/
  | ok
  /-- `Z_STREAM_END`. -/
  | streamEnd
  /-- Any other one. -/
  | error
  deriving DecidableEq, Repr

/-- The outcome of a call of `inflate`. -/
structure InflateResult (Z : Type*) where
  /-- What it returns. -/
  code : InflateCode
  /-- The bytes that it wrote. -/
  output : List UInt8
  /-- The bytes that it did not read. -/
  rest : List UInt8
  /-- The state of the stream. -/
  state : Z

/-- A decompressor. -/
structure Zlib (Z : Type*) where
  /-- `inflateInit`. -/
  init : Z
  /-- `inflate`, given the bytes to read and the room for the output. -/
  inflate : Z → List UInt8 → ℕ → InflateResult Z
  /-- A bound on the output that some bytes can give. -/
  pending : Z → List UInt8 → ℕ
  /-- What was written can no longer be. -/
  pending_le : ∀ z input room, (inflate z input room).code = .ok →
    (inflate z input room).output.length + pending (inflate z input room).state (inflate z input room).rest ≤
      pending z input

variable {Z : Type*} (zlib : Zlib Z)

/-- The recursion of `ungzip_arr`, which goes on while there is no more room but there are bytes to read. -/
def ungzipLoop (uSize : ℕ) : ℕ → Z → List UInt8 → ℕ → List UInt8 × Option Z
  | 0, zS, _, _ => ([], some zS)
  | fuel + 1, zS, zipped, iRecursion =>
    let result := zlib.inflate zS zipped (uSize * 2 * (iRecursion + 1))
    match result.code with
    | .error => ([], some result.state)
    | .streamEnd => (result.output, none)
    | .ok =>
      if result.output.length = uSize * 2 * (iRecursion + 1) ∧ result.rest ≠ [] then
        let more := ungzipLoop uSize fuel result.state result.rest (iRecursion + 1)
        (result.output ++ more.1, more.2)
      else (result.output, some result.state)

/-- `ungzip_arr` without a header, for a stream that was begun or not. -/
def ungzipArr (zStream : Option Z) (zipped : List UInt8) : List UInt8 × Option Z :=
  ungzipLoop zlib zipped.length (zlib.pending (zStream.getD zlib.init) zipped + 1) (zStream.getD zlib.init) zipped 0

section Recursion

variable {zlib}

/-- The recursion ends by itself. -/
theorem ungzipLoop_fuel {uSize fuel fuel' : ℕ} {zS : Z} {zipped : List UInt8} (hsize : 0 < uSize)
    (hfuel : zlib.pending zS zipped < fuel) (hfuel' : zlib.pending zS zipped < fuel') (iRecursion : ℕ) :
    ungzipLoop zlib uSize fuel zS zipped iRecursion = ungzipLoop zlib uSize fuel' zS zipped iRecursion := by
  induction fuel generalizing fuel' zS zipped iRecursion with
  | zero => omega
  | succ fuel ih =>
    obtain ⟨fuel', rfl⟩ : ∃ n, fuel' = n + 1 := ⟨fuel' - 1, by omega⟩
    rw [ungzipLoop, ungzipLoop]
    dsimp only
    cases hcode : (zlib.inflate zS zipped (uSize * 2 * (iRecursion + 1))).code with
    | error => rfl
    | streamEnd => rfl
    | ok =>
      dsimp only
      split_ifs with hmore
      · have hpending := zlib.pending_le zS zipped _ hcode
        have hroom : 0 < uSize * 2 * (iRecursion + 1) := by positivity
        have hless := lt_of_lt_of_le (Nat.lt_add_of_pos_left (hroom.trans_eq hmore.1.symm)) hpending
        rw [ih (hless.trans_le (Nat.lt_succ_iff.mp hfuel)) (hless.trans_le (Nat.lt_succ_iff.mp hfuel'))]
      · rfl

end Recursion

section Correctness

/-- What a decompressor does with a packed stream: it reads bytes until there are no more or there is no more room,
and with the last byte it has written all of the data. -/
structure Inflates (packed data : List UInt8) (At : Z → List UInt8 → List UInt8 → Prop) : Prop where
  /-- At the start nothing is read or written. -/
  init : At zlib.init [] []
  /-- What is written is a part of the data. -/
  isPrefix : ∀ {zS read written}, At zS read written → written <+: data
  /-- A call goes on from there. -/
  next : ∀ {zS read written input room}, At zS read written → input ≠ [] → read ++ input <+: packed → 0 < room →
    ∃ taken, input = taken ++ (zlib.inflate zS input room).rest ∧
      ((zlib.inflate zS input room).code = .ok ∧ read ++ taken ≠ packed ∧
          At (zlib.inflate zS input room).state (read ++ taken) (written ++ (zlib.inflate zS input room).output) ∧
          ((zlib.inflate zS input room).rest = [] ∨ (zlib.inflate zS input room).output.length = room) ∨
        (zlib.inflate zS input room).code = .streamEnd ∧ read ++ taken = packed ∧
          written ++ (zlib.inflate zS input room).output = data)

variable {zlib} {packed data : List UInt8} {At : Z → List UInt8 → List UInt8 → Prop}

/-- A stream after some bytes: it goes on, or all was written. -/
def After (packed data : List UInt8) (At : Z → List UInt8 → List UInt8 → Prop) (read written : List UInt8) :
    Option Z → Prop
  | some zS => At zS read written ∧ read ≠ packed
  | none => read = packed ∧ written = data

/-- The recursion reads all of the bytes. -/
theorem Inflates.ungzipLoop (h : Inflates zlib packed data At) {uSize fuel : ℕ} (hsize : 0 < uSize) {zS : Z}
    {read written input : List UInt8} (hfuel : zlib.pending zS input < fuel) (hat : At zS read written)
    (hinput : input ≠ []) (hpacked : read ++ input <+: packed) (iRecursion : ℕ) :
    After packed data At (read ++ input) (written ++ (ungzipLoop zlib uSize fuel zS input iRecursion).1)
      (ungzipLoop zlib uSize fuel zS input iRecursion).2 := by
  induction fuel generalizing zS read written input iRecursion with
  | zero => omega
  | succ fuel ih =>
    have hroom : 0 < uSize * 2 * (iRecursion + 1) := by positivity
    obtain ⟨taken, htaken, ⟨hcode, hmore, hnext, hstop⟩ | ⟨hcode, hall, hdata⟩⟩ := h.next hat hinput hpacked hroom
    · have hpending := zlib.pending_le zS input _ hcode
      rw [InflateStream.ungzipLoop]
      dsimp only
      rw [hcode]
      dsimp only
      split_ifs with hagain
      · -- there is no more room, and more to read
        have hrest : read ++ taken ++ (zlib.inflate zS input (uSize * 2 * (iRecursion + 1))).rest <+: packed := by
          rw [List.append_assoc, ← htaken]
          exact hpacked
        have hdone := ih (by omega) hnext hagain.2 hrest (iRecursion + 1)
        rw [List.append_assoc read, ← htaken, List.append_assoc written] at hdone
        exact hdone
      · have hnone : (zlib.inflate zS input (uSize * 2 * (iRecursion + 1))).rest = [] := by
          by_contra hne
          exact hagain ⟨hstop.resolve_left hne, hne⟩
        rw [hnone, List.append_nil] at htaken
        rw [htaken]
        rw [htaken] at hnext
        exact ⟨hnext, hmore⟩
    · rw [InflateStream.ungzipLoop]
      dsimp only
      rw [hcode]
      refine ⟨?_, hdata⟩
      have hlength : (read ++ input).length ≤ (read ++ taken).length := by
        rw [hall]
        exact hpacked.length_le
      have hread : read ++ taken <+: read ++ input := by
        rw [htaken, ← List.append_assoc]
        exact List.prefix_append _ _
      rw [← hall]
      exact (hread.eq_of_length_le hlength).symm

/-- A stream before some bytes: it was begun or not. -/
def Before (At : Z → List UInt8 → List UInt8 → Prop) (read written : List UInt8) : Option Z → Prop
  | some zS => At zS read written
  | none => read = [] ∧ written = []

/-- A piece of a stream is read to its end. -/
theorem Inflates.ungzipArr (h : Inflates zlib packed data At) {zStream : Option Z}
    {read written input : List UInt8} (hbefore : Before At read written zStream) (hinput : input ≠ [])
    (hpacked : read ++ input <+: packed) :
    After packed data At (read ++ input) (written ++ (ungzipArr zlib zStream input).1)
      (ungzipArr zlib zStream input).2 := by
  have hat : At (zStream.getD zlib.init) read written := by
    cases zStream with
    | some zS => exact hbefore
    | none =>
      obtain ⟨rfl, rfl⟩ := hbefore
      exact h.init
  exact h.ungzipLoop (List.length_pos_iff.mpr hinput) (Nat.lt_succ_self _) hat hinput hpacked 0

end Correctness

end NeoLoader.InflateStream
