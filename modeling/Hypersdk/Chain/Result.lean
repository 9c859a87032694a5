import Hypersdk.Chain.Transaction
import Hypersdk.Codec.Packer

/-!
# Execution results on the wire

`chain/result.go`. `Result.Marshal` writes a result's success flag, its error bytes, a byte
counting the actions' output lists, each list as a byte counting its outputs followed by the
outputs as length-prefixed slices, the units as the 40 bytes of `Dimensions.Bytes`, and the
fee. `MarshalResults` writes a count and the results; `UnmarshalResults` reads them back and
refuses bytes left over.

`Result.encoding` is that layout written out. `Marshal` appends exactly it (`marshal_written`)
and `Size` is its length (`size_eq_length_encoding`); `UnmarshalResult` reads a result back from
it (`unmarshalResult_encoding`) when its counts fit a byte and its lengths a `uint32`
(`Result.Fits`, which also holds the 64-bit range of the units and the fee that Go's types
give). Then `UnmarshalResults` inverts `MarshalResults` (`results_round_trip_and_size`).
Without the `uint32` bound the length prefix wraps: a result whose error is `2 ^ 32` bytes
long is written with a length of zero and not read back
(`unmarshalResults_marshalResults_long_error`).
-/

namespace Hypersdk.Chain

open Codec BigEndian Fees

/-- The errors reading results returns: the packer's first error, `ErrWrongDimensionSize`
and `ErrInvalidObject`. -/
inductive ResultError
  | codec (e : PackerError)
  | wrongDimensionSize
  | invalidObject
  deriving DecidableEq, Repr

/-- `Result.Size`. -/
def Result.size (r : Result) : ℕ :=
  let outputSize := r.outputs.foldl
    (fun acc action => action.foldl (fun acc output => acc + bytesLen output) (acc + 1)) 1
  1 + bytesLen r.error + outputSize + dimensionsLen + 8

/-! ## Writing -/

section Marshal

variable (wr : Writers)

/-- The loop of `Marshal` over one action's outputs. -/
def packActionOutputs (outputs : List Bytes) (p : Packer) : Packer :=
  outputs.foldl (fun p output => packBytes wr output p) p

/-- `Result.Marshal`, which returns nil: a failed write is left in the packer. -/
def Result.marshal (r : Result) (p : Packer) : Packer :=
  let p := packBool wr r.success p
  let p := packBytes wr r.error p
  let p := wr.packByte (UInt8.ofNat r.outputs.length) p
  let p := r.outputs.foldl (fun p outputs =>
    packActionOutputs wr outputs (wr.packByte (UInt8.ofNat outputs.length) p)) p
  let p := wr.packFixedBytes (Dimensions.bytes r.units) p
  packUint64 wr r.fee p

/-- `MarshalResults`, into a writer that may grow to `MaxInt`; no `Marshal` returns an
error, so only the writer's is returned. -/
def marshalResults (src : List Result) : Except PackerError Bytes :=
  let p := newWriter Consts.maxInt
  let p := packInt wr src.length p
  let p := src.foldl (fun p result => result.marshal wr p) p
  match p.err with
  | some e => .error e
  | none => .ok p.bytes

end Marshal

/-! ## Reading -/

section Unmarshal

variable (w : Wrappers)

/-- The inner loop of `UnmarshalResult`: `numOutputs` outputs of one action. -/
def unpackActionOutputs : ℕ → List Bytes → Packer → List Bytes × Packer
  | 0, actionOutputs, p => (actionOutputs, p)
  | n + 1, actionOutputs, p =>
    let (output, p) := unpackBytes w Consts.maxInt false p
    unpackActionOutputs n (actionOutputs ++ [output]) p

/-- The outer loop of `UnmarshalResult`: `numActions` lists of outputs. -/
def unpackOutputs : ℕ → List (List Bytes) → Packer → List (List Bytes) × Packer
  | 0, outputs, p => (outputs, p)
  | n + 1, outputs, p =>
    let (numOutputs, p) := w.unpackByte p
    let (actionOutputs, p) := unpackActionOutputs w numOutputs.toNat [] p
    unpackOutputs n (outputs ++ [actionOutputs]) p

/-- `UnmarshalResult`. The units are copied into a slice of `DimensionsLen` zeros, so
`UnpackDimensions` always gets the length it wants. -/
def unmarshalResult (p : Packer) : Except ResultError (Result × Packer) := do
  let (success, p) := w.unpackBool p
  let (error, p) := unpackBytes w Consts.maxInt false p
  let (numActions, p) := w.unpackByte p
  let (outputs, p) := unpackOutputs w numActions.toNat [] p
  let (consumedRaw, p) := unpackFixedBytes w dimensionsLen (List.replicate dimensionsLen 0) p
  let some units := unpackDimensions consumedRaw | throw .wrongDimensionSize
  let (fee, p) := unpackUint64 w false p
  match p.err with
  | some e => throw (.codec e)
  | none => pure (⟨success, error, outputs, units, fee⟩, p)

/-- The loop of `UnmarshalResults`. -/
def unmarshalResultsLoop : ℕ → List Result → Packer → Except ResultError (List Result × Packer)
  | 0, results, p => pure (results, p)
  | n + 1, results, p => do
    let (result, p) ← unmarshalResult w p
    unmarshalResultsLoop n (results ++ [result]) p

/-- `UnmarshalResults`: a count, that many results, and nothing after them. -/
def unmarshalResults (src : Bytes) : Except ResultError (List Result) := do
  let p := newReader src Consts.maxInt
  let (items, p) := unpackInt w false p
  let (results, p) ← unmarshalResultsLoop w items [] p
  if !p.empty then throw .invalidObject
  pure results

end Unmarshal

/-! ## The layout -/

/-- The bytes of one action's outputs: each length-prefixed. -/
def actionOutputsEncoding (outputs : List Bytes) : Bytes :=
  outputs.flatMap fun output => ofNat 4 output.length ++ output

/-- The bytes of the output lists: each its count, then its outputs. -/
def outputsEncoding (outputs : List (List Bytes)) : Bytes :=
  outputs.flatMap fun os => UInt8.ofNat os.length :: actionOutputsEncoding os

/-- The bytes `Result.Marshal` writes. -/
def Result.encoding (r : Result) : Bytes :=
  [if r.success then 1 else 0] ++ (ofNat 4 r.error.length ++ r.error) ++
    [UInt8.ofNat r.outputs.length] ++ outputsEncoding r.outputs ++ Dimensions.bytes r.units ++
    ofNat 8 r.fee

/-- A result its encoding holds: every count fits a byte and every length a `uint32`; the
units and the fee are 64-bit, as their Go types make them. -/
structure Result.Fits (r : Result) : Prop where
  error : r.error.length < 2 ^ 32
  numActions : r.outputs.length < 256
  numOutputs : ∀ os ∈ r.outputs, os.length < 256
  output : ∀ os ∈ r.outputs, ∀ o ∈ os, o.length < 2 ^ 32
  units : ∀ i, r.units i < 2 ^ 64
  fee : r.fee < 2 ^ 64

/-! ## `Size` and `Marshal` -/

section Size

theorem foldl_bytesLen (outputs : List Bytes) (a : ℕ) :
    outputs.foldl (fun acc output => acc + bytesLen output) a =
      a + (actionOutputsEncoding outputs).length := by
  induction outputs generalizing a with
  | nil => simp [actionOutputsEncoding]
  | cons o os ih =>
    rw [List.foldl_cons, ih]
    simp only [actionOutputsEncoding, List.flatMap_cons, List.length_append, length_ofNat,
      bytesLen]
    omega

theorem foldl_outputSize (outputs : List (List Bytes)) (a : ℕ) :
    outputs.foldl (fun acc action => action.foldl (fun acc output => acc + bytesLen output)
      (acc + 1)) a = a + (outputsEncoding outputs).length := by
  induction outputs generalizing a with
  | nil => simp [outputsEncoding]
  | cons os outputs ih =>
    rw [List.foldl_cons, ih, foldl_bytesLen]
    simp only [outputsEncoding, List.flatMap_cons, List.length_append, List.length_cons]
    omega

/-- **`Size` is the length of what `Marshal` writes.** -/
theorem size_eq_length_encoding (r : Result) : r.size = r.encoding.length := by
  rw [Result.size, foldl_outputSize]
  simp only [Result.encoding, List.length_append, List.length_singleton, length_ofNat,
    length_bytes, bytesLen]
  omega

end Size

section Writing

variable {wr : Writers} {p : Packer}

theorem packActionOutputs_written (hwr : wr.Spec) (outputs : List Bytes) (hp : p.Writing)
    (hle : p.bytes.length + (actionOutputsEncoding outputs).length ≤ p.maxSize) :
    packActionOutputs wr outputs p = p.written (actionOutputsEncoding outputs) := by
  induction outputs generalizing p with
  | nil => simp [packActionOutputs, actionOutputsEncoding]
  | cons o os ih =>
    have hlen : (actionOutputsEncoding (o :: os)).length =
        bytesLen o + (actionOutputsEncoding os).length := by
      simp [actionOutputsEncoding, bytesLen]
      omega
    have h₁ := packBytes_written hwr hp (b := o) (by omega)
    have h₂ := ih (p := p.written (ofNat 4 o.length ++ o)) (hp.written _)
      (by simp [bytesLen] at hlen ⊢; omega)
    simp only [packActionOutputs, List.foldl_cons] at h₂ ⊢
    rw [h₁, h₂, Packer.written_written]
    rfl

theorem packOutputs_written (hwr : wr.Spec) (outputs : List (List Bytes)) (hp : p.Writing)
    (hle : p.bytes.length + (outputsEncoding outputs).length ≤ p.maxSize) :
    outputs.foldl (fun p os => packActionOutputs wr os (wr.packByte (UInt8.ofNat os.length) p)) p =
      p.written (outputsEncoding outputs) := by
  induction outputs generalizing p with
  | nil => simp [outputsEncoding]
  | cons os outputs ih =>
    have hlen : (outputsEncoding (os :: outputs)).length =
        1 + (actionOutputsEncoding os).length + (outputsEncoding outputs).length := by
      simp [outputsEncoding]
      omega
    have h₁ := packByte_written hwr hp (x := UInt8.ofNat os.length) (by omega)
    have h₂ := packActionOutputs_written hwr os (hp.written [UInt8.ofNat os.length])
      (by simp; omega)
    have h₃ := ih (p := (p.written [UInt8.ofNat os.length]).written (actionOutputsEncoding os))
      ((hp.written _).written _) (by simp; omega)
    rw [List.foldl_cons, h₁, h₂, h₃, Packer.written_written, Packer.written_written]
    rfl

/-- **`Marshal` appends the encoding**, to a packer being written with room for it. -/
theorem marshal_written (hwr : wr.Spec) {r : Result} (hp : p.Writing)
    (hle : p.bytes.length + r.size ≤ p.maxSize) : r.marshal wr p = p.written r.encoding := by
  rw [size_eq_length_encoding] at hle
  -- the encoding field by field, each written where the one before stopped
  let b₁ : Bytes := [if r.success then 1 else 0]
  let b₂ := ofNat 4 r.error.length ++ r.error
  let b₃ : Bytes := [UInt8.ofNat r.outputs.length]
  let q := ((p.written b₁).written b₂).written b₃
  have hlen : r.encoding.length = 1 + (4 + r.error.length) + 1 + (outputsEncoding r.outputs).length +
      dimensionsLen + 8 := by
    simp only [Result.encoding, List.length_append, List.length_singleton, length_ofNat,
      length_bytes]
  have h₁ : packBool wr r.success p = p.written b₁ := packBool_written hwr hp (by omega)
  have h₂ : packBytes wr r.error (p.written b₁) = (p.written b₁).written b₂ :=
    packBytes_written hwr (hp.written _) (by simp [b₁, bytesLen]; omega)
  have h₃ : wr.packByte (UInt8.ofNat r.outputs.length) ((p.written b₁).written b₂) = q :=
    packByte_written hwr ((hp.written _).written _) (by simp [b₁, b₂]; omega)
  have hq : q.Writing := ((hp.written _).written _).written _
  have h₄ := packOutputs_written hwr r.outputs hq (by simp [q, b₁, b₂, b₃]; omega)
  have h₅ := packFixedBytes_written hwr (hq.written (outputsEncoding r.outputs))
    (b := Dimensions.bytes r.units)
    (by simp [q, b₁, b₂, b₃, length_bytes]; omega)
  have h₆ := packUint64_written hwr
    ((hq.written (outputsEncoding r.outputs)).written (Dimensions.bytes r.units)) (v := r.fee)
    (by simp [q, b₁, b₂, b₃, length_bytes]; omega)
  simp only [Result.marshal]
  rw [h₁, h₂, h₃, h₄, h₅, h₆]
  simp [q, b₁, b₂, b₃, Result.encoding, Packer.written_written]

theorem foldl_marshal_written (hwr : wr.Spec) (rs : List Result) (hp : p.Writing)
    (hle : p.bytes.length + (rs.map Result.size).sum ≤ p.maxSize) :
    rs.foldl (fun p r => r.marshal wr p) p = p.written (rs.flatMap Result.encoding) := by
  induction rs generalizing p with
  | nil => simp
  | cons r rs ih =>
    simp only [List.map_cons, List.sum_cons] at hle
    have h₁ := marshal_written hwr (r := r) hp (by omega)
    have h₂ := ih (p := p.written r.encoding) (hp.written _)
      (by simp [← size_eq_length_encoding]; omega)
    rw [List.foldl_cons, h₁, h₂, Packer.written_written, List.flatMap_cons]

/-- **`MarshalResults` writes the count and the encodings**, when they fit in `MaxInt`. -/
theorem marshalResults_eq (hwr : wr.Spec) (rs : List Result)
    (hroom : 4 + (rs.map Result.size).sum ≤ Consts.maxInt) :
    marshalResults wr rs = .ok (ofNat 4 rs.length ++ rs.flatMap Result.encoding) := by
  have hp : (newWriter Consts.maxInt).Writing := ⟨rfl, rfl⟩
  have h₁ : packInt wr rs.length (newWriter Consts.maxInt) =
      (newWriter Consts.maxInt).written (ofNat 4 rs.length) :=
    packInt_written hwr hp (by simp [newWriter]; omega)
  have h₂ := foldl_marshal_written hwr rs (hp.written (ofNat 4 rs.length))
    (by simp [newWriter]; omega)
  simp only [marshalResults, h₁, h₂, Packer.written_written, Packer.written_err]
  rfl

end Writing

/-! ## Reading the encoding back -/

section Reading

variable {w : Wrappers} {p : Packer} {tail : Bytes}

/-- A slice under `UnpackBytes(consts.MaxInt, false)`, whose limit `uint32(MaxInt)` is the
largest `uint32`: every length a `uint32` holds is accepted. -/
theorem unpackBytes_maxInt (hw : w.Spec) (h : p.err = none) {b : Bytes} (hb : b.length < 2 ^ 32)
    (hr : p.rest = ofNat 4 b.length ++ b ++ tail) :
    unpackBytes w Consts.maxInt false p = (b, { p with offset := p.offset + 4 + b.length }) := by
  have hlimit : ((Consts.maxInt : ℤ) % 2 ^ 32).toNat = 2 ^ 32 - 1 := by decide
  have hb' : b.length < 256 ^ 4 := lt_of_lt_of_eq hb (by decide)
  have hl : b.length ≤ ((Consts.maxInt : ℤ) % 2 ^ 32).toNat := by rw [hlimit]; omega
  simp only [unpackBytes, if_pos (Int.natCast_nonneg Consts.maxInt),
    unpackLimitedBytes_append hw h hb' hl hr]
  simp

theorem unpackActionOutputs_encoding (hw : w.Spec) {outputs : List Bytes}
    (hos : ∀ o ∈ outputs, o.length < 2 ^ 32) (acc : List Bytes) (h : p.err = none)
    (hr : p.rest = actionOutputsEncoding outputs ++ tail) :
    unpackActionOutputs w outputs.length acc p =
      (acc ++ outputs, { p with offset := p.offset + (actionOutputsEncoding outputs).length }) := by
  induction outputs generalizing acc p with
  | nil => simp [unpackActionOutputs, actionOutputsEncoding]
  | cons o os ih =>
    have hr₁ : p.rest = ofNat 4 o.length ++ o ++ (actionOutputsEncoding os ++ tail) := by
      simp [hr, actionOutputsEncoding]
    have h₁ := unpackBytes_maxInt hw h (hos o (List.mem_cons_self ..)) hr₁
    have hr₂ : ({ p with offset := p.offset + 4 + o.length } : Packer).rest =
        actionOutputsEncoding os ++ tail :=
      Packer.rest_of_offset_eq hr₁ rfl (by simp; omega)
    have h₂ := ih (fun o ho => hos o (List.mem_cons_of_mem _ ho)) (acc ++ [o]) h hr₂
      (p := { p with offset := p.offset + 4 + o.length })
    simp only [List.length_cons, unpackActionOutputs, h₁, h₂]
    simp [actionOutputsEncoding]
    omega

theorem unpackOutputs_encoding (hw : w.Spec) {outputs : List (List Bytes)}
    (hn : ∀ os ∈ outputs, os.length < 256) (hos : ∀ os ∈ outputs, ∀ o ∈ os, o.length < 2 ^ 32)
    (acc : List (List Bytes)) (h : p.err = none) (hr : p.rest = outputsEncoding outputs ++ tail) :
    unpackOutputs w outputs.length acc p =
      (acc ++ outputs, { p with offset := p.offset + (outputsEncoding outputs).length }) := by
  induction outputs generalizing acc p with
  | nil => simp [unpackOutputs, outputsEncoding]
  | cons os outputs ih =>
    have hr₁ : p.rest = UInt8.ofNat os.length ::
        (actionOutputsEncoding os ++ (outputsEncoding outputs ++ tail)) := by
      simp [hr, outputsEncoding]
    have h₁ := unpackByte_cons hw h hr₁
    have hcount : (UInt8.ofNat os.length).toNat = os.length :=
      Nat.mod_eq_of_lt (hn os (List.mem_cons_self ..))
    have hr₂ : ({ p with offset := p.offset + 1 } : Packer).rest =
        actionOutputsEncoding os ++ (outputsEncoding outputs ++ tail) :=
      Packer.rest_of_offset_eq (b := [UInt8.ofNat os.length]) hr₁ rfl rfl
    have h₂ := unpackActionOutputs_encoding hw (hos os (List.mem_cons_self ..)) []
      (p := { p with offset := p.offset + 1 }) h hr₂
    have hr₃ : ({ p with offset := p.offset + 1 + (actionOutputsEncoding os).length } :
        Packer).rest = outputsEncoding outputs ++ tail :=
      Packer.rest_of_offset_eq hr₂ rfl rfl
    have h₃ := ih (fun os h => hn os (List.mem_cons_of_mem _ h))
      (fun os h => hos os (List.mem_cons_of_mem _ h)) (acc ++ [os])
      (p := { p with offset := p.offset + 1 + (actionOutputsEncoding os).length }) h hr₃
    simp only [List.length_cons, unpackOutputs, h₁, hcount, h₂, List.nil_append, h₃]
    simp [outputsEncoding]
    omega

/-- **A result reads back from its encoding**, when it fits it. -/
theorem unmarshalResult_encoding (hw : w.Spec) {r : Result} (hfits : r.Fits) (h : p.err = none)
    (hr : p.rest = r.encoding ++ tail) :
    unmarshalResult w p = .ok (r, { p with offset := p.offset + r.encoding.length }) := by
  obtain ⟨herr, hcount, hnum, hout, hunits, hfee⟩ := hfits
  -- what is left to read after each field, and where the packer then stands
  let S₅ := ofNat 8 r.fee ++ tail
  let S₄ := Dimensions.bytes r.units ++ S₅
  let S₃ := outputsEncoding r.outputs ++ S₄
  let S₁ := ofNat 4 r.error.length ++ r.error ++ UInt8.ofNat r.outputs.length :: S₃
  let q₁ : Packer := { p with offset := p.offset + 1 }
  let q₂ : Packer := { p with offset := p.offset + 1 + 4 + r.error.length }
  let q₃ : Packer := { p with offset := p.offset + 1 + 4 + r.error.length + 1 }
  let q₄ : Packer := { p with offset := p.offset + 1 + 4 + r.error.length + 1 +
    (outputsEncoding r.outputs).length }
  let q₅ : Packer := { q₄ with offset := q₄.offset + dimensionsLen }
  let q₆ : Packer := { q₅ with offset := q₅.offset + 8 }
  have hr₀ : p.rest = (if r.success then 1 else 0) :: S₁ := by
    simp [hr, Result.encoding, S₁, S₃, S₄, S₅]
  have hr₁ : q₁.rest = S₁ := Packer.rest_of_offset_eq (b := [_]) hr₀ rfl rfl
  have hr₂ : q₂.rest = UInt8.ofNat r.outputs.length :: S₃ :=
    Packer.rest_of_offset_eq (p := q₁) (b := ofNat 4 r.error.length ++ r.error)
      (by simp [hr₁, S₁]) rfl
      (by simp [q₁, q₂]; omega)
  have hr₃ : q₃.rest = S₃ := Packer.rest_of_offset_eq (b := [_]) hr₂ rfl rfl
  have hr₄ : q₄.rest = S₄ := Packer.rest_of_offset_eq hr₃ rfl rfl
  have hr₅ : q₅.rest = S₅ := Packer.rest_of_offset_eq hr₄ rfl (by simp [q₅, length_bytes])
  -- each field read where the one before stopped
  have h₁ : w.unpackBool p = (r.success, q₁) := unpackBool_cons hw h hr₀
  have h₂ : unpackBytes w Consts.maxInt false q₁ = (r.error, q₂) :=
    unpackBytes_maxInt (p := q₁) hw h herr hr₁
  have h₃ : w.unpackByte q₂ = (UInt8.ofNat r.outputs.length, q₃) :=
    unpackByte_cons (p := q₂) hw h hr₂
  have h₄ : unpackOutputs w (UInt8.ofNat r.outputs.length).toNat [] q₃ = (r.outputs, q₄) := by
    rw [show (UInt8.ofNat r.outputs.length).toNat = r.outputs.length from
      Nat.mod_eq_of_lt hcount]
    simpa using unpackOutputs_encoding (p := q₃) hw hnum hout [] h hr₃
  have h₅ : unpackFixedBytes w dimensionsLen (List.replicate dimensionsLen 0) q₄ =
      (Dimensions.bytes r.units, q₅) := by
    have hb := unpackFixedBytes_append (p := q₄) hw h hr₄
    rw [length_bytes] at hb
    simp [unpackFixedBytes, hb,
      goCopy_of_length_eq ((length_bytes r.units).trans List.length_replicate.symm), q₅]
  have h₆ : unpackUint64 w false q₅ = (r.fee, q₆) := by
    simp [unpackUint64, unpackLong_append (p := q₅) hw h (lt_of_lt_of_eq hfee (by decide)) hr₅, q₆]
  have hq₆ : q₆ = { p with offset := p.offset + r.encoding.length } := by
    simp [q₆, q₅, q₄, Result.encoding, length_bytes]
    omega
  have he₆ : q₆.err = none := h
  simp only [unmarshalResult, h₁, h₂, h₃, h₄, h₅, unpackDimensions_bytes hunits, h₆, he₆]
  rw [← hq₆]
  rfl

theorem unmarshalResultsLoop_encoding (hw : w.Spec) {rs : List Result}
    (hfits : ∀ r ∈ rs, r.Fits) (acc : List Result) (h : p.err = none)
    (hr : p.rest = rs.flatMap Result.encoding ++ tail) :
    unmarshalResultsLoop w rs.length acc p =
      .ok (acc ++ rs, { p with offset := p.offset + (rs.flatMap Result.encoding).length }) := by
  induction rs generalizing acc p with
  | nil =>
    simp only [List.length_nil, unmarshalResultsLoop, List.append_nil, List.flatMap_nil,
      List.length_nil, Nat.add_zero]
    rfl
  | cons r rs ih =>
    have hr₁ : p.rest = r.encoding ++ (rs.flatMap Result.encoding ++ tail) := by simp [hr]
    have h₁ := unmarshalResult_encoding hw (hfits r (List.mem_cons_self ..)) h hr₁
    have h₂ := ih (fun r hr => hfits r (List.mem_cons_of_mem _ hr)) (acc ++ [r])
      (p := { p with offset := p.offset + r.encoding.length }) h (Packer.rest_advance hr₁)
    simp only [List.length_cons, unmarshalResultsLoop, h₁, h₂, bind, Except.bind]
    simp [Nat.add_assoc]

/-- **What `UnmarshalResults` makes of a count, that many encoded results and more bytes**:
the results when nothing follows them, `ErrInvalidObject` otherwise. -/
theorem unmarshalResults_encoding (hw : w.Spec) {rs : List Result} (hfits : ∀ r ∈ rs, r.Fits)
    (hn : rs.length < 2 ^ 32) (tail : Bytes) :
    unmarshalResults w (ofNat 4 rs.length ++ rs.flatMap Result.encoding ++ tail) =
      if tail = [] then .ok rs else .error .invalidObject := by
  set src := ofNat 4 rs.length ++ rs.flatMap Result.encoding ++ tail with hsrc
  -- the reader, before and after the count
  have hr₀ : (⟨src, 0, Consts.maxInt, none⟩ : Packer).rest =
      ofNat 4 rs.length ++ (rs.flatMap Result.encoding ++ tail) := by
    simp [hsrc, Packer.rest]
  have h₁ : unpackInt w false ⟨src, 0, Consts.maxInt, none⟩ =
      (rs.length, ⟨src, 4, Consts.maxInt, none⟩) := by
    rw [unpackInt, unpackInt_append hw rfl (lt_of_lt_of_eq hn (by decide)) hr₀]
    rfl
  have h₂ : unmarshalResultsLoop w rs.length [] ⟨src, 4, Consts.maxInt, none⟩ =
      .ok (rs, ⟨src, 4 + (rs.flatMap Result.encoding).length, Consts.maxInt, none⟩) := by
    simpa using unmarshalResultsLoop_encoding hw hfits [] rfl
      (Packer.rest_advance_of_length hr₀ (length_ofNat 4 _))
  have hlen : src.length = 4 + (rs.flatMap Result.encoding).length + tail.length := by
    simp [hsrc]
    omega
  simp only [unmarshalResults, newReader, h₁, h₂, bind, Except.bind, Packer.empty, hlen]
  by_cases ht : tail = []
  · simp [ht]
    rfl
  · have hne : tail.length ≠ 0 := fun h => ht (List.length_eq_zero_iff.mp h)
    have hneq : (4 + (rs.flatMap Result.encoding).length ==
        4 + (rs.flatMap Result.encoding).length + tail.length) = false := by
      simpa using hne
    rw [if_neg ht, hneq]
    rfl

end Reading

/-! ## The round trip -/

/-- **Results round-trip, and `Size` counts what `Marshal` writes.** A list of results that
fit their encoding (`Result.Fits`), fewer than `2 ^ 32` of them and within `MaxInt` bytes,
is written by `MarshalResults` and read back by `UnmarshalResults`; and `Marshal` writes
exactly `Size` bytes into a packer with room for them. -/
theorem results_round_trip_and_size {w : Wrappers} {wr : Writers} (hw : w.Spec) (hwr : wr.Spec) :
    (∀ rs : List Result, (∀ r ∈ rs, r.Fits) → rs.length < 2 ^ 32 →
      4 + (rs.map Result.size).sum ≤ Consts.maxInt →
      ∃ b, marshalResults wr rs = .ok b ∧ unmarshalResults w b = .ok rs) ∧
    ∀ (r : Result) (p : Packer), p.Writing → p.bytes.length + r.size ≤ p.maxSize →
      ∃ b, r.marshal wr p = p.written b ∧ b.length = r.size := by
  refine ⟨fun rs hfits hn hroom => ⟨_, marshalResults_eq hwr rs hroom, ?_⟩,
    fun r p hp hle => ⟨r.encoding, marshal_written hwr hp hle, (size_eq_length_encoding r).symm⟩⟩
  simpa using unmarshalResults_encoding hw hfits hn []

/-- One result with one action of one output. -/
theorem results_round_trip_and_size_one_output :
    ∃ b, marshalResults Writers.writers [⟨true, [], [[[7]]], fun _ => 1, 5⟩] = .ok b ∧
      unmarshalResults Wrappers.wrappers b = .ok [⟨true, [], [[[7]]], fun _ => 1, 5⟩] :=
  (results_round_trip_and_size Wrappers.wrappers_spec Writers.writers_spec).1 _
    (by simpa using ⟨by decide, by decide, by decide, by decide, by decide, by decide⟩)
    (by decide) (by decide)

/-! ## Errors past a `uint32` length -/

/-- A failed result whose error is `n` zero bytes, with no outputs, units or fee. -/
def zeroErrorResult (n : ℕ) : Result := ⟨false, List.replicate n 0, [], fun _ => 0, 0⟩

/-- When `n` is a multiple of `2 ^ 32` its length prefix is four zero bytes, so the whole
encoding is zeros: the 54 bytes of the empty-error result, then the error's `n`. -/
theorem encoding_zeroErrorResult {n : ℕ} (hn : n % 2 ^ 32 = 0) :
    (zeroErrorResult n).encoding = List.replicate 54 0 ++ List.replicate n 0 := by
  have h₄ : ofNat 4 n = List.replicate 4 0 := by
    rw [← ofNat_mod, show n % 256 ^ 4 = 0 by rwa [show (256 : ℕ) ^ 4 = 2 ^ 32 by decide]]
    rfl
  have hdims : Dimensions.bytes (fun _ => 0) = List.replicate 40 0 := by decide
  rw [List.replicate_append_replicate]
  refine List.eq_replicate_iff.mpr ⟨?_, fun x hx => ?_⟩
  · simp [zeroErrorResult, Result.encoding, outputsEncoding, length_bytes, dimensionsLen,
      feeDimensions]
    omega
  · have h₈ : ofNat 8 0 = List.replicate 8 0 := rfl
    simp [zeroErrorResult, Result.encoding, outputsEncoding, h₄, hdims, h₈] at hx
    rcases hx with h | ⟨-, h⟩ | h <;> exact h

/-- **An error of a nonzero multiple of `2 ^ 32` bytes does not round-trip.** `PackBytes`
writes its length as `uint32(len)`, zero, so the bytes read back as the empty-error result
followed by `n` bytes left over, which `UnmarshalResults` refuses. -/
theorem unmarshalResults_marshalResults_zeroError {w : Wrappers} {wr : Writers} (hw : w.Spec)
    (hwr : wr.Spec) {n : ℕ} (hn : n % 2 ^ 32 = 0) (hpos : 0 < n) (hroom : 58 + n ≤ Consts.maxInt) :
    ∃ b, marshalResults wr [zeroErrorResult n] = .ok b ∧
      unmarshalResults w b = .error .invalidObject := by
  have hshort : (zeroErrorResult 0).encoding = List.replicate 54 0 := by
    simpa using encoding_zeroErrorResult (n := 0) rfl
  have hfits : ∀ r ∈ [zeroErrorResult 0], r.Fits := by
    simpa using ⟨by decide, by decide, by decide, by decide, by decide, by decide⟩
  have hread := unmarshalResults_encoding hw hfits (by decide) (List.replicate n 0)
  rw [if_neg (by simpa using hpos.ne')] at hread
  have hsize : 4 + ([zeroErrorResult n].map Result.size).sum ≤ Consts.maxInt := by
    simp only [List.map_cons, List.map_nil, List.sum_cons, List.sum_nil, size_eq_length_encoding,
      encoding_zeroErrorResult hn, List.length_append, List.length_replicate]
    omega
  refine ⟨_, marshalResults_eq hwr _ hsize, ?_⟩
  rw [← hread]
  simp [encoding_zeroErrorResult hn, hshort]

/-- The error of `2 ^ 32` bytes, one more than a `uint32` length can say. -/
theorem unmarshalResults_marshalResults_long_error :
    ∃ b, marshalResults Writers.writers [zeroErrorResult (2 ^ 32)] = .ok b ∧
      unmarshalResults Wrappers.wrappers b = .error .invalidObject :=
  unmarshalResults_marshalResults_zeroError Wrappers.wrappers_spec Writers.writers_spec
    (by decide) (by decide) (by decide)

end Hypersdk.Chain
