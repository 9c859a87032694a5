import Hypersdk.State.Keys

/-!
# The program runtime's host-side encoding

`x/programs/runtime/serialization.go`. Values cross the host/guest boundary in the encoding the
guest SDK's borsh expects. `serialize` dispatches at run time: a nil value (a nil pointer,
interface, slice, map, channel or function) is written as nothing; `RawBytes`, `Option` and
`Result` have their own encoders, a tag byte before the payload for the last two; every other
type goes to borsh. `deserialize` dispatches the same way.

The shapes of these values are `HostType`, over the types borsh handles (`BorshTypes`), and
`Val` reads each as a Lean type. Where no payload is nil, `serialize` writes the borsh encoding
(`bufferSerialize_eq_borshEncoding`) and `deserialize` reads it back
(`deserialize_bufferSerialize`), at every nesting, given only that borsh reads back what it
writes of a non-nil value. A nil payload breaks both: `Some` or `Ok` of a nil `[]byte` is the
lone tag byte, where borsh writes the tag and a zero length, and `deserialize` refuses it.
-/

namespace Hypersdk.Programs

open BigEndian

/-- The types borsh handles, by name: the Lean type of each, borsh's encoder and decoder
(`none` an error), and which values Go's `isNil` sees as nil. -/
structure BorshTypes where
  Name : Type
  Val : Name → Type
  encode : (b : Name) → Val b → Bytes
  decode : (b : Name) → Bytes → Option (Val b)
  isNil : (b : Name) → Val b → Bool

/-- What the borsh library is assumed to do: read back what it writes of a non-nil value. -/
def BorshTypes.Lawful (L : BorshTypes) : Prop :=
  ∀ b v, L.isNil b v = false → L.decode b (L.encode b v) = some v

/-- The shapes of the values that cross the boundary. -/
inductive HostType (N : Type)
  | borsh (b : N)
  | rawBytes
  | option (t : HostType N)
  | result (t e : HostType N)

variable (L : BorshTypes)

/-- The Lean reading of a host type: `RawBytes` by its contents, `Option[T]` as `Option`, and
`Result[T, E]` as `Except E T`, `Ok` being `.ok`. -/
def Val : HostType L.Name → Type
  | .borsh b => L.Val b
  | .rawBytes => Bytes
  | .option t => Option (Val t)
  | .result t e => Except (Val e) (Val t)

attribute [reducible] Val

/-- `optionSomePrefix`. -/
def optionSomePrefix : UInt8 := 1

/-- `optionNonePrefix`. -/
def optionNonePrefix : UInt8 := 0

/-- `resultOkPrefix`. -/
def resultOkPrefix : UInt8 := 1

/-- `resultErrPrefix`. -/
def resultErrPrefix : UInt8 := 0

/-- The errors of `deserialize`: `errors.New("deserialization")`, and borsh's own. -/
inductive DeserializeError
  | deserialization
  | borsh
  deriving DecidableEq, Repr

/-- `bufferSerialize`, with the `customSerialize` of `RawBytes`, `Option` and `Result`. The
`isNil` check matters only for a borsh payload: `Option` and `Result` are structs, never nil,
and a nil `RawBytes` writes nothing, as an empty one does. -/
def bufferSerialize : (t : HostType L.Name) → Val L t → Bytes
  | .borsh b, v => if L.isNil b v then [] else L.encode b v
  | .rawBytes, r => r
  | .option _, none => [optionNonePrefix]
  | .option t, some v => optionSomePrefix :: bufferSerialize t v
  | .result t _, .ok v => resultOkPrefix :: bufferSerialize t v
  | .result _ e, .error x => resultErrPrefix :: bufferSerialize e x

/-- `serialize`: the bytes `bufferSerialize` writes into an empty buffer. -/
def serialize (t : HostType L.Name) (v : Val L t) : Bytes := bufferSerialize L t v

/-- `deserialize`, with the `customDeserialize` of `RawBytes`, `Option` and `Result`: the tag
byte, then the payload from the rest of the bytes. -/
def deserialize : (t : HostType L.Name) → Bytes → Except DeserializeError (Val L t)
  | .borsh b, data =>
    match L.decode b data with
    | some v => .ok v
    | none => .error .borsh
  | .rawBytes, data => .ok data
  | .option t, data =>
    match data with
    | [] => .error .deserialization
    | x :: rest =>
      if x = optionSomePrefix then
        match deserialize t rest with
        | .ok v => .ok (some v)
        | .error _ => .error .deserialization
      else if x = optionNonePrefix then .ok none
      else .error .deserialization
  | .result t e, data =>
    match data with
    | [] => .error .deserialization
    | x :: rest =>
      if x = resultOkPrefix then
        match deserialize t rest with
        | .ok v => .ok (.ok v)
        | .error _ => .error .deserialization
      else if x = resultErrPrefix then
        match deserialize e rest with
        | .ok v => .ok (.error v)
        | .error _ => .error .deserialization
      else .error .deserialization

/-! ## What the guest expects -/

/-- The borsh encoding the guest SDK reads: the tag of an `Option` or `Result` before its
payload's borsh encoding, and `RawBytes` as they are. -/
def borshEncoding : (t : HostType L.Name) → Val L t → Bytes
  | .borsh b, v => L.encode b v
  | .rawBytes, r => r
  | .option _, none => [0]
  | .option t, some v => 1 :: borshEncoding t v
  | .result t _, .ok v => 1 :: borshEncoding t v
  | .result _ e, .error x => 0 :: borshEncoding e x

/-- No borsh payload inside the value is nil. -/
def NilFree : (t : HostType L.Name) → Val L t → Prop
  | .borsh b, v => L.isNil b v = false
  | .rawBytes, _ => True
  | .option _, none => True
  | .option t, some v => NilFree t v
  | .result t _, .ok v => NilFree t v
  | .result _ e, .error x => NilFree e x

/-! ## The round trip -/

section RoundTrip

variable {L}

/-- **Without nil payloads, `serialize` writes the borsh encoding.** -/
theorem bufferSerialize_eq_borshEncoding :
    ∀ (t : HostType L.Name) (v : Val L t), NilFree L t v → bufferSerialize L t v = borshEncoding L t v
  | .borsh b, v, h => by
    have hnil : L.isNil b v = false := h
    simp [bufferSerialize, borshEncoding, hnil]
  | .rawBytes, _, _ => rfl
  | .option _, none, _ => rfl
  | .option t, some v, h => by
    rw [bufferSerialize, borshEncoding, bufferSerialize_eq_borshEncoding t v h]
    rfl
  | .result t _, .ok v, h => by
    rw [bufferSerialize, borshEncoding, bufferSerialize_eq_borshEncoding t v h]
    rfl
  | .result _ e, .error x, h => by
    rw [bufferSerialize, borshEncoding, bufferSerialize_eq_borshEncoding e x h]
    rfl

/-- **Without nil payloads, `deserialize` reads back what `serialize` writes**, given that
borsh does for each non-nil borsh value. -/
theorem deserialize_bufferSerialize (hL : L.Lawful) :
    ∀ (t : HostType L.Name) (v : Val L t), NilFree L t v →
      deserialize L t (bufferSerialize L t v) = .ok v
  | .borsh b, v, h => by
    have hnil : L.isNil b v = false := h
    simp [bufferSerialize, deserialize, hnil, hL b v hnil]
  | .rawBytes, _, _ => rfl
  | .option _, none, _ => by
    simp [bufferSerialize, deserialize, optionNonePrefix, optionSomePrefix]
  | .option t, some v, h => by
    simp [bufferSerialize, deserialize, deserialize_bufferSerialize hL t v h]
  | .result t _, .ok v, h => by
    simp [bufferSerialize, deserialize, deserialize_bufferSerialize hL t v h]
  | .result _ e, .error x, h => by
    simp [bufferSerialize, deserialize, resultErrPrefix, resultOkPrefix,
      deserialize_bufferSerialize hL e x h]

/-- A nil borsh payload after a tag is the tag alone, and a borsh type that cannot read an
empty input makes `deserialize` refuse it. -/
theorem deserialize_tag_of_isNil {b : L.Name} {v : L.Val b} (hnil : L.isNil b v = true)
    (hempty : L.decode b [] = none) :
    serialize L (.option (.borsh b)) (some v) = [optionSomePrefix] ∧
      deserialize L (.option (.borsh b)) (serialize L (.option (.borsh b)) (some v)) =
        .error .deserialization ∧
      ∀ e : HostType L.Name, serialize L (.result (.borsh b) e) (.ok v) = [resultOkPrefix] ∧
        deserialize L (.result (.borsh b) e) (serialize L (.result (.borsh b) e) (.ok v)) =
          .error .deserialization := by
  -- the payload writes nothing, so the decoder of the payload reads nothing
  refine ⟨by simp [serialize, bufferSerialize, hnil], ?_,
    fun e => ⟨by simp [serialize, bufferSerialize, hnil], ?_⟩⟩
  · simp [serialize, bufferSerialize, hnil, deserialize, hempty]
  · simp [serialize, bufferSerialize, hnil, deserialize, hempty]

end RoundTrip

/-! ## `[]byte` -/

/-- borsh's `Vec<u8>`, which `[]byte` encodes to: a little-endian `u32` length, then the bytes;
`none` is the nil slice, encoded as the empty one. -/
def sliceEncode (v : Option Bytes) : Bytes := (ofNat 4 (v.getD []).length).reverse ++ v.getD []

/-- Reading a `Vec<u8>`: the length, then that many bytes. -/
def sliceDecode (data : Bytes) : Option (Option Bytes) :=
  if 4 ≤ data.length then
    let n := toNat (data.take 4).reverse
    if 4 + n ≤ data.length then some (some ((data.drop 4).take n)) else none
  else none

/-- borsh over `[]byte`, the one payload type whose nil values matter here. -/
def sliceBorsh : BorshTypes where
  Name := Unit
  Val _ := Option Bytes
  encode _ := sliceEncode
  decode _ := sliceDecode
  isNil _ v := v.isNone

/-- borsh over `u8`, a byte as it is. -/
def u8Borsh : BorshTypes where
  Name := Unit
  Val _ := UInt8
  encode _ x := [x]
  decode _ data := data.head?
  isNil _ _ := false

theorem u8Borsh_lawful : u8Borsh.Lawful := fun _ _ _ => rfl

/-- **The runtime's encoding is borsh and round-trips except at nil payloads.** For every borsh
library that reads back its non-nil values, every host type, at any nesting of `Option`,
`Result` and `RawBytes`, and every value with no nil borsh payload, `serialize` writes the
borsh encoding and `deserialize` reads the value back. But a nil payload under a tag is written
as the tag alone, which `deserialize` refuses wherever borsh cannot read an empty input: so
for `[]byte`, whose nil slice borsh writes as a zero length, `Some` and `Ok` of a nil slice. -/
theorem serialize_drops_nil_payloads :
    (∀ L : BorshTypes, L.Lawful → ∀ (t : HostType L.Name) (v : Val L t), NilFree L t v →
      serialize L t v = borshEncoding L t v ∧ deserialize L t (serialize L t v) = .ok v) ∧
    (∀ (L : BorshTypes) (b : L.Name) (v : L.Val b), L.isNil b v = true → L.decode b [] = none →
      serialize L (.option (.borsh b)) (some v) = [optionSomePrefix] ∧
      deserialize L (.option (.borsh b)) (serialize L (.option (.borsh b)) (some v)) =
        .error .deserialization ∧
      ∀ e : HostType L.Name, serialize L (.result (.borsh b) e) (.ok v) = [resultOkPrefix] ∧
        deserialize L (.result (.borsh b) e) (serialize L (.result (.borsh b) e) (.ok v)) =
          .error .deserialization) ∧
    sliceBorsh.isNil () none = true ∧ sliceBorsh.decode () [] = none ∧
      borshEncoding sliceBorsh (.option (.borsh ())) (some none) = [1, 0, 0, 0, 0] :=
  ⟨fun _ hL t v h => ⟨bufferSerialize_eq_borshEncoding t v h, deserialize_bufferSerialize hL t v h⟩,
    fun _ _ _ hnil hempty => deserialize_tag_of_isNil hnil hempty, rfl, rfl, rfl⟩

/-- `Some(Ok(7))` of `Option[Result[u8, RawBytes]]` round-trips; `Some` of a nil `[]byte` is
one byte, which does not. -/
theorem serialize_drops_nil_payloads_nil_slice :
    deserialize u8Borsh (.option (.result (.borsh ()) .rawBytes))
        (serialize u8Borsh (.option (.result (.borsh ()) .rawBytes)) (some (.ok (7 : UInt8)))) =
      .ok (some (.ok (7 : UInt8))) ∧
    serialize sliceBorsh (.option (.borsh ())) (some none) = [optionSomePrefix] ∧
    deserialize sliceBorsh (.option (.borsh ())) [optionSomePrefix] = .error .deserialization :=
  let h := serialize_drops_nil_payloads
  let hnil := h.2.1 sliceBorsh () none rfl rfl
  ⟨(h.1 u8Borsh u8Borsh_lawful (.option (.result (.borsh ()) .rawBytes)) (some (.ok (7 : UInt8))) rfl).2,
    hnil.1, hnil.1 ▸ hnil.2.1⟩

end Hypersdk.Programs
