import Hypersdk.Chain.Unmarshal

/-!
# The actions of the TypeScript VM and their decoders

`examples/typescriptvm`: `Transfer`, `CreateContract` and `ExecuteContract`
(`actions/*.go`), their decoders, and the action registry `registry.go` builds at `init`.

`UnmarshalCreateContract` reads its discriminator with `UnpackBytes(2, ...)`, which accepts any
length up to 2, and converts it with `binary.BigEndian.Uint16`, which panics on fewer than two
bytes. `unmarshalCreateContract_eq_none_iff`: the decoder panics exactly when the discriminator
it read is shorter than two bytes. `unmarshalTxs_panics_on_short_discriminator`: a transaction
batch whose first action is a `CreateContract` with a discriminator of 0 or 1 bytes makes
`UnmarshalTxs` panic, for every auth registry.
-/

namespace Hypersdk.Typescriptvm

open Codec BigEndian
open Chain (Parse UnmarshalError checkErr)

namespace Consts

/-- `consts.TransferID`. -/
def transferID : UInt8 := 0

/-- `consts.CreateContractID`. -/
def createContractID : UInt8 := 1

/-- `consts.ExecuteContractID`. -/
def executeContractID : UInt8 := 2

end Consts

/-- `StateKeysWithPermissions`: a map from key suffixes to permissions. -/
abbrev StateKeysWithPermissions := State.Keys

/-- The actions of the VM, with the fields their decoders fill (`toAddress` is `Transfer.To`). -/
inductive Action
  | transfer (toAddress : Chain.Address) (value : ℕ)
  | createContract (bytecode : Bytes) (discriminator : ℕ)
  | executeContract (contractAddress : Chain.Address) (payload : Option Bytes) (functionName : Bytes)
      (keys : StateKeysWithPermissions) (computeUnitsToSpend : ℕ)

variable (w : Wrappers)

/-- `UnmarshalTransfer`. -/
def unmarshalTransfer (p : Packer) : Parse (Action × Packer) :=
  let (toAddress, p) := unpackAddress w (List.replicate addressLen 0) p
  let (value, p) := unpackUint64 w true p
  checkErr (.transfer toAddress value) p

/-- `UnmarshalCreateContract`: `binary.BigEndian.Uint16` panics on a discriminator of fewer than
two bytes. -/
def unmarshalCreateContract (p : Packer) : Parse (Action × Packer) := do
  let (bytecode, p) := unpackBytes w (-1) false p
  let (discriminatorBytes, p) := unpackBytes w 2 false p
  let some discriminator := BigEndian.uint16 discriminatorBytes | ExceptT.lift none
  pure (.createContract bytecode discriminator, p)

/-- `unmarshalBytesOrNull`: a bool, then the bytes if it is set. -/
def unmarshalBytesOrNull (p : Packer) : Parse (Option Bytes × Packer) :=
  let (flag, p) := w.unpackBool p
  let (field, p) := if flag then
      let (b, p) := unpackBytes w (-1) false p
      (some b, p)
    else (none, p)
  checkErr field p

/-- The loop of `unmarshalKeys`: a key suffix of at most 10000 bytes and a permission byte, a
later key replacing an earlier one. -/
def unmarshalKeysLoop : ℕ → StateKeysWithPermissions → Packer → StateKeysWithPermissions × Packer
  | 0, keys, p => (keys, p)
  | k + 1, keys, p =>
    let (keyPostfix, p) := unpackBytes w 10000 false p
    let (perm, p) := w.unpackByte p
    unmarshalKeysLoop k (keys.insert keyPostfix ⟨perm⟩) p

/-- `unmarshalKeys`. -/
def unmarshalKeys (p : Packer) : Parse (StateKeysWithPermissions × Packer) :=
  let (numKeys, p) := unpackInt w false p
  let (keys, p) := unmarshalKeysLoop w numKeys ∅ p
  checkErr keys p

/-- `UnmarshalExecuteContract`. -/
def unmarshalExecuteContract (p : Packer) : Parse (Action × Packer) := do
  let (contractAddress, p) := unpackAddress w (List.replicate addressLen 0) p
  let (payload, p) ← unmarshalBytesOrNull w p
  let (functionName, p) := unpackString w false p
  let (keys, p) ← unmarshalKeys w p
  let (computeUnitsToSpend, p) := unpackUint64 w false p
  pure (.executeContract contractAddress payload functionName keys computeUnitsToSpend, p)

/-- The registrations of `init` in `registry.go`, which panics if one fails. -/
def registerActions : Except RegisterError (TypeParser UnmarshalError Action) := do
  let tp ← TypeParser.new.register Consts.transferID (unmarshalTransfer w)
  let tp ← tp.register Consts.createContractID (unmarshalCreateContract w)
  tp.register Consts.executeContractID (unmarshalExecuteContract w)

/-- `consts.ActionRegistry`. -/
def actionRegistry : TypeParser UnmarshalError Action :=
  ⟨[(Consts.transferID, unmarshalTransfer w), (Consts.createContractID, unmarshalCreateContract w),
    (Consts.executeContractID, unmarshalExecuteContract w)]⟩

/-- The registrations succeed, so `init` does not panic, and give `actionRegistry`. -/
theorem registerActions_eq : registerActions w = .ok (actionRegistry w) := rfl

/-! ## The panic of `UnmarshalCreateContract` -/

/-- `UnmarshalCreateContract` panics exactly when the discriminator it reads is shorter than two
bytes. -/
theorem unmarshalCreateContract_eq_none_iff (p : Packer) :
    (unmarshalCreateContract w p).run = none ↔
      (unpackBytes w 2 false (unpackBytes w (-1) false p).2).1.length < 2 := by
  rw [← uint16_eq_none_iff]
  unfold unmarshalCreateContract
  cases h : uint16 (unpackBytes w 2 false (unpackBytes w (-1) false p).2).1 <;> simp [h]

variable {w}

theorem unmarshalCreateContract_eq_none (hw : w.Spec) {p : Packer} (h : p.err = none)
    {bytecode discriminator tail : Bytes} (hb : bytecode.length < 256 ^ 4)
    (hd : discriminator.length < 2)
    (hr : p.rest = ofNat 4 bytecode.length ++ bytecode ++ ofNat 4 discriminator.length ++
      discriminator ++ tail) :
    (unmarshalCreateContract w p).run = none := by
  have hr₁ : p.rest = ofNat 4 bytecode.length ++ bytecode ++
      (ofNat 4 discriminator.length ++ discriminator ++ tail) := by
    simp [hr]
  have h₁ : unpackBytes w (-1) false p =
      (bytecode, { p with offset := p.offset + 4 + bytecode.length }) := by
    simp [unpackBytes, unpackBytes_append hw h hb hr₁]
  have hr₂ : ({ p with offset := p.offset + 4 + bytecode.length } : Packer).rest =
      ofNat 4 discriminator.length ++ discriminator ++ tail := by
    have hlen : (ofNat 4 bytecode.length ++ bytecode).length = 4 + bytecode.length := by simp
    have := Packer.rest_advance_of_length (by rw [hr₁, List.append_assoc]) hlen
    rwa [← Nat.add_assoc] at this
  have e₂ : ({ p with offset := p.offset + 4 + bytecode.length } : Packer).err = none := h
  have h₂ : w.unpackLimitedBytes 2 { p with offset := p.offset + 4 + bytecode.length } =
      (discriminator, { p with offset := p.offset + 4 + bytecode.length + 4 +
        discriminator.length }) :=
    unpackLimitedBytes_append hw e₂ (by omega) (by omega) hr₂
  rw [unmarshalCreateContract_eq_none_iff, h₁]
  simpa [unpackBytes, h₂] using hd

/-- **A short `CreateContract` discriminator makes `UnmarshalTxs` panic.** A batch of one
transaction with a well-formed base whose first action is a `CreateContract` with a
discriminator of fewer than two bytes panics, whatever follows and whatever the auth registry. -/
theorem unmarshalTxs_panics_on_short_discriminator (hw : w.Spec) {β : Type}
    (authRegistry : TypeParser UnmarshalError β) (actor sponsor : β → Chain.Address)
    {timestamp maxFee : ℕ} {chainID bytecode discriminator tail : Bytes}
    (ht : timestamp < 2 ^ 63) (ht0 : timestamp ≠ 0) (ht1000 : timestamp % 1000 = 0)
    (hc : chainID.length = idLen) (hc0 : chainID ≠ List.replicate idLen 0)
    (hf : maxFee < 2 ^ 64) (hf0 : maxFee ≠ 0) (hb : bytecode.length < 256 ^ 4)
    (hd : discriminator.length < 2) :
    (Chain.unmarshalTxs w (ofNat 4 1 ++ ofNat 8 timestamp ++ chainID ++ ofNat 8 maxFee ++
      [1, Consts.createContractID] ++ ofNat 4 bytecode.length ++ bytecode ++
      ofNat 4 discriminator.length ++ discriminator ++ tail)
      (actionRegistry w) authRegistry actor sponsor).run = none := by
  -- the bytes after the base: one action, of type `CreateContract`, and its two fields
  set fields := ofNat 4 bytecode.length ++ bytecode ++ ofNat 4 discriminator.length ++
    discriminator ++ tail
  set p₀ := newReader (ofNat 4 1 ++ ofNat 8 timestamp ++ chainID ++ ofNat 8 maxFee ++
      [1, Consts.createContractID] ++ ofNat 4 bytecode.length ++ bytecode ++
      ofNat 4 discriminator.length ++ discriminator ++ tail) Consts.networkSizeLimit
  have hr₀ : p₀.rest = ofNat 4 1 ++
      (ofNat 8 timestamp ++ chainID ++ ofNat 8 maxFee ++ (1 :: Consts.createContractID :: fields)) := by
    simp [p₀, fields, newReader, Packer.rest]
  have hcount : unpackInt w true p₀ = (0 + 1, { p₀ with offset := p₀.offset + 4 }) :=
    unpackInt_append_required hw rfl (by decide) (by decide) hr₀
  have hr₁ := Packer.rest_advance_of_length hr₀ (length_ofNat 4 1)
  have hbase := Chain.unmarshalBase_append hw (show ({ p₀ with offset := p₀.offset + 4 } : Packer).err = none from rfl)
    ht ht0 ht1000 hc hc0 hf hf0 hr₁
  set p₂ : Packer := { p₀ with offset := p₀.offset + 4 + 8 + idLen + 8 }
  have hr₂ : p₂.rest = 1 :: Consts.createContractID :: fields := by
    have hlen : (ofNat 8 timestamp ++ chainID ++ ofNat 8 maxFee).length = 8 + idLen + 8 := by
      simp only [List.length_append, length_ofNat, hc]
    exact Packer.rest_of_offset_eq hr₁ rfl (by simp only [p₂, hlen]; omega)
  have hr₃ : ({ p₂ with offset := p₂.offset + 1 + 1 } : Packer).rest = fields :=
    Packer.rest_of_offset_eq (show p₂.rest = [1, Consts.createContractID] ++ fields from hr₂) rfl
      (by simp)
  have hcreate := unmarshalCreateContract_eq_none hw
    (show ({ p₂ with offset := p₂.offset + 1 + 1 } : Packer).err = none from rfl) hb hd
    (by rw [hr₃])
  have hactions := Chain.unmarshalActions_eq_none hw (show p₂.err = none from rfl)
    (by decide) hr₂ (rfl : (actionRegistry w).lookupIndex Consts.createContractID =
      some (unmarshalCreateContract w)) hcreate
  exact Chain.unmarshalTxs_eq_none hcount (Chain.unmarshalTx_eq_none hbase hactions)

/-- One transaction with expiry 1000, chain `[1, 0, …, 0]`, `MaxFee` 1 and one `CreateContract`
with an empty bytecode and an empty discriminator: 62 bytes. -/
theorem unmarshalTxs_panics_on_empty_discriminator :
    (Chain.unmarshalTxs Wrappers.wrappers (ofNat 4 1 ++ ofNat 8 1000 ++ (1 :: List.replicate 31 0) ++
      ofNat 8 1 ++ [1, Consts.createContractID] ++ ofNat 4 ([] : Bytes).length ++ [] ++
      ofNat 4 ([] : Bytes).length ++ [] ++ [])
      (actionRegistry Wrappers.wrappers) (TypeParser.new : TypeParser UnmarshalError Unit)
      (fun _ => []) (fun _ => [])).run = none :=
  @unmarshalTxs_panics_on_short_discriminator Wrappers.wrappers Wrappers.wrappers_spec Unit
    TypeParser.new (fun _ => []) (fun _ => []) 1000 1 (1 :: List.replicate 31 0) [] [] []
    (by decide) (by decide) (by decide) (by decide) (by decide) (by decide) (by decide)
    (by decide) (by decide)

end Hypersdk.Typescriptvm
