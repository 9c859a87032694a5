import Hypersdk.Chain.Transaction
import Hypersdk.Codec.Packer

/-!
# Parsing transactions and blocks

`UnmarshalBase` (`chain/base.go`), `unmarshalActions`, `UnmarshalTx` and `UnmarshalTxs`
(`chain/transaction.go`) and `UnmarshalBlock` (`chain/block.go`), over the reads of
`codec.Packer`. Actions and auths are parsed by the decoders a VM registers, so the functions
are generic in their types and take the two registries; a decoder may return an error or
panic, and so may these functions (`none` in `ExceptT UnmarshalError Option`).

A transaction keeps the bytes it was read from (`bytes`, and `digest` up to its auth), as
`UnmarshalTx` slices them out of the packer.
-/

namespace Hypersdk.Chain

open Codec

/-- The errors parsing returns: the packer's first error, and those of `chain/errors.go`. -/
inductive UnmarshalError
  /-- `p.Err()`. -/
  | codec (e : PackerError)
  | misalignedTime
  | invalidObject
  | invalidActor
  | invalidSponsor
  /-- An error a VM's decoder returns of its own. -/
  | vm
  deriving DecidableEq, Repr

/-- A call that returns `(T, error)` and may panic (`none`). -/
abbrev Parse := ExceptT UnmarshalError Option

/-- `p.Err()` as an error return. -/
def checkErr {α : Type} (a : α) (p : Packer) : Parse (α × Packer) :=
  match p.err with
  | some e => throw (.codec e)
  | none => pure (a, p)

variable (w : Wrappers)

/-- `UnmarshalBase`. -/
def unmarshalBase (p : Packer) : Parse (Base × Packer) := do
  let (timestamp, p) := unpackInt64 w true p
  if timestamp % 1000 ≠ 0 then throw .misalignedTime
  let (chainID, p) := unpackID w true (List.replicate idLen 0) p
  let (maxFee, p) := unpackUint64 w true p
  checkErr ⟨timestamp, chainID, maxFee⟩ p

theorem unmarshalBase_append {w : Wrappers} (hw : w.Spec) {p : Packer} (h : p.err = none)
    {timestamp maxFee : ℕ} {chainID tail : Bytes} (ht : timestamp < 2 ^ 63) (ht0 : timestamp ≠ 0)
    (ht1000 : timestamp % 1000 = 0) (hc : chainID.length = idLen)
    (hc0 : chainID ≠ List.replicate idLen 0) (hf : maxFee < 2 ^ 64) (hf0 : maxFee ≠ 0)
    (hr : p.rest = BigEndian.ofNat 8 timestamp ++ chainID ++ BigEndian.ofNat 8 maxFee ++ tail) :
    unmarshalBase w p =
      pure (⟨timestamp, chainID, maxFee⟩, { p with offset := p.offset + 8 + idLen + 8 }) := by
  have hr₁ : p.rest = BigEndian.ofNat 8 timestamp ++ (chainID ++ BigEndian.ofNat 8 maxFee ++ tail) := by
    simp [hr]
  have h₁ := unpackInt64_append hw h ht ht0 hr₁
  have hr₂ := Packer.rest_advance_of_length hr₁ (BigEndian.length_ofNat 8 timestamp)
  have e₂ : ({ p with offset := p.offset + 8 } : Packer).err = none := h
  have h₂ : unpackID w true (List.replicate idLen 0) { p with offset := p.offset + 8 } =
      (chainID, { p with offset := p.offset + 8 + idLen }) :=
    unpackID_append hw e₂ hc hc0 (by rw [hr₂, List.append_assoc])
  have hr₃ : ({ p with offset := p.offset + 8 + idLen } : Packer).rest =
      BigEndian.ofNat 8 maxFee ++ tail :=
    Packer.rest_advance_of_length (by rw [hr₂, List.append_assoc]) hc
  have e₃ : ({ p with offset := p.offset + 8 + idLen } : Packer).err = none := h
  have h₃ : unpackUint64 w true { p with offset := p.offset + 8 + idLen } =
      (maxFee, { p with offset := p.offset + 8 + idLen + 8 }) :=
    unpackUint64_append hw e₃ hf hf0 hr₃
  have hmod : (timestamp : ℤ) % 1000 = 0 := by omega
  simp only [unmarshalBase, h₁, h₂, h₃]
  simp [hmod, checkErr, h]

variable {α β : Type}

/-- The loop of `unmarshalActions` over the actions still to read. -/
def unmarshalActionsLoop (actionRegistry : TypeParser UnmarshalError α) :
    ℕ → List α → Packer → Parse (List α × Packer)
  | 0, actions, p => pure (actions, p)
  | k + 1, actions, p => do
    let (actionType, p) := w.unpackByte p
    let some unmarshalAction := actionRegistry.lookupIndex actionType
      | throw .invalidObject
    let (action, p) ← unmarshalAction p
    unmarshalActionsLoop actionRegistry k (actions ++ [action]) p

/-- `unmarshalActions`: a count byte, at least one, then each action by its type byte. -/
def unmarshalActions (actionRegistry : TypeParser UnmarshalError α) (p : Packer) :
    Parse (List α × Packer) := do
  let (actionCount, p) := w.unpackByte p
  if actionCount = 0 then throw .invalidObject
  unmarshalActionsLoop w actionRegistry actionCount.toNat [] p

/-- A `Transaction` as `UnmarshalTx` makes it: its actions and auth as the registries parsed
them, and the bytes they were read from. -/
structure ParsedTx (α β : Type) where
  base : Base
  actions : List α
  auth : β
  digest : Bytes
  bytes : Bytes

/-- The bytes of the packer between two offsets: `codecBytes[start:stop]`. -/
def sliceBytes (p : Packer) (start stop : ℕ) : Bytes := (p.bytes.take stop).drop start

/-- `UnmarshalTx`, with `actor` and `sponsor` the addresses an auth answers. -/
def unmarshalTx (actionRegistry : TypeParser UnmarshalError α)
    (authRegistry : TypeParser UnmarshalError β) (actor sponsor : β → Address) (p : Packer) :
    Parse (ParsedTx α β × Packer) := do
  let start := p.offset
  let (base, p) ← unmarshalBase w p
  let (actions, p) ← unmarshalActions w actionRegistry p
  let digest := p.offset
  let (authType, p) := w.unpackByte p
  let some unmarshalAuth := authRegistry.lookupIndex authType | throw .invalidObject
  let (auth, p) ← unmarshalAuth p
  if (actor auth).headD 0 ≠ authType then throw .invalidActor
  if (sponsor auth).headD 0 ≠ authType then throw .invalidSponsor
  checkErr ⟨base, actions, auth, sliceBytes p start digest, sliceBytes p start p.offset⟩ p

/-- The loop of `UnmarshalTxs` over the transactions still to read. -/
def unmarshalTxsLoop (actionRegistry : TypeParser UnmarshalError α)
    (authRegistry : TypeParser UnmarshalError β) (actor sponsor : β → Address) :
    ℕ → List (ParsedTx α β) → Packer → Parse (List (ParsedTx α β) × Packer)
  | 0, txs, p => pure (txs, p)
  | k + 1, txs, p => do
    let (tx, p) ← unmarshalTx w actionRegistry authRegistry actor sponsor p
    unmarshalTxsLoop actionRegistry authRegistry actor sponsor k (txs ++ [tx]) p

/-- `UnmarshalTxs`: a non-zero count, the transactions, and nothing left over. The auth
counts it also returns are left out. -/
def unmarshalTxs (raw : Bytes) (actionRegistry : TypeParser UnmarshalError α)
    (authRegistry : TypeParser UnmarshalError β) (actor sponsor : β → Address) :
    Parse (List (ParsedTx α β)) := do
  let p := newReader raw Consts.networkSizeLimit
  let (txCount, p) := unpackInt w true p
  let (txs, p) ← unmarshalTxsLoop w actionRegistry authRegistry actor sponsor txCount [] p
  if !p.empty then throw .invalidObject
  let (txs, _) ← checkErr txs p
  pure txs

/-! ## A panic in a decoder reaches the caller -/

section Panics

variable {w} {actionRegistry : TypeParser UnmarshalError α}
  {authRegistry : TypeParser UnmarshalError β} {actor sponsor : β → Address} {p : Packer}

theorem unmarshalActionsLoop_eq_none {actionType : UInt8} {tail : Bytes} (hw : w.Spec)
    (h : p.err = none) (hr : p.rest = actionType :: tail) {unmarshalAction : Decoder UnmarshalError α}
    (hl : actionRegistry.lookupIndex actionType = some unmarshalAction)
    (hd : (unmarshalAction { p with offset := p.offset + 1 }).run = none) (k : ℕ)
    (actions : List α) : (unmarshalActionsLoop w actionRegistry (k + 1) actions p).run = none := by
  simp [unmarshalActionsLoop, unpackByte_cons hw h hr, hl, ExceptT.run_bind, hd]

/-- The first action's decoder panics, so `unmarshalActions` does. -/
theorem unmarshalActions_eq_none {actionCount actionType : UInt8} {tail : Bytes} (hw : w.Spec)
    (h : p.err = none) (hc : actionCount ≠ 0) (hr : p.rest = actionCount :: actionType :: tail)
    {unmarshalAction : Decoder UnmarshalError α}
    (hl : actionRegistry.lookupIndex actionType = some unmarshalAction)
    (hd : (unmarshalAction { p with offset := p.offset + 1 + 1 }).run = none) :
    (unmarshalActions w actionRegistry p).run = none := by
  have hr' : ({ p with offset := p.offset + 1 } : Packer).rest = actionType :: tail :=
    Packer.rest_advance_of_length (show p.rest = [actionCount] ++ actionType :: tail from hr) rfl
  have h' : ({ p with offset := p.offset + 1 } : Packer).err = none := h
  obtain ⟨k, hk⟩ : ∃ k, actionCount.toNat = k + 1 :=
    ⟨actionCount.toNat - 1, by
      have hpos : actionCount.toNat ≠ 0 := fun h0 => hc (UInt8.toNat_inj.mp (by rw [h0]; rfl))
      omega⟩
  have hloop := unmarshalActionsLoop_eq_none hw h' hr' hl hd k []
  simp [unmarshalActions, unpackByte_cons hw h hr, hc, hk, hloop]

/-- The base decodes and the actions panic, so `UnmarshalTx` does. -/
theorem unmarshalTx_eq_none {base : Base} {p' : Packer} (hb : unmarshalBase w p = pure (base, p'))
    (ha : (unmarshalActions w actionRegistry p').run = none) :
    (unmarshalTx w actionRegistry authRegistry actor sponsor p).run = none := by
  simp [unmarshalTx, hb, ExceptT.run_bind, ha]

/-- The first transaction panics, so `UnmarshalTxs` does. -/
theorem unmarshalTxs_eq_none {raw : Bytes} {txCount : ℕ} {p' : Packer}
    (hc : unpackInt w true (newReader raw Consts.networkSizeLimit) = (txCount + 1, p'))
    (ht : (unmarshalTx w actionRegistry authRegistry actor sponsor p').run = none) :
    (unmarshalTxs w raw actionRegistry authRegistry actor sponsor).run = none := by
  simp [unmarshalTxs, hc, unmarshalTxsLoop, ExceptT.run_bind, ht]

end Panics

end Hypersdk.Chain
