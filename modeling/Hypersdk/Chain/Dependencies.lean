import Hypersdk.Fees.Manager
import Hypersdk.State.Keys

/-!
# What the chain depends on

The interfaces of `chain/dependencies.go` and the errors of `chain/errors.go` that the model's
chain functions use. `Rules`, `Action`, `Auth` and `StateManager` are interfaces implemented by
each VM; here each is the record of the answers its methods give, at the arguments the chain
passes them (the chain's `Rules`, a transaction's actor and action ids). A `StateManager` reads
state, so its fee checks are functions of the state they are given.
-/

namespace Hypersdk.Chain

open Fees State

/-- `codec.Address`: a type byte and 32 bytes. -/
abbrev Address := Bytes

/-- The errors the chain functions return: those of `chain/errors.go`, the overflow of the
checked arithmetic, and an error a VM's own code returns (`external`). -/
inductive ChainError
  | invalidObject
  | invalidChainID
  | timestampTooEarly
  | timestampTooLate
  | invalidUnitsConsumed
  | insufficientPrice
  | actionNotActivated
  | authNotActivated
  | authFailed
  | misalignedTime
  | tooManyActions
  | tooManyOutputs
  | invalidBalance
  | invalidKeyValue
  | overflow
  | external
  deriving DecidableEq, Repr

/-- `Rules`: the getters the model reads. -/
structure Rules where
  chainID : Bytes
  validityWindow : ℤ
  maxActionsPerTx : ℕ
  maxOutputsPerAction : ℕ
  windowTargetUnits : Dimensions
  maxBlockUnits : Dimensions
  baseComputeUnits : ℕ
  storageKeyReadUnits : ℕ
  storageValueReadUnits : ℕ
  storageKeyAllocateUnits : ℕ
  storageValueAllocateUnits : ℕ
  storageKeyWriteUnits : ℕ
  storageValueWriteUnits : ℕ

/-- `Action`, by what `GetTypeID`, `ValidRange`, `ComputeUnits` and `StateKeys` answer (the
keys in the order `range` visits them). -/
structure Action where
  typeID : UInt8
  validRange : ℤ × ℤ
  computeUnits : ℕ
  stateKeys : List (Bytes × Permissions)

/-- `Auth`, by what `GetTypeID`, `ValidRange`, `ComputeUnits`, `Actor` and `Sponsor` answer. -/
structure Auth where
  typeID : UInt8
  validRange : ℤ × ℤ
  computeUnits : ℕ
  actor : Address
  sponsor : Address

/-- `StateManager`: the fee payer's state keys and the check that it can pay an amount from
a state. -/
structure StateManager where
  sponsorStateKeys : Address → List (Bytes × Permissions)
  canDeduct : Address → (Bytes → Option Bytes) → ℕ → Except ChainError Unit

end Hypersdk.Chain
