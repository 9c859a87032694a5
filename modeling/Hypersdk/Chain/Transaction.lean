import Hypersdk.Chain.Dependencies
import Hypersdk.Math.Uint64
import Mathlib

/-!
# Transactions: state keys, units and the pre-execution checks

`chain/base.go` and `chain/transaction.go`. A transaction's `Base` carries its expiry, chain
and `MaxFee`; `stateKeys` is the union of the keys its actions and its sponsor declare;
`units` is what the transaction is charged in each fee dimension (its size, its compute, and per
state key the read, allocate and write units of the key and of the chunks it may hold); and
`preExecute` is the check made before a transaction is executed, in a block being built or
verified: the base, the number of actions, the activation ranges, the units, the fee at the
current prices, and that the sponsor can pay it.

`preExecute_withMaxFee`: nothing in these checks reads `MaxFee`. The documented contract of
`Base.MaxFee` ("the max fee the user will pay", with `ErrInsufficientPrice` handled by the
builder) is not enforced; `preExecute_accepts_fee_above_maxFee` is a transaction whose fee at
the current prices is a hundred times its `MaxFee`, accepted.
-/

namespace Hypersdk.Chain

open Fees State Math Checked

/-- `Base`: the expiry, the chain and the most the sender will pay. -/
structure Base where
  timestamp : ℤ
  chainID : Bytes
  maxFee : ℕ

/-- `Base.Execute`: the expiry is a whole second, not past, and within the validity window;
the chain is this one. -/
def Base.execute (b : Base) (chainID : Bytes) (r : Rules) (timestamp : ℤ) :
    Except ChainError Unit :=
  if b.timestamp % 1000 ≠ 0 then .error .misalignedTime
  else if b.timestamp < timestamp then .error .timestampTooLate
  else if b.timestamp > timestamp + r.validityWindow then .error .timestampTooEarly
  else if b.chainID ≠ chainID then .error .invalidChainID
  else .ok ()

/-- `Result`: the outcome of executing a transaction, its units and the fee it paid. -/
structure Result where
  success : Bool
  error : Bytes
  outputs : List (List Bytes)
  units : Dimensions
  fee : ℕ

/-- `Transaction`, with `Size` the length of its bytes. -/
structure Transaction where
  base : Base
  actions : List Action
  auth : Auth
  size : ℕ

namespace Transaction

/-- Add keys one by one with `Keys.Add`, refusing at the first malformed one. -/
def addKeys (ks : Keys) : List (Bytes × Permissions) → Option Keys
  | [] => some ks
  | (k, v) :: rest => (ks.add k v).bind (addKeys · rest)

/-- `StateKeys`: the union of the actions' keys and the sponsor's. -/
def stateKeys (t : Transaction) (sm : StateManager) : Except ChainError Keys :=
  match (t.actions.foldlM (fun ks a => addKeys ks a.stateKeys) ∅).bind
      (addKeys · (sm.sponsorStateKeys t.auth.sponsor)) with
  | some ks => .ok ks
  | none => .error .invalidKeyValue

/-- The storage charges of one key (the body of the loop over the state keys in `Units`). -/
def chargeKey (r : Rules) (acc : Uint64Operator × Uint64Operator × Uint64Operator) (k : Bytes) :
    Except ChainError (Uint64Operator × Uint64Operator × Uint64Operator) :=
  let reads := acc.1.add r.storageKeyReadUnits
  let allocates := acc.2.1.add r.storageKeyAllocateUnits
  let writes := acc.2.2.add r.storageKeyWriteUnits
  match Keys.maxChunks k with
  | none => .error .invalidKeyValue
  | some maxChunks =>
    .ok (reads.mulAdd maxChunks r.storageValueReadUnits,
      allocates.mulAdd maxChunks r.storageValueAllocateUnits,
      writes.mulAdd maxChunks r.storageValueWriteUnits)

/-- An accumulator's value, or the overflow it met. -/
def valueOf (o : Uint64Operator) : Except ChainError ℕ :=
  match o.value with
  | some v => .ok v
  | none => .error .overflow

/-- `Units`: bandwidth, compute, reads, allocates and writes. -/
def units (t : Transaction) (sm : StateManager) (r : Rules) : Except ChainError Dimensions := do
  let computeOp := (t.actions.foldl (fun (o : Uint64Operator) a => o.add a.computeUnits)
    (.new r.baseComputeUnits)).add t.auth.computeUnits
  let maxComputeUnits ← valueOf computeOp
  let stateKeys ← t.stateKeys sm
  let ops ← stateKeys.keys.foldlM (chargeKey r) (.new 0, .new 0, .new 0)
  let reads ← valueOf ops.1
  let allocates ← valueOf ops.2.1
  let writes ← valueOf ops.2.2
  return ![t.size, maxComputeUnits, reads, allocates, writes]

/-- The check of an activation range `ValidRange`: `-1` is an open end. -/
def activated (range : ℤ × ℤ) (timestamp : ℤ) : Bool :=
  !(range.1 ≥ 0 && timestamp < range.1) && !(range.2 ≥ 0 && timestamp > range.2)

/-- `PreExecute`. -/
def preExecute (t : Transaction) (feeManager : Manager) (s : StateManager) (r : Rules)
    (im : Bytes → Option Bytes) (timestamp : ℤ) : Except ChainError Unit := do
  t.base.execute r.chainID r timestamp
  if t.actions.length > r.maxActionsPerTx then throw .tooManyActions
  t.actions.forM fun action =>
    if activated action.validRange timestamp then pure () else throw .actionNotActivated
  if !activated t.auth.validRange timestamp then throw .authNotActivated
  let units ← t.units s r
  let some fee := feeManager.fee units | throw .overflow
  s.canDeduct t.auth.sponsor im fee

/-- The transaction with another `MaxFee`. -/
def withMaxFee (t : Transaction) (m : ℕ) : Transaction :=
  { t with base := { t.base with maxFee := m } }

theorem units_withMaxFee (t : Transaction) (m : ℕ) (sm : StateManager) (r : Rules) :
    (t.withMaxFee m).units sm r = t.units sm r := rfl

/-- **`PreExecute` does not read `MaxFee`.** -/
theorem preExecute_withMaxFee (t : Transaction) (m : ℕ) (feeManager : Manager)
    (s : StateManager) (r : Rules) (im : Bytes → Option Bytes) (timestamp : ℤ) :
    (t.withMaxFee m).preExecute feeManager s r im timestamp =
      t.preExecute feeManager s r im timestamp := rfl

/-- A transaction with `MaxFee` 1 and 100 bytes, at a bandwidth price of 1: `PreExecute`
accepts it, and its fee is 100. -/
theorem preExecute_accepts_fee_above_maxFee :
    let t : Transaction :=
      ⟨⟨1000, [1], 1⟩, [⟨0, (-1, -1), 1, [([0, 1], .write)]⟩], ⟨0, (-1, -1), 1, [0], [0]⟩, 100⟩
    let r : Rules := ⟨[1], 60000, 16, 1, fun _ => 1000, fun _ => 2000, 1, 1, 1, 1, 1, 1, 1⟩
    let s : StateManager := ⟨fun _ => [], fun _ _ _ => .ok ()⟩
    let feeManager := Manager.empty.setUnitPrice 0 1
    t.preExecute feeManager s r (fun _ => none) 1000 = .ok () ∧
      t.units s r = .ok ![100, 3, 2, 2, 2] ∧ feeManager.fee ![100, 3, 2, 2, 2] = some 100 ∧
      t.base.maxFee < 100 := by
  refine ⟨?_, ?_, ?_, ?_⟩
  · decide
  · rfl
  · decide
  · decide

end Transaction

end Hypersdk.Chain
