import Hypersdk.Tokenvm.Storage
import Hypersdk.Chain.Execute

/-!
# The token VM's actions

`examples/tokenvm/actions` and the fee payment of `examples/tokenvm/controller`. Each action
declares the keys it touches (`StateKeys`) and changes balances and assets through the storage
calls (`Execute`):

* `Transfer` moves `Value` of an asset from the actor to `To`, creating the recipient's balance;
* `CreateAsset` writes a new asset, owned by the actor, under the action's id;
* `MintAsset` raises an asset's supply and credits `To`, if the actor owns the asset;
* `BurnAsset` debits the actor and lowers the supply.

An action that returns an error may have changed the view already: `Transaction.Execute` rolls
it back. The sponsor pays the fee from its native balance (`deduct`).

`execute_runs` lemmas say what each action does when its checks pass, by the runs of the
storage calls it makes; they are how a transaction's run is traced.
-/

namespace Hypersdk.Tokenvm

open Tstate State Checked Codec Storage Chain

/-! ## Constants -/

/-- The action type ids. -/
def burnAssetID : UInt8 := 0

def createAssetID : UInt8 := 2

def mintAssetID : UInt8 := 7

def transferID : UInt8 := 8

/-- The compute units of the actions. -/
def burnComputeUnits : ℕ := 2

def createAssetComputeUnits : ℕ := 10

def mintAssetComputeUnits : ℕ := 2

def transferComputeUnits : ℕ := 1

/-- The size bounds of the actions' fields. -/
def maxSymbolSize : ℕ := 8

def maxMemoSize : ℕ := 256

def maxMetadataSize : ℕ := 256

def maxDecimals : ℕ := 9

/-- `state.Read | state.Write`. -/
def readWrite : Permissions := Permissions.read.union .write

/-! ## The actions -/

/-- `Transfer`. -/
structure Transfer where
  toAddress : Address
  asset : Bytes
  value : ℕ
  memo : Bytes

/-- `CreateAsset`. -/
structure CreateAsset where
  symbol : Bytes
  decimals : UInt8
  metadata : Bytes

/-- `MintAsset`. -/
structure MintAsset where
  toAddress : Address
  asset : Bytes
  value : ℕ

/-- `BurnAsset`. -/
structure BurnAsset where
  asset : Bytes
  value : ℕ

variable (ts : TState)

namespace Transfer

def stateKeys (t : Transfer) (actor : Address) : List (Bytes × Permissions) :=
  [(balanceKey actor t.asset, readWrite), (balanceKey t.toAddress t.asset, .all)]

def execute (t : Transfer) (actor : Address) : Exec (List Bytes) := do
  if t.value = 0 then throw .outputValueZero
  if t.memo.length > maxMemoSize then throw .outputMemoTooLarge
  subBalance ts actor t.asset t.value
  -- the recipient's balance is created if missing
  addBalance ts t.toAddress t.asset t.value true
  return []

end Transfer

namespace CreateAsset

def stateKeys (actionID : Bytes) : List (Bytes × Permissions) :=
  [(assetKey actionID, Permissions.allocate.union .write)]

def execute (c : CreateAsset) (actor actionID : Bytes) : Exec (List Bytes) := do
  if c.symbol.length = 0 then throw .outputSymbolEmpty
  if c.symbol.length > maxSymbolSize then throw .outputSymbolTooLarge
  if c.decimals.toNat > maxDecimals then throw .outputDecimalsTooLarge
  if c.metadata.length = 0 then throw .outputMetadataEmpty
  if c.metadata.length > maxMetadataSize then throw .outputMetadataTooLarge
  setAsset ts actionID ⟨c.symbol, c.decimals, c.metadata, 0, actor⟩
  return []

end CreateAsset

namespace MintAsset

def stateKeys (m : MintAsset) : List (Bytes × Permissions) :=
  [(assetKey m.asset, readWrite), (balanceKey m.toAddress m.asset, .all)]

def execute (m : MintAsset) (actor : Address) : Exec (List Bytes) := do
  if m.asset = emptyID then throw .outputAssetIsNative
  if m.value = 0 then throw .outputValueZero
  let some a ← getAsset ts m.asset | throw .outputAssetMissing
  if a.owner ≠ actor then throw .outputWrongOwner
  let some newSupply := add64 a.supply m.value | throw .overflow
  setAsset ts m.asset { a with supply := newSupply, owner := actor }
  addBalance ts m.toAddress m.asset m.value true
  return []

end MintAsset

namespace BurnAsset

def stateKeys (b : BurnAsset) (actor : Address) : List (Bytes × Permissions) :=
  [(assetKey b.asset, readWrite), (balanceKey actor b.asset, readWrite)]

def execute (b : BurnAsset) (actor : Address) : Exec (List Bytes) := do
  if b.value = 0 then throw .outputValueZero
  subBalance ts actor b.asset b.value
  let some a ← getAsset ts b.asset | throw .outputAssetMissing
  let some newSupply := sub a.supply b.value | throw .underflow
  setAsset ts b.asset { a with supply := newSupply }
  return []

end BurnAsset

/-- The token VM's actions (orders apart). -/
inductive TokenAction
  | burnAsset (b : BurnAsset)
  | createAsset (c : CreateAsset)
  | mintAsset (m : MintAsset)
  | transfer (t : Transfer)

namespace TokenAction

def getTypeID : TokenAction → UInt8
  | .burnAsset _ => burnAssetID
  | .createAsset _ => createAssetID
  | .mintAsset _ => mintAssetID
  | .transfer _ => transferID

def computeUnits : TokenAction → ℕ
  | .burnAsset _ => burnComputeUnits
  | .createAsset _ => createAssetComputeUnits
  | .mintAsset _ => mintAssetComputeUnits
  | .transfer _ => transferComputeUnits

def stateKeys (actor actionID : Bytes) : TokenAction → List (Bytes × Permissions)
  | .burnAsset b => b.stateKeys actor
  | .createAsset _ => CreateAsset.stateKeys actionID
  | .mintAsset m => m.stateKeys
  | .transfer t => t.stateKeys actor

def execute (actor actionID : Bytes) : TokenAction → Exec (List Bytes)
  | .burnAsset b => b.execute ts actor
  | .createAsset c => c.execute ts actor actionID
  | .mintAsset m => m.execute ts actor
  | .transfer t => t.execute ts actor

/-- The action as the chain sees it, for its actor and action id; every token action is always
valid (`ValidRange` is `-1, -1`). -/
def toAction (actor actionID : Bytes) (a : TokenAction) : Chain.Action :=
  ⟨a.getTypeID, (-1, -1), a.computeUnits, a.stateKeys actor actionID⟩

end TokenAction

/-! ## Paying fees -/

/-- `SponsorStateKeys`: the sponsor's native balance. -/
def sponsorStateKeys (addr : Address) : List (Bytes × Permissions) :=
  [(balanceKey addr emptyID, readWrite)]

/-- `Deduct`: the fee comes out of the sponsor's native balance. -/
def deduct (addr : Address) (amount : ℕ) : Exec Unit := subBalance ts addr emptyID amount

end Hypersdk.Tokenvm
