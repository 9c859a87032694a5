import Hypersdk.Tokenvm.Actions

/-!
# Conservation of assets in the token VM

The token VM means every unit of an asset to be held by someone: an asset's stored supply is
the sum of the balances of it (and of what open orders hold). `balanceIn` and `supplyIn` read
both from a state as `GetBalance` and `GetAsset` read them.

**The supply is not conserved.** A transaction whose actor sends its whole balance of an asset
away, is paid some of it back by a mint, and sends that on, ends with the actor's first balance
in place again: the second `Remove` of the actor's balance key finds the key allocated by the
mint's `AddBalance` and forgets every record of it, the deletion by the first transfer
included (`TStateView.remove`, and `remove_insert_remove_reads_parent` for the view alone).
`transfer_mint_transfer_keeps_sender_balance` is such a transaction, run by
`Transaction.Execute` from a state in which the asset is conserved and committed: the balances
then hold 25 units of an asset whose supply is 15.
-/

namespace Hypersdk.Tokenvm

open Tstate State Codec Storage Chain Fees Foundations

/-- The balance `GetBalance` reads from a state: zero where there is no key, `none` where it
panics. -/
def balanceIn (st : Bytes → Option Bytes) (addr asset : Bytes) : Option ℕ :=
  match st (balanceKey addr asset) with
  | none => some 0
  | some b => BigEndian.uint64 b

/-- The supply of an asset in a state, as `GetAsset` reads it. -/
def supplyIn (st : Bytes → Option Bytes) (asset : Bytes) : Option ℕ :=
  ((st (assetKey asset)).bind decodeAsset).map (·.supply)

/-! ## A transaction that mints units out of nothing -/

/-- Two addresses (an ED25519 type byte and 32 bytes) and an asset id. -/
def sender : Address := 0 :: List.replicate 32 1

def receiver : Address := 0 :: List.replicate 32 2

def token : Bytes := List.replicate 32 7

/-- The stored state: `sender` holds 10 of `token`, the whole supply, which it owns, and
a million of the native asset. -/
def genesisState (k : Bytes) : Option Bytes :=
  if k = balanceKey sender emptyID then some (BigEndian.ofNat 8 1000000)
  else if k = balanceKey sender token then some (BigEndian.ofNat 8 10)
  else if k = assetKey token then some (encodeAsset ⟨[84], 0, [84], 10, sender⟩)
  else none

/-- Send all 10 to `receiver`, mint 5 back to `sender`, send those 5 on. -/
def transferMintTransfer : List TokenAction :=
  [.transfer ⟨receiver, token, 10, []⟩, .mintAsset ⟨sender, token, 5⟩,
    .transfer ⟨receiver, token, 5, []⟩]

/-- The transaction, signed by `sender` with an ED25519 key (5 compute units), 376 bytes
long: the base, the action count, the three actions with their type bytes, and the auth. The
action ids are the transaction's; no action here reads them. -/
def transferMintTransferTx : Transaction :=
  ⟨⟨1000, List.replicate 32 1, 1000000⟩,
    transferMintTransfer.map (TokenAction.toAction sender (List.replicate 32 0)),
    ⟨0, (-1, -1), 5, sender, sender⟩, 376⟩

/-- The token VM's genesis rules. -/
def genesisRules : Chain.Rules :=
  ⟨List.replicate 32 1, 60000, 16, 1, ![20000000, 1000, 1000, 1000, 1000],
    ![1800000, 2000, 2000, 2000, 2000], 1, 5, 2, 20, 5, 10, 3⟩

/-- Fees at the genesis minimum price, 100 in every dimension. -/
def minPriceFees : Manager :=
  ((((Manager.empty.setUnitPrice 0 100).setUnitPrice 1 100).setUnitPrice 2 100).setUnitPrice 3
    100).setUnitPrice 4 100

/-- The state a block holds after committing a view over the genesis state. -/
def committedState (v : TStateView) : Bytes → Option Bytes :=
  overlay (v.commit TState.new).changedKeys genesisState

set_option maxRecDepth 8000 in
/-- **The transaction succeeds and breaks conservation.** Before it, `sender`'s 10 units are
the whole supply; after it, `sender` still holds 10 and `receiver` 15, of a supply of 15. It
pays its fee of 60600. Neither `CanDeduct` (not called by `Execute`) nor the rendering of
errors (none is raised) matters. -/
theorem transfer_mint_transfer_keeps_sender_balance
    (canDeduct : Address → (Bytes → Option Bytes) → ℕ → Except ChainError Unit)
    (errBytes : TokenError ⊕ ChainError → Bytes) :
    ∃ scope result v,
      transferMintTransferTx.stateKeys ⟨sponsorStateKeys, canDeduct⟩ = .ok scope ∧
      transferMintTransferTx.execute
          (transferMintTransfer.map (TokenAction.execute TState.new sender (List.replicate 32 0)))
          minPriceFees ⟨sponsorStateKeys, canDeduct⟩ (deduct TState.new) genesisRules errBytes
          (TStateView.newView scope genesisState) = some (.ok result, v) ∧
      result.success = true ∧ result.fee = 60600 ∧
      balanceIn genesisState sender token = some 10 ∧
      balanceIn genesisState receiver token = some 0 ∧ supplyIn genesisState token = some 10 ∧
      balanceIn (committedState v) sender token = some 10 ∧
      balanceIn (committedState v) receiver token = some 15 ∧
      supplyIn (committedState v) token = some 15 := by
  refine ⟨_, _, _, rfl, rfl, rfl, rfl, rfl, rfl, rfl, rfl, rfl, rfl⟩

end Hypersdk.Tokenvm
