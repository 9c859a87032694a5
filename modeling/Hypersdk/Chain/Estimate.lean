import Hypersdk.Chain.Transaction

/-!
# The estimate of a transaction's units

`EstimateUnits` (`chain/transaction.go`) is meant to bound, before a transaction is signed, the
units it will be charged: the base and each action's size for bandwidth, the compute of the
actions and of the auth the factory will produce, and for each declared state key its key units
and its value units per chunk, the chunks taken from each action's `StateKeysMaxChunks` and the
rules' `GetSponsorStateKeysMaxChunks`.

The storage loop is `for maxChunks := range stateKeysMaxChunks`, whose single variable is the
index of each entry, not the entry: the `i`-th declared key is charged `i` chunks. So the estimate
reads only how many chunk counts are declared (`estimateUnits_eq_of_length`), and
`estimateUnits_below_units_of_create_contract` is a transaction creating a contract, whose
bytecode key may hold 2048 chunks, charged more read units than the estimate.
-/

namespace Hypersdk.Chain

open Fees State Math Checked Transaction

/-- `Action` with what the two further methods `EstimateUnits` calls answer: `Size`, the length
of its marshalled bytes, and `StateKeysMaxChunks`. -/
structure SizedAction extends Action where
  size : ℕ
  stateKeysMaxChunks : List ℕ

/-- `AuthFactory`, by what `MaxUnits` answers: the bandwidth and compute of the auth it signs. -/
structure AuthFactory where
  maxUnits : ℕ × ℕ

/-- `BaseSize`: two `uint64`s and an id. -/
def baseSize : ℕ := 8 * 2 + 32

/-- The storage charges of one declared key in `EstimateUnits`, for `maxChunks` chunks. -/
def estimateKey (r : Rules) (acc : Uint64Operator × Uint64Operator × Uint64Operator)
    (maxChunks : ℕ) : Uint64Operator × Uint64Operator × Uint64Operator :=
  ((acc.1.add r.storageKeyReadUnits).mulAdd maxChunks r.storageValueReadUnits,
    (acc.2.1.add r.storageKeyAllocateUnits).mulAdd maxChunks r.storageValueAllocateUnits,
    (acc.2.2.add r.storageKeyWriteUnits).mulAdd maxChunks r.storageValueWriteUnits)

/-- `EstimateUnits`, with `GetSponsorStateKeysMaxChunks` of the rules given as
`sponsorStateKeysMaxChunks`. Bandwidth is a wrapping `uint64` sum. The storage loop ranges over
the indices of the declared chunk counts, as `range` with one variable does in Go. -/
def estimateUnits (r : Rules) (sponsorStateKeysMaxChunks : List ℕ) (actions : List SizedAction)
    (authFactory : AuthFactory) : Except ChainError Dimensions := do
  let bandwidth := baseSize + 1 + (actions.map fun a => 1 + a.size).sum
  let computeOp := actions.foldl (fun (o : Uint64Operator) a => o.add a.computeUnits)
    (.new r.baseComputeUnits)
  let (authBandwidth, authCompute) := authFactory.maxUnits
  let bandwidth := (bandwidth + 1 + authBandwidth) % 2 ^ 64
  let stateKeysMaxChunks :=
    actions.flatMap (·.stateKeysMaxChunks) ++ sponsorStateKeysMaxChunks
  let compute ← valueOf (computeOp.add authCompute)
  let ops := (List.range stateKeysMaxChunks.length).foldl (estimateKey r)
    (.new 0, .new 0, .new 0)
  let reads ← valueOf ops.1
  let allocates ← valueOf ops.2.1
  let writes ← valueOf ops.2.2
  return ![bandwidth, compute, reads, allocates, writes]

/-- The estimate reads only the number of declared chunk counts, never the counts. -/
theorem estimateUnits_eq_of_length (r : Rules) {sponsor sponsor' : List ℕ}
    {actions actions' : List SizedAction} (authFactory : AuthFactory)
    (hactions : actions.map (fun a => (a.toAction, a.size)) =
      actions'.map fun a => (a.toAction, a.size))
    (hlen : (actions.flatMap (·.stateKeysMaxChunks) ++ sponsor).length =
      (actions'.flatMap (·.stateKeysMaxChunks) ++ sponsor').length) :
    estimateUnits r sponsor actions authFactory = estimateUnits r sponsor' actions' authFactory := by
  have hs : actions.map (·.size) = actions'.map (·.size) := by
    simpa [Function.comp_def] using congrArg (List.map fun p : Action × ℕ => p.2) hactions
  have hc : actions.map (·.computeUnits) = actions'.map (·.computeUnits) := by
    simpa [Function.comp_def] using
      congrArg (List.map fun p : Action × ℕ => p.1.computeUnits) hactions
  have hsize : (actions.map fun a => 1 + a.size) = actions'.map fun a => 1 + a.size := by
    simpa [Function.comp_def] using congrArg (List.map (1 + ·)) hs
  have hcompute : actions.foldl (fun (o : Uint64Operator) a => o.add a.computeUnits)
      (.new r.baseComputeUnits) =
      actions'.foldl (fun (o : Uint64Operator) a => o.add a.computeUnits)
        (.new r.baseComputeUnits) :=
    calc actions.foldl (fun (o : Uint64Operator) a => o.add a.computeUnits) _
        = (actions.map (·.computeUnits)).foldl (fun (o : Uint64Operator) n => o.add n)
            (.new r.baseComputeUnits) := List.foldl_map.symm
      _ = (actions'.map (·.computeUnits)).foldl (fun (o : Uint64Operator) n => o.add n)
            (.new r.baseComputeUnits) := by rw [hc]
      _ = actions'.foldl (fun (o : Uint64Operator) a => o.add a.computeUnits) _ :=
            List.foldl_map
  simp only [estimateUnits, hsize, hcompute, hlen]

/-- **The estimate falls short.** A typescriptvm `CreateContract` declares 2048 chunks for its
bytecode key and the rules declare 1 for the sponsor's balance; the estimate charges the two
keys 0 and 1 chunks, while `Units` charges them their 2048 and 1. -/
theorem estimateUnits_below_units_of_create_contract :
    let bytecodeKey : Bytes := Keys.encodeChunks [4] 2048
    let balanceKey : Bytes := Keys.encodeChunks [0] 1
    let action : SizedAction := ⟨⟨0, (-1, -1), 1, [(bytecodeKey, .all)]⟩, 10, [2048]⟩
    let authFactory : AuthFactory := ⟨(100, 1)⟩
    let r : Rules := ⟨[1], 60000, 16, 1, fun _ => 1000, fun _ => 2000, 1, 1, 1, 1, 1, 1, 1⟩
    let s : StateManager := ⟨fun _ => [(balanceKey, .write)], fun _ _ _ => .ok ()⟩
    let t : Transaction :=
      ⟨⟨1000, [1], 1⟩, [action.toAction], ⟨0, (-1, -1), 1, [0], [0]⟩, baseSize + 1 + 11 + 1 + 100⟩
    estimateUnits r [1] [action] authFactory = .ok ![161, 3, 3, 3, 3] ∧
      t.units s r = .ok ![161, 3, 2051, 2051, 2051] ∧ 3 < 2051 := by
  refine ⟨rfl, rfl, by decide⟩

end Hypersdk.Chain
