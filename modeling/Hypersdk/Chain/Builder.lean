import Hypersdk.Chain.Transaction
import Hypersdk.Tstate.View

/-!
# Building a block: the body of a build task

`BuildBlock` (`chain/builder.go`) streams transactions from the mempool and runs each in an
executor task. The task body fetches the transaction's keys, runs `PreExecute` and `Execute` on
a fresh view and then, under the block lock, charges the result's units to the block with
`Consume`: a transaction that fits is committed and appended to the block; one that does not is
marked for the mempool (`restore`), and if the dimension it overflowed is already at its target
the build stops.

`buildTask` is that body, for every outcome of the calls it makes before taking the lock
(`TaskOutcome`), and `consumeAll` is the check `StatelessBlock.Execute` (`chain/processor.go`)
makes when it verifies the built block: `Consume` of every transaction's units, in block order,
failing the block at the first that does not fit.

`buildTask_appends_unconsumed`: when `Consume` fails in a dimension still below its target, the
body marks the transaction for the mempool but does not return: it falls through to the commit
and the append. The block then holds a transaction whose units were never charged, the same
transaction is handed back to the mempool, and verification of the block fails at it.
-/

namespace Hypersdk.Chain

open Fees Tstate

/-- The errors a build task returns: a chain error, or `errBlockFull`. -/
inductive TaskError
  | chain (e : ChainError)
  | blockFull
  deriving DecidableEq, Repr

/-- `HandlePreExecute`: whether a transaction that failed `PreExecute` goes back to the
mempool. -/
def handlePreExecute : ChainError → Bool
  | .insufficientPrice => false
  | .timestampTooEarly => true
  | .timestampTooLate => false
  | .invalidBalance => false
  | .authNotActivated => false
  | .authFailed => false
  | .actionNotActivated => false
  | _ => false

/-- What a build task shares with the others: the block's changes, its transactions and
results, the transactions to restore to the mempool, the stop flag and the fee manager. -/
structure BuildState where
  ts : TState
  txs : List Transaction
  results : List Result
  restorable : List Transaction
  stop : Bool
  feeManager : Manager

/-- The outcome of what a task does before it takes the block lock: fetching the keys, then
`PreExecute`, then `Execute` (with the view it ran on). -/
inductive TaskOutcome
  | fetchFailed (e : ChainError)
  | preExecuteFailed (e : ChainError)
  | executeFailed (e : ChainError)
  | executed (result : Result) (tsv : TStateView)

/-- The deferred function of the task: a transaction marked `restore` goes to `restorable`. -/
def BuildState.restoreIf (s : BuildState) (restore : Bool) (tx : Transaction) : BuildState :=
  if restore then { s with restorable := s.restorable ++ [tx] } else s

/-- The body of a build task, given what happened before the block lock. -/
def buildTask (maxUnits targetUnits : Dimensions) (s : BuildState) (tx : Transaction) :
    TaskOutcome → BuildState × Option TaskError
  | .fetchFailed e => (s, some (.chain e))
  | .preExecuteFailed e => (s.restoreIf (handlePreExecute e) tx, none)
  | .executeFailed e => (s.restoreIf true tx, some (.chain e))
  | .executed result tsv =>
    let ((ok, dimension), feeManager) := s.feeManager.consume result.units maxUnits
    let s := { s with feeManager := feeManager }
    if !ok && decide (targetUnits dimension ≤ feeManager.lastConsumed dimension) then
      ({ s with stop := true }.restoreIf true tx, some .blockFull)
    else
      ({ s with
          ts := tsv.commit s.ts
          txs := s.txs ++ [tx]
          results := s.results ++ [result] }.restoreIf (!ok) tx, none)

/-- The `Consume` check of `StatelessBlock.Execute` over the units of a block's transactions,
in order. -/
def consumeAll (feeManager : Manager) (maxUnits : Dimensions) :
    List Dimensions → Except ChainError Manager
  | [] => .ok feeManager
  | units :: rest =>
    match feeManager.consume units maxUnits with
    | ((true, _), feeManager) => consumeAll feeManager maxUnits rest
    | ((false, _), _) => .error .invalidUnitsConsumed

theorem consumeAll_append {f f' : Manager} {maxUnits : Dimensions} {us : List Dimensions}
    (h : consumeAll f maxUnits us = .ok f') (rest : List Dimensions) :
    consumeAll f maxUnits (us ++ rest) = consumeAll f' maxUnits rest := by
  induction us generalizing f with
  | nil => simp_all [consumeAll]
  | cons u us ih =>
    simp only [consumeAll, List.cons_append] at h ⊢
    split at h
    · rename_i f₁ _
      exact ih h
    · cases h

/-- When `Consume` fails in a dimension below its target, the task commits and appends the
transaction and also marks it for the mempool. -/
theorem buildTask_of_consume_fails_below_target {maxUnits targetUnits : Dimensions}
    {s : BuildState} {tx : Transaction} {result : Result} {tsv : TStateView} {d : Dimension}
    (hc : s.feeManager.consume result.units maxUnits = ((false, d), s.feeManager))
    (hlow : s.feeManager.lastConsumed d < targetUnits d) :
    buildTask maxUnits targetUnits s tx (.executed result tsv) =
      ({ s with
          ts := tsv.commit s.ts
          txs := s.txs ++ [tx]
          results := s.results ++ [result]
          restorable := s.restorable ++ [tx] }, none) := by
  have hlow' : ¬ targetUnits d ≤ s.feeManager.lastConsumed d := by omega
  simp only [buildTask, hc, hlow', BuildState.restoreIf, Bool.not_false, decide_false,
    Bool.and_false, Bool.false_eq_true, if_false, if_true]

/-- **A transaction that overflows a dimension below its target is appended anyway.** When the
block's units so far are those of the transactions appended before (`hs`) and `Consume` fails
in a dimension whose consumption is below its target, the task returns no error, appends the
transaction to the block uncharged, also hands it back to the mempool, and the verifier's
`Consume` check of the block fails at it. -/
theorem buildTask_appends_unconsumed {maxUnits targetUnits : Dimensions} {s : BuildState}
    {tx : Transaction} {result : Result} {tsv : TStateView} {f₀ : Manager}
    {us : List Dimensions} {d : Dimension} (hs : consumeAll f₀ maxUnits us = .ok s.feeManager)
    (hd : s.feeManager.consumeCheck result.units maxUnits = some d)
    (hlow : s.feeManager.lastConsumed d < targetUnits d) :
    let out := buildTask maxUnits targetUnits s tx (.executed result tsv)
    out.2 = none ∧ out.1.txs = s.txs ++ [tx] ∧ out.1.restorable = s.restorable ++ [tx] ∧
      out.1.feeManager = s.feeManager ∧
      consumeAll f₀ maxUnits (us ++ [result.units]) = .error .invalidUnitsConsumed := by
  have hc := Manager.consume_of_consumeCheck_eq_some hd
  intro out
  have hout : out = _ := buildTask_of_consume_fails_below_target hc hlow
  rw [hout, consumeAll_append hs]
  exact ⟨rfl, rfl, rfl, rfl, by simp [consumeAll, hc]⟩

/-- The first transaction of a block, with 3000 compute units against a block limit of 2000
and a target of 1000. -/
theorem buildTask_appends_unconsumed_first_tx :
    let maxUnits : Dimensions := ![10000, 2000, 10000, 10000, 10000]
    let targetUnits : Dimensions := ![10000, 1000, 10000, 10000, 10000]
    let s : BuildState := ⟨TState.new, [], [], [], false, Manager.empty⟩
    let tx : Transaction :=
      ⟨⟨1000, [1], 1⟩, [⟨0, (-1, -1), 3000, []⟩], ⟨0, (-1, -1), 0, [0], [0]⟩, 100⟩
    let result : Result := ⟨true, [], [[]], ![100, 3000, 0, 0, 0], 0⟩
    let out := buildTask maxUnits targetUnits s tx
      (.executed result (TStateView.newView ∅ fun _ => none))
    out.2 = none ∧ out.1.txs = s.txs ++ [tx] ∧ out.1.restorable = s.restorable ++ [tx] ∧
      out.1.feeManager = s.feeManager ∧
      consumeAll Manager.empty maxUnits ([] ++ [result.units]) = .error .invalidUnitsConsumed :=
  buildTask_appends_unconsumed (d := 1) rfl (by decide) (by decide)

end Hypersdk.Chain
