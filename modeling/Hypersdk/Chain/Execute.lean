import Hypersdk.Chain.Transaction
import Hypersdk.Tstate.Mutable

/-!
# Executing a transaction

`Transaction.Execute` (`chain/transaction.go`): charge the fee to the sponsor through the
VM's `Deduct`, then run the actions one after another on the transaction's view. An action that
fails, or returns more outputs than the rules allow, rolls the view back to where the actions
started, so that the fee stays charged and no action's change survives; the result then records
the error's text and the outputs of the actions before it.

Actions are VM code: each is given here by what its `Execute` does on the view (`Mutable`), with
the actor and action id it is called with already applied.
-/

namespace Hypersdk.Chain

open Tstate Fees

variable {ε : Type}

/-- The action loop of `Transaction.Execute`, from the view's op index `actionStart`. -/
def executeActions (maxOutputsPerAction actionStart : ℕ) (errBytes : ε ⊕ ChainError → Bytes)
    (units : Dimensions) (fee : ℕ) :
    List (Mutable ε (List Bytes)) → List (List Bytes) → TStateView → Option (Result × TStateView)
  | [], resultOutputs, v => some (⟨true, [], resultOutputs, units, fee⟩, v)
  | action :: rest, resultOutputs, v =>
    match action.runOn v with
    | none => none
    | some (.error e, v) =>
      some (⟨false, errBytes (.inl e), resultOutputs, units, fee⟩, v.rollback actionStart)
    | some (.ok outputs, v) =>
      if outputs.length > maxOutputsPerAction then
        some (⟨false, errBytes (.inr .tooManyOutputs), resultOutputs, units, fee⟩,
          v.rollback actionStart)
      else executeActions maxOutputsPerAction actionStart errBytes units fee rest
        (resultOutputs ++ [outputs]) v

/-- `Transaction.Execute`, with the VM's actions and its `Deduct`: an error return before the
actions (the units, the fee, the deduction), or the result and the view after it. -/
def Transaction.execute (t : Transaction) (actions : List (Mutable ε (List Bytes)))
    (feeManager : Manager) (s : StateManager) (deduct : Address → ℕ → Mutable ε Unit)
    (r : Rules) (errBytes : ε ⊕ ChainError → Bytes) (v : TStateView) :
    Option (Except (ε ⊕ ChainError) Result × TStateView) :=
  match t.units s r with
  | .error e => some (.error (.inr e), v)
  | .ok units =>
    match feeManager.fee units with
    | none => some (.error (.inr .overflow), v)
    | some fee =>
      match (deduct t.auth.sponsor fee).runOn v with
      | none => none
      | some (.error e, v) => some (.error (.inl e), v)
      | some (.ok (), v) =>
        (executeActions r.maxOutputsPerAction v.opIndex errBytes units fee actions [] v).map
          fun (result, v) => (.ok result, v)

end Hypersdk.Chain
