import Hypersdk.Tstate.View

/-!
# Runs of a view against the reference journal

The calls a transaction makes on its view (`Insert`, `Remove`, `Rollback`), a run of them that
stops at the first error, and the reference semantics the view is meant to implement: a
journaled map started from the parent (`Foundations.Journal`), where `Insert` sets a key,
`Remove` deletes it and `Rollback i` returns to the map recorded at depth `i`
(`state.SimpleMutable` answers the same for `Insert` and `Remove`).

`remove_insert_remove_reads_parent`: the view departs from the reference on a key the parent
holds that is removed, created again and removed again. The second `Remove` finds the key in
`allocates` (the creation put it there) and forgets every record of it, as if the creation were
all that had happened to it; the deletion before the creation is forgotten with it, and the
parent's value reads through again.
-/

namespace Hypersdk.Tstate

open Foundations Function State

/-- A call a transaction makes on its view. -/
inductive Call
  | insert (key value : Bytes)
  | remove (key : Bytes)
  | rollback (restorePoint : ℕ)

namespace TStateView

/-- One call; `Rollback` cannot fail. -/
def apply (ts : TState) (v : TStateView) : Call → Except Error TStateView
  | .insert k x => v.insert ts k x
  | .remove k => v.remove ts k
  | .rollback i => .ok (v.rollback i)

/-- A sequence of calls, stopping at the first error. -/
def run (ts : TState) (v : TStateView) : List Call → Except Error TStateView
  | [] => .ok v
  | c :: cs =>
    match v.apply ts c with
    | .ok v' => v'.run ts cs
    | .error e => .error e

end TStateView

/-- The reference semantics of a call. -/
def Call.applyRef (j : Journal Bytes Bytes) : Call → Journal Bytes Bytes
  | .insert k x => j.set k x
  | .remove k => j.erase k
  | .rollback i => j.rollback i

/-- The reference semantics of a sequence of calls. -/
def runRef (j : Journal Bytes Bytes) (cs : List Call) : Journal Bytes Bytes := cs.foldl Call.applyRef j

open TStateView

/-- **Deleting a re-created key reverts it to the parent.** Remove a key the parent holds,
create it again with another value and remove it again: all three calls succeed and the
reference map lacks the key, but the view reads the parent's value. -/
theorem remove_insert_remove_reads_parent (ts : TState) (scope : Keys)
    (storage : Bytes → Option Bytes) {k v₀ v₂ : Bytes} (hw : (scope.get k).has .write = true)
    (ha : (scope.get k).has .allocate = true) (hv : Keys.verifyValue k v₂ = true)
    (hpar : overlay ts.changedKeys storage k = some v₀) (hne : v₂ ≠ v₀) :
    (runRef (.init (overlay ts.changedKeys storage)) [.remove k, .insert k v₂, .remove k]).current k
      = none ∧
    ∃ v, (newView scope storage).run ts [.remove k, .insert k v₂, .remove k] = .ok v ∧
      v.getValue ts k = .ok v₀ := by
  refine ⟨by simp [runRef, Call.applyRef], ?_⟩
  have hp0 : parentValue ts (newView scope storage) k ≠ none := by simp [hpar]
  -- the first `Remove` marks the key deleted
  have h₁ := @remove_of_getValue?_eq_some ts (newView scope storage) k v₀ hw
    (by simp [getValue?_eq_overlay, hpar])
  simp only [hp0, newView_allocates, Option.isSome_none, Bool.false_eq_true, or_self,
    if_false] at h₁
  set v₁ := (newView scope storage).setEntry k _ _ _ _
  have hp₁ : v₁.getValue? ts k = none := by simp [v₁, getValue?_eq_overlay]
  -- re-inserting it is a creation, since the parent holds another value
  have h₂ := @insert_of_getValue?_eq_none ts v₁ k v₂ hw hv hp₁ ha
  have hne' : parentValue ts v₁ k ≠ some v₂ := by simp [v₁, hpar, Ne.symm hne]
  simp only [hne', if_false] at h₂
  set v₂' := v₁.setEntry k _ _ _ _
  have hp₂ : v₂'.getValue? ts k = some v₂ := by simp [v₂', getValue?_eq_overlay]
  -- so removing it again forgets it, and the parent's value shows through
  have h₃ := @remove_of_getValue?_eq_some ts v₂' k v₂ hw hp₂
  have ha₂ : (v₂'.allocates k).isSome = true := by simp [v₂']
  simp only [ha₂, or_true, if_true] at h₃
  refine ⟨v₂'.setEntry k none none none (v₂'.mkOp .removeOp k v₂),
    by simp [run, apply, h₁, h₂, h₃], ?_⟩
  simp [getValue, checkScope, v₂', v₁, Permissions.has_read_of_has_write hw,
    getValue?_eq_overlay, hpar]

/-- The divergence on a one-chunk key `[0, 1]` whose stored value `[1]` is replaced by `[2]`. -/
theorem remove_insert_remove_at_one_chunk_key :
    (runRef (.init (overlay TState.new.changedKeys
        (fun key => if key = [0, 1] then some [1] else none)))
      [.remove [0, 1], .insert [0, 1] [2], .remove [0, 1]]).current [0, 1] = none ∧
    ∃ v, (newView ((∅ : Keys).insert [0, 1] .all)
        (fun key => if key = [0, 1] then some [1] else none)).run TState.new
        [.remove [0, 1], .insert [0, 1] [2], .remove [0, 1]] = .ok v ∧
      v.getValue TState.new [0, 1] = .ok [1] :=
  remove_insert_remove_reads_parent _ _ _ (by decide) (by decide) (by decide) (by decide)
    (by decide)

end Hypersdk.Tstate
