import Hypersdk.Tstate.Rollback
import Hypersdk.Foundations.Serial

/-!
# Code that reaches the state only through its view

A transaction's code sees the block's state only through the view `StatelessBlock.Execute`
gives it: `GetValue`, `Insert` and `Remove` (as `state.Mutable`), and `OpIndex` and `Rollback`,
which `Transaction.Execute` calls itself. `ViewProg` is such code as a tree: a call, then the
code that goes on with what the call returned. `run` runs it on a view over the parent `ts`.

Run on a new view, it commits a layer of changes (`commitOf`), a body in the sense of
`Foundations.Serial`:

* what it commits depends only on the block's changes at the keys of its scope
  (`commitOf_readsOnly`): each call reads the parent only at a key it has checked against the
  scope (`getValue_congr`, `insert_congr`, `remove_congr`);
* it changes only keys it may write (`commitOf_writesOnly`): a run is a run of the view's calls
  (`run_reaches`), so the scope invariant holds at its end.
-/

namespace Hypersdk.Tstate

open Foundations Function State

/-- Code that reaches the state only through its view. -/
inductive ViewProg (ε : Type) where
  /-- The code returns: `nil`, or an error. -/
  | done (r : Except ε Unit)
  | getValue (key : Bytes) (k : Except Error Bytes → ViewProg ε)
  | insert (key value : Bytes) (k : Except Error Unit → ViewProg ε)
  | remove (key : Bytes) (k : Except Error Unit → ViewProg ε)
  | opIndex (k : ℕ → ViewProg ε)
  | rollback (restorePoint : ℕ) (k : ViewProg ε)

namespace ViewProg

variable {ε : Type}

/-- Run the code on the view `v` over the parent `ts`: the view it returns with, or its error. -/
def run (ts : TState) : ViewProg ε → TStateView → Except ε TStateView
  | done r, v => r.map fun _ => v
  | getValue key k, v => (k (v.getValue ts key)).run ts v
  | insert key value k, v =>
    match v.insert ts key value with
    | .ok v' => (k (.ok ())).run ts v'
    | .error e => (k (.error e)).run ts v
  | remove key k, v =>
    match v.remove ts key with
    | .ok v' => (k (.ok ())).run ts v'
    | .error e => (k (.error e)).run ts v
  | opIndex k, v => (k v.opIndex).run ts v
  | rollback i k, v => k.run ts (v.rollback i)

end ViewProg

namespace TStateView

variable {ts ts' : TState} {v v' : TStateView}

/-! ## Calls read the parent only inside the scope -/

/-- A key that passes a scope check for some permission bit is in the scope. -/
theorem mem_scope_of_checkScope {k : Bytes} {perm : Permissions} (h : v.checkScope k perm = true)
    (hp : Permissions.none.has perm = false) : (v.scope.lookup k).isSome := by
  unfold checkScope Keys.get at h
  cases hl : v.scope.lookup k with
  | none => rw [hl] at h; simp [hp] at h
  | some q => rfl

theorem getValue?_congr_parent {key : Bytes} (hk : ts.changedKeys key = ts'.changedKeys key) :
    v.getValue? ts key = v.getValue? ts' key := by
  simp only [getValue?, TState.getChangedValue, hk]

theorem isUnchanged_congr_parent {key : Bytes} (hk : ts.changedKeys key = ts'.changedKeys key)
    (w : TStateView) (x : Bytes) (b : Bool) :
    w.isUnchanged ts key x b = w.isUnchanged ts' key x b := by
  simp only [isUnchanged, TState.getChangedValue, hk]

theorem getValue_congr
    (hag : ∀ k, (v.scope.lookup k).isSome → ts.changedKeys k = ts'.changedKeys k)
    (key : Bytes) : v.getValue ts key = v.getValue ts' key := by
  by_cases hs : v.checkScope key .read = true
  · have hk := hag key (mem_scope_of_checkScope hs (by decide))
    simp only [getValue, getValue?_congr_parent hk]
  · simp [getValue, hs]

theorem insert_congr
    (hag : ∀ k, (v.scope.lookup k).isSome → ts.changedKeys k = ts'.changedKeys k)
    (key value : Bytes) : v.insert ts key value = v.insert ts' key value := by
  by_cases hs : v.checkScope key .write = true
  · have hk := hag key (mem_scope_of_checkScope hs (by decide))
    simp only [insert, finishInsert, getValue?_congr_parent hk, isUnchanged_congr_parent hk]
  · simp [insert, hs]

theorem remove_congr
    (hag : ∀ k, (v.scope.lookup k).isSome → ts.changedKeys k = ts'.changedKeys k)
    (key : Bytes) : v.remove ts key = v.remove ts' key := by
  by_cases hs : v.checkScope key .write = true
  · have hk := hag key (mem_scope_of_checkScope hs (by decide))
    simp only [remove, getValue?_congr_parent hk, isUnchanged_congr_parent hk]
  · simp [remove, hs]

theorem scope_of_apply {c : Call} (h : v.apply ts c = .ok v') : v'.scope = v.scope := by
  rcases apply_eq_ok h with rfl | ⟨i, -, rfl⟩ | ⟨key, t, past, P, A, W, rfl, -⟩
  · rfl
  · exact rollback_scope v i
  · rfl

end TStateView

namespace ViewProg

open TStateView

variable {ε : Type} {ts ts' : TState}

/-- **Code reads the parent only inside its scope.** On parents that agree at the keys of the
view's scope, it runs the same; by induction on the code, one congruence per call. -/
theorem run_congr : ∀ (p : ViewProg ε) (v : TStateView),
    (∀ k, (v.scope.lookup k).isSome → ts.changedKeys k = ts'.changedKeys k) →
    p.run ts v = p.run ts' v
  | done r, v, _ => rfl
  | getValue key k, v, hag => by
    simp only [run]
    rw [getValue_congr hag]
    exact run_congr (k _) v hag
  | insert key value k, v, hag => by
    simp only [run]
    rw [insert_congr hag]
    cases hi : v.insert ts' key value with
    | ok v' =>
      have hs : v'.scope = v.scope := scope_of_apply (c := .insert key value) hi
      exact run_congr (k _) v' (hs ▸ hag)
    | error e => exact run_congr (k _) v hag
  | remove key k, v, hag => by
    simp only [run]
    rw [remove_congr hag]
    cases hi : v.remove ts' key with
    | ok v' =>
      have hs : v'.scope = v.scope := scope_of_apply (c := .remove key) hi
      exact run_congr (k _) v' (hs ▸ hag)
    | error e => exact run_congr (k _) v hag
  | opIndex k, v, hag => run_congr (k _) v hag
  | rollback i k, v, hag => run_congr k (v.rollback i) ((rollback_scope v i).symm ▸ hag)

/-- A call the view accepts is a step of the view's calls. -/
theorem reaches_of_apply {v v' : TStateView} {c : Call} (h : v.apply ts c = .ok v') :
    (viewSystem ts).Reaches v v' :=
  (System.Reaches.refl v).tail (l := c) (by simp [viewSystem, step, h])

/-- **A run is a run of the view's calls.** -/
theorem run_reaches : ∀ (p : ViewProg ε) (v w : TStateView), p.run ts v = .ok w →
    (viewSystem ts).Reaches v w
  | done r, v, w, h => by
    cases r with
    | error e => cases h
    | ok u =>
      cases h
      exact System.Reaches.refl v
  | getValue key k, v, w, h => run_reaches (k _) v w h
  | insert key value k, v, w, h => by
    simp only [run] at h
    split at h
    · rename_i v' hi
      exact (reaches_of_apply (c := .insert key value) hi).trans (run_reaches (k _) v' w h)
    · exact run_reaches (k _) v w h
  | remove key k, v, w, h => by
    simp only [run] at h
    split at h
    · rename_i v' hi
      exact (reaches_of_apply (c := .remove key) hi).trans (run_reaches (k _) v' w h)
    · exact run_reaches (k _) v w h
  | opIndex k, v, w, h => run_reaches (k _) v w h
  | rollback i k, v, w, h =>
    (reaches_of_apply (c := .rollback i) rfl).trans (run_reaches k (v.rollback i) w h)

/-- The calls keep the scope. -/
theorem scope_of_reaches {v w : TStateView} (h : (viewSystem ts).Reaches v w) :
    w.scope = v.scope := by
  induction h with
  | refl => rfl
  | tail _ hst ih =>
    obtain ⟨c, hc⟩ := hst
    cases hc
    exact (step_scope ts _ c).1.trans ih

/-- What code commits, run on a new view over the block's changes `σ` with the declared keys
`scope` and the values `storage` fetched for them: the view's changes, or the code's error. -/
def commitOf (scope : Keys) (storage : Bytes → Option Bytes) (p : ViewProg ε)
    (σ : Bytes → Option (Option Bytes)) : Except ε (Bytes → Option (Option Bytes)) :=
  (p.run ⟨σ, 0⟩ (newView scope storage)).map (·.pendingChangedKeys)

variable (scope : Keys) (storage : Bytes → Option Bytes) (p : ViewProg ε)

theorem commitOf_readsOnly :
    ReadsOnly (commitOf scope storage p) {k | (scope.lookup k).isSome} := by
  intro σ τ h
  unfold commitOf
  rw [@run_congr ε ⟨σ, 0⟩ ⟨τ, 0⟩ p (newView scope storage) fun k hk => h k hk]

/-- A key the view may write is declared with more than `state.Read`. -/
theorem ne_read_of_checkScope {w : TStateView} {k : Bytes} (h : w.checkScope k .write = true) :
    ∃ q, w.scope.lookup k = some q ∧ q ≠ Permissions.read := by
  obtain ⟨q, hq⟩ := Option.isSome_iff_exists.mp (mem_scope_of_checkScope h (by decide))
  refine ⟨q, hq, ?_⟩
  rintro rfl
  simp [checkScope, Keys.get, hq] at h
  exact absurd h (by decide)

theorem commitOf_writesOnly : WritesOnly (commitOf scope storage p)
    {k | ∃ q, scope.lookup k = some q ∧ q ≠ Permissions.read} := by
  intro σ δ h k hk
  unfold commitOf at h
  cases hw : p.run ⟨σ, 0⟩ (newView scope storage) with
  | error e => rw [hw] at h; cases h
  | ok w =>
    rw [hw] at h
    cases h
    -- the view the code returns with keeps the scope invariant
    have hr := run_reaches p _ w hw
    have hinv := (scopeInv_stable ⟨σ, 0⟩).reaches hr (scopeInv_newView scope storage)
    obtain ⟨q, hq, hne⟩ := ne_read_of_checkScope (hinv.write k hk)
    rw [scope_of_reaches hr] at hq
    exact ⟨q, hq, hne⟩

end ViewProg

end Hypersdk.Tstate
