import Hypersdk.Tstate.Scope

/-!
# What a rollback restores

`Rollback(i)` undoes the operations past `i`, last first, each from what it recorded. Over
any calls after a restore point that do not roll back below it, rolling back to the point gives
back the view's changes, its chunk writes and its log as they were there (`Snapshot`,
`snapshot_run`): each undo restores the one key its operation touched (`undo_setEntry_mkOp`),
and the rest of a rollback reads only the changes, the writes and the log
(`rollback_congr`, `rollback_append_op`, `rollback_rollback`).

`allocates` is not restored. Undoing an `insertOp` leaves `allocates` alone, but the `Insert`
may have cleared it: an `Insert` that brings a key back to its parent's value forgets every
record of the key. `rollback_forgets_allocation`: after `Remove(k)` and `Insert(k, v₂)` on a
key the parent holds, an `Insert(k, parentValue)` and a rollback to the two operations before
it leave `allocates[k]` empty, where it held the key's chunks.
-/

namespace Hypersdk.Tstate

open Foundations Function State

namespace TStateView

/-! ## Rollbacks read only the changes, the writes and the log -/

theorem undo_with_ops (v : TStateView) (op : Op) (l : List Op) :
    undo { v with ops := l } op = { undo v op with ops := l } := by
  unfold undo restoreWrite
  rcases op with ⟨t, k, pastV, pastAllocates, _ | w⟩ <;> cases t <;>
    try cases pastAllocates
  all_goals rfl

theorem foldl_undo_with_ops (v : TStateView) (ops l : List Op) :
    ops.foldl undo { v with ops := l } = { ops.foldl undo v with ops := l } := by
  induction ops generalizing v with
  | nil => rfl
  | cons op ops ih => rw [List.foldl_cons, undo_with_ops, ih, List.foldl_cons]

theorem foldl_undo_pendingChangedKeys (v : TStateView) (ops : List Op) :
    (ops.foldl undo v).pendingChangedKeys =
      ops.foldl (fun p op => update p op.k (restoredChange op)) v.pendingChangedKeys := by
  induction ops generalizing v with
  | nil => rfl
  | cons op ops ih => rw [List.foldl_cons, ih, undo_pendingChangedKeys, List.foldl_cons]

theorem foldl_undo_writes (v : TStateView) (ops : List Op) :
    (ops.foldl undo v).writes = ops.foldl (fun w op => update w op.k op.pastWrites) v.writes := by
  induction ops generalizing v with
  | nil => rfl
  | cons op ops ih => rw [List.foldl_cons, ih, undo_writes, List.foldl_cons]

/-- Views that agree on their changes, their writes and their log agree on them after a
rollback. -/
theorem rollback_congr {u u' : TStateView} (hp : u.pendingChangedKeys = u'.pendingChangedKeys)
    (hw : u.writes = u'.writes) (ho : u.ops = u'.ops) (i : ℕ) :
    (u.rollback i).pendingChangedKeys = (u'.rollback i).pendingChangedKeys ∧
      (u.rollback i).writes = (u'.rollback i).writes := by
  simp only [rollback, foldl_undo_pendingChangedKeys, foldl_undo_writes, hp, hw, ho, and_self]

/-- A rollback to a point before the last operation starts by undoing it. -/
theorem rollback_append_op {u : TStateView} {l : List Op} {op : Op} (hu : u.ops = l ++ [op])
    {i : ℕ} (hi : i ≤ l.length) :
    u.rollback i = { u.undo op with ops := l }.rollback i := by
  have hdrop : u.ops.drop i = l.drop i ++ [op] := by rw [hu, List.drop_append_of_le_length hi]
  have htake : u.ops.take i = l.take i := by rw [hu, List.take_append_of_le_length hi]
  simp only [rollback, hdrop, htake, List.reverse_append, List.reverse_singleton,
    List.singleton_append, List.foldl_cons, foldl_undo_with_ops]

/-- A rollback to the op index or past it changes nothing. -/
theorem rollback_of_opIndex_le {v : TStateView} {i : ℕ} (h : v.opIndex ≤ i) : v.rollback i = v := by
  have hdrop : v.ops.drop i = [] := List.drop_eq_nil_of_le h
  simp only [rollback, hdrop, List.reverse_nil, List.foldl_nil, List.take_of_length_le h]

theorem undo_allocates_of_insertOp (v : TStateView) {op : Op} (h : op.t = .insertOp) :
    (v.undo op).allocates = v.allocates := by
  unfold undo restoreWrite
  rcases op with ⟨t, k, pastV, pastAllocates, _ | w⟩ <;> cases h <;> rfl

/-- Rolling back to `j` and then to `i ≤ j` is rolling back to `i`. -/
theorem rollback_rollback (v : TStateView) {i j : ℕ} (hij : i ≤ j) :
    (v.rollback j).rollback i = v.rollback i := by
  have hdrop : v.ops.drop j = (v.ops.drop i).drop (j - i) := by
    simp [List.drop_drop, Nat.add_sub_cancel' hij]
  have hsplit : v.ops.drop i = (v.ops.take j).drop i ++ v.ops.drop j := by
    rw [List.drop_take, hdrop, List.take_append_drop]
  simp only [rollback, foldl_undo_with_ops, hsplit, List.reverse_append, List.foldl_append,
    List.take_take, Nat.min_eq_left hij]

/-- Undoing the operation a call just recorded gives back the changes and the writes from
before the call. -/
theorem undo_setEntry_mkOp {ts : TState} {w : TStateView} (hw : Tracked w) {key past : Bytes}
    {t : OpType} {P : Option (Option Bytes)} {A W : Option ℕ}
    (ht : t = .createOp ∧ w.getValue? ts key = none ∨
      t ≠ .createOp ∧ w.getValue? ts key = some past) :
    ((w.setEntry key P A W (w.mkOp t key past)).undo (w.mkOp t key past)).pendingChangedKeys =
        w.pendingChangedKeys ∧
      ((w.setEntry key P A W (w.mkOp t key past)).undo (w.mkOp t key past)).writes =
        w.writes := by
  have hrestored : restoredChange (w.mkOp t key past) = w.pendingChangedKeys key := by
    unfold restoredChange mkOp
    cases hwk : w.writes key with
    | none => exact ((Option.not_isSome_iff_eq_none.mp (by simpa [hwk] using (hw key).not))).symm
    | some x =>
      obtain ⟨mv, hmv⟩ := Option.isSome_iff_exists.mp ((hw key).mp (by simp [hwk]))
      rw [hmv]
      rcases ht with ⟨rfl, hp⟩ | ⟨hne, hp⟩
      · rw [getValue?_eq_overlay, overlay_of_eq_some hmv] at hp
        simp [hp]
      · simp [hne, pendingChangedKeys_of_getValue? hp hmv]
  have hk : (w.mkOp t key past).k = key := rfl
  have hpast : (w.mkOp t key past).pastWrites = w.writes key := rfl
  constructor
  · rw [undo_pendingChangedKeys, setEntry_pendingChangedKeys, hk, update_idem, hrestored,
      update_eq_self]
  · rw [undo_writes, setEntry_writes, hk, hpast, update_idem, update_eq_self]

/-! ## Restore points -/

/-- A call that does not roll back below `i`. -/
def Call.Above (i : ℕ) : Call → Prop
  | .rollback j => i ≤ j
  | _ => True

/-- `w` was reached from the restore point `s` by calls that keep its log, and rolling `w` back
to `s` gives back the changes and the writes of `s`. -/
structure Snapshot (s w : TStateView) : Prop where
  tracked : Tracked w
  ops : s.ops <+: w.ops
  changes : (w.rollback s.opIndex).pendingChangedKeys = s.pendingChangedKeys
  writes : (w.rollback s.opIndex).writes = s.writes

theorem Snapshot.refl {s : TStateView} (hs : Tracked s) : Snapshot s s where
  tracked := hs
  ops := List.prefix_refl _
  changes := by simp [rollback, opIndex]
  writes := by simp [rollback, opIndex]

theorem Snapshot.step {ts : TState} {s w : TStateView} (h : Snapshot s w) {c : Call}
    (hc : Call.Above s.opIndex c) : Snapshot s (w.step ts c) := by
  have hlen : s.opIndex ≤ w.ops.length := h.ops.length_le
  unfold TStateView.step
  cases ha : w.apply ts c with
  | error => exact h
  | ok w' =>
    rcases apply_eq_ok ha with rfl | ⟨j, rfl, rfl⟩ | ⟨key, t, past, P, A, W, rfl, -, hPW, ht, -⟩
    · exact h
    · refine ⟨h.tracked.rollback j, ?_, ?_, ?_⟩
      · rw [rollback_ops]
        exact List.prefix_take_iff.mpr ⟨h.ops, hc⟩
      · rw [rollback_rollback w hc]
        exact h.changes
      · rw [rollback_rollback w hc]
        exact h.writes
    · have hback := @rollback_append_op (w.setEntry key P A W (w.mkOp t key past)) w.ops
        (w.mkOp t key past) rfl _ hlen
      have hundo := @undo_setEntry_mkOp ts w h.tracked key past t P A W
        (ht.imp (fun h => ⟨h.1, h.2.1⟩) id)
      have hagree := rollback_congr (u := { (w.setEntry key P A W (w.mkOp t key past)).undo
        (w.mkOp t key past) with ops := w.ops }) hundo.1 hundo.2 rfl s.opIndex
      refine ⟨h.tracked.setEntry hPW, h.ops.trans (List.prefix_append _ _), ?_, ?_⟩
      · rw [hback, hagree.1]
        exact h.changes
      · rw [hback, hagree.2]
        exact h.writes

/-- Calls after a restore point that do not roll back below it keep the snapshot. -/
theorem snapshot_run {ts : TState} {s : TStateView} (cs : List Call)
    (hcs : ∀ c ∈ cs, Call.Above s.opIndex c) :
    ∀ {w w'}, Snapshot s w → (viewSystem ts).run cs w = some w' → Snapshot s w' := by
  induction cs with
  | nil =>
    intro w w' hw hrun
    cases hrun
    exact hw
  | cons c cs ih =>
    intro w w' hw hrun
    exact ih (fun c' hc' => hcs c' (List.mem_cons_of_mem _ hc'))
      (hw.step (hcs c (List.mem_cons_self ..))) hrun

/-- **Rollback restores the changes and the writes.** From a view reached from a new view, run
any calls that do not roll back below its op index `i`; rolling back to `i` then gives back
its changes, its chunk writes and its log. -/
theorem rollback_restores_changes_and_writes {ts : TState} {scope : Keys}
    {storage : Bytes → Option Bytes} {s w : TStateView}
    (hs : (viewSystem ts).Reaches (newView scope storage) s) (cs : List Call)
    (hcs : ∀ c ∈ cs, Call.Above s.opIndex c) (hw : (viewSystem ts).run cs s = some w) :
    (w.rollback s.opIndex).pendingChangedKeys = s.pendingChangedKeys ∧
      (w.rollback s.opIndex).writes = s.writes ∧ (w.rollback s.opIndex).ops = s.ops := by
  have htracked := (tracked_stable ts).reaches hs (tracked_newView scope storage)
  have h := snapshot_run cs hcs (Snapshot.refl htracked) hw
  refine ⟨h.changes, h.writes, ?_⟩
  rw [rollback_ops]
  exact (List.prefix_iff_eq_take.mp h.ops).symm

/-! ## `allocates` is not restored -/

/-- **Rollback forgets an allocation.** On a key the parent holds with `p`: `Remove(k)`, then
`Insert(k, v₂)` re-creates it and records its chunks in `allocates`. `Insert(k, p)` brings it
back to the parent's value and forgets every record of it; `Rollback(2)` restores its change
and writes, but not its allocation. -/
theorem rollback_forgets_allocation (ts : TState) (scope : Keys) (storage : Bytes → Option Bytes)
    {k p v₂ : Bytes} (hw : (scope.get k).has .write = true)
    (ha : (scope.get k).has .allocate = true) (hv₂ : Keys.verifyValue k v₂ = true)
    (hvp : Keys.verifyValue k p = true) (hpar : overlay ts.changedKeys storage k = some p)
    (hne : v₂ ≠ p) :
    ∃ s, (viewSystem ts).run [.remove k, .insert k v₂] (newView scope storage) = some s ∧
      s.opIndex = 2 ∧ s.allocates k = some ((Keys.maxChunks k).getD 0) ∧
      ((s.step ts (.insert k p)).rollback 2).allocates k = none ∧
      ((s.step ts (.insert k p)).rollback 2).pendingChangedKeys = s.pendingChangedKeys ∧
      ((s.step ts (.insert k p)).rollback 2).writes = s.writes := by
  have hp0 : parentValue ts (newView scope storage) k = some p := by simpa using hpar
  -- `Remove(k)` marks the key deleted
  have h₁ := @remove_of_getValue?_eq_some ts (newView scope storage) k p hw
    (by simp [getValue?_eq_overlay, hpar])
  simp only [hp0, reduceCtorEq, newView_allocates, Option.isSome_none, Bool.false_eq_true,
    or_self, if_false] at h₁
  set v₁ := (newView scope storage).setEntry k _ _ _ _
  -- `Insert(k, v₂)` is a creation
  have h₂ := @insert_of_getValue?_eq_none ts v₁ k v₂ hw hv₂ (by simp [v₁, getValue?_eq_overlay]) ha
  have hne₂ : parentValue ts v₁ k ≠ some v₂ := by simp [v₁, hpar, Ne.symm hne]
  simp only [hne₂, if_false] at h₂
  set s := v₁.setEntry k _ _ _ _
  have hrun : (viewSystem ts).run [.remove k, .insert k v₂] (newView scope storage) = some s := by
    simp [System.run, viewSystem, step, apply, h₁, h₂]
  -- `Insert(k, p)` brings the key back to the parent's value
  have h₃ := @insert_of_getValue?_eq_some ts s k p v₂ hw hvp (by simp [s, getValue?_eq_overlay])
    hne
  have hp₃ : parentValue ts s k = some p := by simpa [s, v₁] using hpar
  simp only [hp₃, if_true] at h₃
  have hstep : s.step ts (.insert k p) = s.setEntry k none none none (s.mkOp .insertOp k v₂) := by
    simp [step, apply, h₃]
  have hsnap := @Snapshot.step ts s s (Snapshot.refl ((tracked_stable ts).reaches
    (System.reaches_of_run hrun) (tracked_newView scope storage))) (.insert k p) trivial
  have hops : s.opIndex = 2 := by simp [s, v₁, opIndex, newView]
  refine ⟨s, hrun, hops, by simp [s], ?_, hops ▸ hsnap.changes, hops ▸ hsnap.writes⟩
  have hback : (s.setEntry k none none none (s.mkOp .insertOp k v₂)).rollback 2 =
      { (s.setEntry k none none none (s.mkOp .insertOp k v₂)).undo (s.mkOp .insertOp k v₂) with
        ops := s.ops } := by
    rw [rollback_append_op rfl (by rw [← opIndex, hops]), rollback_of_opIndex_le]
    simp [opIndex, ← hops]
  rw [hstep, hback]
  show ((s.setEntry k none none none _).undo (s.mkOp .insertOp k v₂)).allocates k = none
  rw [undo_allocates_of_insertOp _ rfl, setEntry_allocates, update_self]

/-- The rollback on a one-chunk key `[0, 1]` whose stored value is `[1]`. -/
theorem rollback_forgets_allocation_at_one_chunk_key :
    ∃ s, (viewSystem TState.new).run [.remove [0, 1], .insert [0, 1] [2]]
        (newView ((∅ : Keys).insert [0, 1] .all) fun key => if key = [0, 1] then some [1] else none)
        = some s ∧
      s.opIndex = 2 ∧ s.allocates [0, 1] = some ((Keys.maxChunks [0, 1]).getD 0) ∧
      ((s.step TState.new (.insert [0, 1] [1])).rollback 2).allocates [0, 1] = none ∧
      ((s.step TState.new (.insert [0, 1] [1])).rollback 2).pendingChangedKeys =
        s.pendingChangedKeys ∧
      ((s.step TState.new (.insert [0, 1] [1])).rollback 2).writes = s.writes :=
  rollback_forgets_allocation _ _ _ (by decide) (by decide) (by decide) (by decide) (by decide)
    (by decide)

end TStateView

end Hypersdk.Tstate
