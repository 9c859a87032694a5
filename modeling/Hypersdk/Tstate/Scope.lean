import Hypersdk.Tstate.Journal
import Hypersdk.Foundations.System

/-!
# A view keeps to its scope

The calls on a view over a fixed parent form a transition system (`viewSystem`). A call that
fails returns before it changes anything, as the Go methods do, so the caller keeps the view it
had. Over every run from a new view (`view_respects_scope`):

* every key the view has changed is in scope with `write`;
* every value it holds for a key fits the key's chunk budget;
* every value it holds for a key the parent lacks is in scope with `allocate`.

A successful call does one of three things (`apply_eq_ok`): nothing, a rollback, or one recorded
operation that sets the three entries of one key. Undoing an operation sets that key's `writes`
entry to what the operation overwrote, and its change to a value the operation read
(`undo_writes`, `undo_pendingChangedKeys`); the log records, for each operation, the facts that
make the restored change respect the scope again (`ScopeInv.log`). A view changes a key exactly
when it records chunks written for it (`Tracked`), and every step keeps that.
-/

namespace Hypersdk.Tstate

open Foundations Function State

namespace TStateView

/-- One call as its Go caller sees it: a failing call leaves the view as it was. -/
def step (ts : TState) (v : TStateView) (c : Call) : TStateView :=
  match v.apply ts c with
  | .ok v' => v'
  | .error _ => v

/-- The calls on views over the parent `ts`. -/
def viewSystem (ts : TState) : System TStateView Call := ⟨fun c v => some (v.step ts c)⟩

/-! ## What a call does -/

/-- The change `undo` restores for the key of `op`: deleted again for a creation over a deleted
key, the value read before the operation otherwise, nothing if the view had not written it. -/
def restoredChange (op : Op) : Option (Option Bytes) :=
  op.pastWrites.map fun _ => if op.t = .createOp then none else some op.pastV

@[simp] theorem undo_writes (v : TStateView) (op : Op) :
    (v.undo op).writes = update v.writes op.k op.pastWrites := by
  unfold undo restoreWrite
  rcases op with ⟨t, k, pastV, pastAllocates, _ | w⟩ <;> cases t <;>
    try cases pastAllocates
  all_goals rfl

@[simp] theorem undo_pendingChangedKeys (v : TStateView) (op : Op) :
    (v.undo op).pendingChangedKeys = update v.pendingChangedKeys op.k (restoredChange op) := by
  unfold undo restoreWrite restoredChange
  rcases op with ⟨t, k, pastV, pastAllocates, _ | w⟩ <;> cases t <;>
    try cases pastAllocates
  all_goals rfl

@[simp] theorem undo_ops (v : TStateView) (op : Op) : (v.undo op).ops = v.ops := by
  unfold undo restoreWrite
  rcases op with ⟨t, k, pastV, pastAllocates, _ | w⟩ <;> cases t <;>
    try cases pastAllocates
  all_goals rfl

@[simp] theorem undo_scope (v : TStateView) (op : Op) : (v.undo op).scope = v.scope := by
  unfold undo restoreWrite
  rcases op with ⟨t, k, pastV, pastAllocates, _ | w⟩ <;> cases t <;>
    try cases pastAllocates
  all_goals rfl

@[simp] theorem undo_scopeStorage (v : TStateView) (op : Op) :
    (v.undo op).scopeStorage = v.scopeStorage := by
  unfold undo restoreWrite
  rcases op with ⟨t, k, pastV, pastAllocates, _ | w⟩ <;> cases t <;>
    try cases pastAllocates
  all_goals rfl

theorem foldl_undo_ops (v : TStateView) (ops : List Op) :
    (ops.foldl TStateView.undo v).ops = v.ops := by
  induction ops generalizing v with
  | nil => rfl
  | cons op ops ih => rw [List.foldl_cons, ih, undo_ops]

theorem foldl_undo_scope (v : TStateView) (ops : List Op) :
    (ops.foldl TStateView.undo v).scope = v.scope := by
  induction ops generalizing v with
  | nil => rfl
  | cons op ops ih => rw [List.foldl_cons, ih, undo_scope]

theorem foldl_undo_scopeStorage (v : TStateView) (ops : List Op) :
    (ops.foldl TStateView.undo v).scopeStorage = v.scopeStorage := by
  induction ops generalizing v with
  | nil => rfl
  | cons op ops ih => rw [List.foldl_cons, ih, undo_scopeStorage]

@[simp] theorem rollback_ops (v : TStateView) (i : ℕ) : (v.rollback i).ops = v.ops.take i := rfl

@[simp] theorem rollback_scope (v : TStateView) (i : ℕ) : (v.rollback i).scope = v.scope :=
  foldl_undo_scope v _

@[simp] theorem rollback_scopeStorage (v : TStateView) (i : ℕ) :
    (v.rollback i).scopeStorage = v.scopeStorage :=
  foldl_undo_scopeStorage v _

/-- **`Insert` succeeded**: it changed nothing, or recorded one operation on `key`. -/
theorem insert_eq_ok {ts : TState} {v v' : TStateView} {key value : Bytes}
    (h : v.insert ts key value = .ok v') :
    v' = v ∨ ∃ t past P A W, v' = v.setEntry key P A W (v.mkOp t key past) ∧
      v.checkScope key .write = true ∧ (W.isSome ↔ P.isSome) ∧
      (t = .createOp ∧ v.getValue? ts key = none ∧ v.checkScope key .allocate = true ∨
        t ≠ .createOp ∧ v.getValue? ts key = some past) ∧
      ∀ x, P = some (some x) → Keys.verifyValue key x = true := by
  have hs : v.checkScope key .write = true := by
    cases hs : v.checkScope key .write
    · simp [insert, hs] at h
    · rfl
  have hv : Keys.verifyValue key value = true := by
    cases hv : Keys.verifyValue key value
    · simp [insert, hs, hv] at h
    · rfl
  cases hp : v.getValue? ts key with
  | some past =>
    by_cases hne : past = value
    · subst hne
      rw [insert_of_getValue?_eq_self hs hv hp] at h
      exact .inl (Except.ok.inj h).symm
    · rw [insert_of_getValue?_eq_some hs hv hp hne] at h
      refine .inr ⟨.insertOp, past, _, _, _, (Except.ok.inj h).symm, hs, ?_,
        .inr ⟨by decide, rfl⟩, ?_⟩
      · split_ifs <;> simp
      · intro x hx
        split_ifs at hx
        cases hx
        exact hv
  | none =>
    have ha : v.checkScope key .allocate = true := by
      cases ha : v.checkScope key .allocate
      · simp [insert, hs, hv, hp, ha] at h
      · rfl
    rw [insert_of_getValue?_eq_none hs hv hp ha] at h
    refine .inr ⟨.createOp, [], _, _, _, (Except.ok.inj h).symm, hs, ?_, .inl ⟨rfl, rfl, ha⟩, ?_⟩
    · split_ifs <;> simp
    · intro x hx
      split_ifs at hx
      cases hx
      exact hv

/-- **`Remove` succeeded**: it changed nothing, or recorded one operation on `key` and left no
value there. -/
theorem remove_eq_ok {ts : TState} {v v' : TStateView} {key : Bytes}
    (h : v.remove ts key = .ok v') :
    v' = v ∨ ∃ past P A W, v' = v.setEntry key P A W (v.mkOp .removeOp key past) ∧
      v.checkScope key .write = true ∧ (W.isSome ↔ P.isSome) ∧
      v.getValue? ts key = some past ∧ ∀ x, P ≠ some (some x) := by
  have hs : v.checkScope key .write = true := by
    cases hs : v.checkScope key .write
    · simp [remove, hs] at h
    · rfl
  cases hp : v.getValue? ts key with
  | none =>
    rw [remove_of_getValue?_eq_none hs hp] at h
    exact .inl (Except.ok.inj h).symm
  | some past =>
    rw [remove_of_getValue?_eq_some hs hp] at h
    refine .inr ⟨past, _, _, _, (Except.ok.inj h).symm, hs, ?_, rfl, fun x => ?_⟩
    · split_ifs <;> simp
    · split_ifs <;> simp

/-- **What a successful call does**: nothing, a rollback, or one recorded operation on one key
that sets its three entries. -/
theorem apply_eq_ok {ts : TState} {v v' : TStateView} {c : Call} (h : v.apply ts c = .ok v') :
    v' = v ∨ (∃ i, c = .rollback i ∧ v' = v.rollback i) ∨
    ∃ key t past P A W, v' = v.setEntry key P A W (v.mkOp t key past) ∧
      v.checkScope key .write = true ∧ (W.isSome ↔ P.isSome) ∧
      (t = .createOp ∧ v.getValue? ts key = none ∧ v.checkScope key .allocate = true ∨
        t ≠ .createOp ∧ v.getValue? ts key = some past) ∧
      ∀ x, P = some (some x) → Keys.verifyValue key x = true := by
  cases c with
  | insert key value =>
    rcases insert_eq_ok h with rfl | ⟨t, past, P, A, W, rfl, hs, hPW, ht, hP⟩
    · exact .inl rfl
    · exact .inr (.inr ⟨key, t, past, P, A, W, rfl, hs, hPW, ht, hP⟩)
  | remove key =>
    rcases remove_eq_ok h with rfl | ⟨past, P, A, W, rfl, hs, hPW, hp, hP⟩
    · exact .inl rfl
    · refine .inr (.inr ⟨key, .removeOp, past, P, A, W, rfl, hs, hPW, .inr ⟨by decide, hp⟩,
        fun x hx => absurd hx (hP x)⟩)
  | rollback i => exact .inr (.inl ⟨i, rfl, (Except.ok.inj h).symm⟩)

/-- The key of an operation that read a value: the view's change there, if it has one, is that
value. -/
theorem pendingChangedKeys_of_getValue? {ts : TState} {v : TStateView} {key past : Bytes}
    (hp : v.getValue? ts key = some past) {mv : Option Bytes}
    (h : v.pendingChangedKeys key = some mv) : mv = some past := by
  rw [getValue?_eq_overlay, overlay_of_eq_some h] at hp
  exact hp

theorem pendingChangedKeys_of_parentValue_eq_none {ts : TState} {v : TStateView}
    {key past : Bytes} (hp : v.getValue? ts key = some past) (hpar : parentValue ts v key = none) :
    v.pendingChangedKeys key = some (some past) := by
  rw [getValue?_eq_overlay] at hp
  cases h : v.pendingChangedKeys key with
  | none => simp [overlay_of_eq_none h, hpar] at hp
  | some mv => rw [overlay_of_eq_some h] at hp; rw [hp]

/-- A call keeps the scope and the values read for it. -/
theorem step_scope (ts : TState) (v : TStateView) (c : Call) :
    (v.step ts c).scope = v.scope ∧ (v.step ts c).scopeStorage = v.scopeStorage := by
  unfold step
  cases ha : v.apply ts c with
  | error => exact ⟨rfl, rfl⟩
  | ok v' =>
    rcases apply_eq_ok ha with rfl | ⟨i, -, rfl⟩ | ⟨key, t, past, P, A, W, rfl, -⟩
    · exact ⟨rfl, rfl⟩
    · exact ⟨rollback_scope v i, rollback_scopeStorage v i⟩
    · exact ⟨rfl, rfl⟩

/-! ## Changes and chunk records go together -/

/-- The view records chunks written for exactly the keys it has changed. -/
def Tracked (v : TStateView) : Prop :=
  ∀ k, (v.writes k).isSome ↔ (v.pendingChangedKeys k).isSome

theorem tracked_newView (scope : Keys) (storage : Bytes → Option Bytes) :
    Tracked (newView scope storage) := fun _ => by simp [newView]

theorem Tracked.undo {v : TStateView} (h : Tracked v) (op : Op) : Tracked (v.undo op) := by
  intro k
  by_cases hk : k = op.k
  · subst hk
    cases op.pastWrites <;> simp [restoredChange]
  · simpa [update_of_ne hk] using h k

theorem Tracked.foldl_undo {v : TStateView} (h : Tracked v) (ops : List Op) :
    Tracked (ops.foldl TStateView.undo v) := by
  induction ops generalizing v with
  | nil => exact h
  | cons op ops ih => exact ih (h.undo op)

theorem Tracked.rollback {v : TStateView} (h : Tracked v) (i : ℕ) : Tracked (v.rollback i) :=
  h.foldl_undo _

theorem Tracked.setEntry {v : TStateView} (h : Tracked v) {key : Bytes} {P A W} {op : Op}
    (hPW : W.isSome ↔ P.isSome) : Tracked (v.setEntry key P A W op) := by
  intro k
  by_cases hk : k = key
  · subst hk
    simpa using hPW
  · simpa [update_of_ne hk] using h k

theorem tracked_stable (ts : TState) : (viewSystem ts).Stable Tracked := by
  rintro c v _ ⟨⟩ hv
  show Tracked (v.step ts c)
  unfold step
  cases ha : v.apply ts c with
  | error => exact hv
  | ok v' =>
    rcases apply_eq_ok ha with rfl | ⟨i, -, rfl⟩ | ⟨key, t, past, P, A, W, rfl, -, hPW, -⟩
    · exact hv
    · exact hv.rollback i
    · exact hv.setEntry hPW

/-! ## The scope invariant -/

/-- What the log must remember of an operation for its undo to respect the scope: the key is
in scope with `write`, with `allocate` too if the parent lacks it, and a value it read and
may restore fits the key. -/
structure Logged (ts : TState) (v : TStateView) (op : Op) : Prop where
  write : v.checkScope op.k .write = true
  allocate : parentValue ts v op.k = none → v.checkScope op.k .allocate = true
  verify : op.t ≠ .createOp → op.pastWrites.isSome → Keys.verifyValue op.k op.pastV = true

/-- **The scope invariant** of a view over the parent `ts`. -/
structure ScopeInv (ts : TState) (v : TStateView) : Prop where
  tracked : Tracked v
  write : ∀ k, (v.pendingChangedKeys k).isSome → v.checkScope k .write = true
  verify : ∀ k x, v.pendingChangedKeys k = some (some x) → Keys.verifyValue k x = true
  allocate : ∀ k x, v.pendingChangedKeys k = some (some x) → parentValue ts v k = none →
    v.checkScope k .allocate = true
  log : ∀ op ∈ v.ops, Logged ts v op

variable {ts : TState}

theorem scopeInv_newView (scope : Keys) (storage : Bytes → Option Bytes) :
    ScopeInv ts (newView scope storage) where
  tracked := tracked_newView scope storage
  write k := by simp
  verify k x := by simp
  allocate k x := by simp
  log op := by simp [newView]

theorem Logged.congr {v w : TStateView} {op : Op} (h : Logged ts v op) (hs : w.scope = v.scope)
    (hst : w.scopeStorage = v.scopeStorage) : Logged ts w op := by
  have hc : w.checkScope = v.checkScope := by unfold checkScope; rw [hs]
  refine ⟨hc ▸ h.write, fun hp => hc ▸ h.allocate ((parentValue_congr hst) ▸ hp), h.verify⟩

/-- Undoing a logged operation keeps the invariant. -/
theorem ScopeInv.undo {v : TStateView} (h : ScopeInv ts v) {op : Op} (hop : op ∈ v.ops) :
    ScopeInv ts (v.undo op) := by
  have hl := h.log op hop
  have hpar : parentValue ts (v.undo op) = parentValue ts v := parentValue_congr (by simp)
  have hc : (v.undo op).checkScope = v.checkScope := by unfold checkScope; rw [undo_scope]
  refine ⟨h.tracked.undo op, fun k hk => ?_, fun k x hk => ?_, fun k x hk hp => ?_,
    fun o ho => (h.log o (by simpa using ho)).congr (by simp) (by simp)⟩
  · rw [hc]
    by_cases hko : k = op.k
    · exact hko ▸ hl.write
    · exact h.write k (by simpa [update_of_ne hko] using hk)
  · by_cases hko : k = op.k
    · subst hko
      simp only [undo_pendingChangedKeys, update_self, restoredChange] at hk
      obtain ⟨w, hw, hx⟩ := Option.map_eq_some_iff.mp hk
      split_ifs at hx with ht
      cases hx
      exact hl.verify ht (by simp [hw])
    · exact h.verify k x (by simpa [update_of_ne hko] using hk)
  · rw [hc]
    rw [hpar] at hp
    by_cases hko : k = op.k
    · exact hko ▸ hl.allocate (hko ▸ hp)
    · exact h.allocate k x (by simpa [update_of_ne hko] using hk) hp

theorem ScopeInv.foldl_undo {v : TStateView} (h : ScopeInv ts v) (ops : List Op)
    (hops : ∀ op ∈ ops, op ∈ v.ops) : ScopeInv ts (ops.foldl TStateView.undo v) := by
  induction ops generalizing v with
  | nil => exact h
  | cons op ops ih =>
    refine ih (h.undo (hops op (List.mem_cons_self ..))) fun o ho => ?_
    rw [undo_ops]
    exact hops o (List.mem_cons_of_mem _ ho)

theorem ScopeInv.rollback {v : TStateView} (h : ScopeInv ts v) (i : ℕ) :
    ScopeInv ts (v.rollback i) := by
  have hf := h.foldl_undo (v.ops.drop i).reverse fun op hop =>
    List.mem_of_mem_drop (List.mem_reverse.mp hop)
  refine ⟨hf.tracked, hf.write, hf.verify, hf.allocate, fun op hop => ?_⟩
  refine (h.log op (List.mem_of_mem_take hop)).congr (by simp) (by simp)

/-- A recorded operation keeps the invariant. -/
theorem ScopeInv.setEntry {v : TStateView} (h : ScopeInv ts v) {key past : Bytes} {t : OpType}
    {P : Option (Option Bytes)} {A W : Option ℕ} (hs : v.checkScope key .write = true)
    (hPW : W.isSome ↔ P.isSome)
    (ht : t = .createOp ∧ v.getValue? ts key = none ∧ v.checkScope key .allocate = true ∨
      t ≠ .createOp ∧ v.getValue? ts key = some past)
    (hP : ∀ x, P = some (some x) → Keys.verifyValue key x = true) :
    ScopeInv ts (v.setEntry key P A W (v.mkOp t key past)) := by
  -- a key the parent lacks and that an operation read holds the view's own value
  have hown : parentValue ts v key = none → v.checkScope key .allocate = true := fun hpar => by
    rcases ht with ⟨-, -, ha⟩ | ⟨-, hp⟩
    · exact ha
    · exact h.allocate key past (pendingChangedKeys_of_parentValue_eq_none hp hpar) hpar
  have hlog : Logged ts v (v.mkOp t key past) := by
    refine ⟨hs, hown, fun hne hw => ?_⟩
    obtain ⟨mv, hmv⟩ := Option.isSome_iff_exists.mp ((h.tracked key).mp hw)
    rcases ht with ⟨hc, -⟩ | ⟨-, hp⟩
    · exact absurd hc hne
    · exact h.verify key past (pendingChangedKeys_of_getValue? hp hmv ▸ hmv)
  refine ⟨h.tracked.setEntry hPW, fun k hk => ?_, fun k x hk => ?_, fun k x hk hp => ?_,
    fun op hop => ?_⟩
  · by_cases hk' : k = key
    · subst hk'
      exact hs
    · exact h.write k (by simpa [update_of_ne hk'] using hk)
  · by_cases hk' : k = key
    · subst hk'
      exact hP x (by simpa using hk)
    · exact h.verify k x (by simpa [update_of_ne hk'] using hk)
  · by_cases hk' : k = key
    · subst hk'
      exact hown hp
    · exact h.allocate k x (by simpa [update_of_ne hk'] using hk) hp
  · rcases List.mem_append.mp hop with hop | hop
    · exact (h.log op hop).congr rfl rfl
    · rw [List.mem_singleton.mp hop]
      exact hlog.congr rfl rfl

theorem scopeInv_stable (ts : TState) : (viewSystem ts).Stable (ScopeInv ts) := by
  rintro c v _ ⟨⟩ hv
  show ScopeInv ts (v.step ts c)
  unfold step
  cases ha : v.apply ts c with
  | error => exact hv
  | ok v' =>
    rcases apply_eq_ok ha with rfl | ⟨i, -, rfl⟩ | ⟨key, t, past, P, A, W, rfl, hs, hPW, ht, hP⟩
    · exact hv
    · exact hv.rollback i
    · exact hv.setEntry hs hPW ht hP

/-- **A view keeps to its scope.** Over a fixed parent, after any calls from a new view: every
changed key is in scope with `write`, every value held fits its key, every value held for a key
the parent lacks is in scope with `allocate`; and a call that fails with either scope error
leaves the view as it was. -/
theorem view_respects_scope (ts : TState) (scope : Keys) (storage : Bytes → Option Bytes)
    {v : TStateView} (hr : (viewSystem ts).Reaches (newView scope storage) v) :
    (∀ k, (v.pendingChangedKeys k).isSome → (v.scope.get k).has .write = true) ∧
    (∀ k x, v.pendingChangedKeys k = some (some x) → Keys.verifyValue k x = true) ∧
    (∀ k x, v.pendingChangedKeys k = some (some x) → parentValue ts v k = none →
      (v.scope.get k).has .allocate = true) ∧
    ∀ c, (v.apply ts c = .error .invalidKeyOrPermission ∨ v.apply ts c = .error .invalidKeyValue) →
      (viewSystem ts).next c v = some v := by
  have h := (scopeInv_stable ts).reaches hr (scopeInv_newView scope storage)
  refine ⟨h.write, h.verify, h.allocate, fun c hc => ?_⟩
  rcases hc with hc | hc <;> simp [viewSystem, step, hc]

/-- A key created in a scope that allows everything on it, and a write refused on a key the
scope only lets the view read: the created key stays, and the refused write would leave the view
as it is. -/
theorem create_then_refused_write_respects_scope :
    ∃ v, (viewSystem TState.new).run [.insert [0, 1] [2], .insert [0, 2] [3]]
        (newView (((∅ : Keys).insert [0, 1] .all).insert [0, 2] .read) fun _ => none) = some v ∧
      v.pendingChangedKeys [0, 1] = some (some [2]) ∧
      v.apply TState.new (.insert [0, 2] [3]) = .error .invalidKeyOrPermission ∧
      (∀ k, (v.pendingChangedKeys k).isSome → (v.scope.get k).has .write = true) ∧
      (∀ k x, v.pendingChangedKeys k = some (some x) → Keys.verifyValue k x = true) ∧
      (∀ k x, v.pendingChangedKeys k = some (some x) → parentValue TState.new v k = none →
        (v.scope.get k).has .allocate = true) ∧
      ∀ c, (v.apply TState.new c = .error .invalidKeyOrPermission ∨
        v.apply TState.new c = .error .invalidKeyValue) →
        (viewSystem TState.new).next c v = some v :=
  ⟨_, rfl, rfl, rfl, view_respects_scope TState.new _ _
    (@System.reaches_of_run _ _ _ [.insert [0, 1] [2], .insert [0, 2] [3]] _ _ rfl)⟩

end TStateView

end Hypersdk.Tstate
