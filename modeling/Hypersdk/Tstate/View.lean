import Hypersdk.Foundations.Overlay
import Hypersdk.State.Keys

/-!
# Transactional state views

`tstate/tstate.go` and `tstate/tstate_view.go`. A `TState` holds the changes committed by the
transactions of a block so far; a `TStateView` is the scratch space of one transaction: the
changes it has made (`pendingChangedKeys`), the log of operations it can roll back to, its
scope (the keys it declared, with their permissions), the values of those keys read from the
parent state before execution (`scopeStorage`), and the chunk bookkeeping `allocates` and
`writes` used for fees.

A view does not own its parent: every operation takes the current `TState`, which other
transactions may have changed since the view was made. Reading a key goes through the view's
own changes, then the parent's, then the stored value (`getValue?_eq_overlay`). `insert` and
`remove` undo a change that brings a key back to its parent value (`isUnchanged`), and
`rollback` replays the operation log backwards.

Go's `nil` and empty byte slices are the same list here, as `bytes.Equal` treats them.
-/

namespace Hypersdk.Tstate

open Foundations Function State

/-- The errors of the view: `ErrInvalidKeyOrPermission`, `ErrInvalidKeyValue`, and
`database.ErrNotFound` for a read of an absent key. -/
inductive Error
  | invalidKeyOrPermission
  | invalidKeyValue
  | notFound
  deriving DecidableEq, Repr

/-- `TState`: the changes committed to the block so far (`some none` is a deletion) and the
number of operations they took. -/
structure TState where
  changedKeys : Bytes → Option (Option Bytes)
  ops : ℕ

/-- `tstate.New`. -/
def TState.new : TState := ⟨fun _ => none, 0⟩

/-- `getChangedValue`: whether the block changed `key`, and to what. -/
def TState.getChangedValue (ts : TState) (key : Bytes) : Option (Option Bytes) :=
  ts.changedKeys key

/-- The kinds of recorded operations. -/
inductive OpType
  | createOp
  | insertOp
  | removeOp
  deriving DecidableEq, Repr

/-- A recorded operation, with what it overwrote. -/
structure Op where
  t : OpType
  k : Bytes
  pastV : Bytes
  pastAllocates : Option ℕ
  pastWrites : Option ℕ

/-- `TStateView`, without its pointer to the parent `TState`. -/
structure TStateView where
  pendingChangedKeys : Bytes → Option (Option Bytes)
  ops : List Op
  scope : Keys
  scopeStorage : Bytes → Option Bytes
  allocates : Bytes → Option ℕ
  writes : Bytes → Option ℕ

namespace TStateView

/-- `NewView`: an empty view over `scope` with the values `storage` read for it. -/
def newView (scope : Keys) (storage : Bytes → Option Bytes) : TStateView :=
  ⟨fun _ => none, [], scope, storage, fun _ => none, fun _ => none⟩

/-- `OpIndex`. -/
def opIndex (v : TStateView) : ℕ := v.ops.length

/-- `checkScope`: `k` is in scope with the permissions `perm`. -/
def checkScope (v : TStateView) (k : Bytes) (perm : Permissions) : Bool :=
  (v.scope.get k).has perm

/-- The unexported `getValue`: the view's change, else the block's, else the stored value. -/
def getValue? (ts : TState) (v : TStateView) (key : Bytes) : Option Bytes :=
  match v.pendingChangedKeys key with
  | some mv => mv
  | none =>
    match ts.getChangedValue key with
    | some mv => mv
    | none => v.scopeStorage key

/-- `GetValue`: a read needs the `read` permission. -/
def getValue (ts : TState) (v : TStateView) (key : Bytes) : Except Error Bytes :=
  if !v.checkScope key .read then .error .invalidKeyOrPermission
  else
    match v.getValue? ts key with
    | none => .error .notFound
    | some b => .ok b

/-- `isUnchanged`: the parent (the block's changes over the stored values) holds exactly
`nval` (when `nexists`) or nothing at `key`. -/
def isUnchanged (ts : TState) (v : TStateView) (key nval : Bytes) (nexists : Bool) : Bool :=
  match ts.getChangedValue key with
  | some (some pv) => nexists && pv == nval
  | some none => !nexists
  | none =>
    match v.scopeStorage key with
    | some sv => nexists && sv == nval
    | none => !nexists

/-- The three `delete` calls that drop every record of `k` from the view. -/
def forget (v : TStateView) (k : Bytes) : TStateView :=
  { v with
    allocates := update v.allocates k none
    writes := update v.writes k none
    pendingChangedKeys := update v.pendingChangedKeys k none }

/-- The record of an operation on `key` with what it overwrites. -/
def mkOp (v : TStateView) (t : OpType) (key past : Bytes) : Op :=
  ⟨t, key, past, v.allocates key, v.writes key⟩

/-- The end of `Insert`: record the op, write the value, and drop every record of `key` if
the value is the parent's again. -/
def finishInsert (ts : TState) (v : TStateView) (op : Op) (key value : Bytes) : TStateView :=
  let v := { v with
    ops := v.ops ++ [op]
    pendingChangedKeys := update v.pendingChangedKeys key (some (some value)) }
  if v.isUnchanged ts key value true then v.forget key else v

/-- `Insert`: update an existing key (`write`), or create a missing one (`write` and
`allocate`); writing the value a key already has is not an operation. -/
def insert (ts : TState) (v : TStateView) (key value : Bytes) : Except Error TStateView :=
  if !v.checkScope key .write then .error .invalidKeyOrPermission
  else if !Keys.verifyValue key value then .error .invalidKeyValue
  else
    let valueChunks := (Keys.numChunksOf value).getD 0
    match v.getValue? ts key with
    | some past =>
      if past = value then .ok v
      else
        .ok (finishInsert ts { v with writes := update v.writes key (some valueChunks) }
          (v.mkOp .insertOp key past) key value)
    | none =>
      -- a new entry also needs `allocate`
      if !v.checkScope key .allocate then .error .invalidKeyOrPermission
      else
        let keyChunks := (Keys.maxChunks key).getD 0
        .ok (finishInsert ts
          { v with
            allocates := update v.allocates key (some keyChunks)
            writes := update v.writes key (some valueChunks) }
          (v.mkOp .createOp key []) key value)

/-- `Remove`: delete an existing key (`write`). A key allocated in this view is forgotten,
any other is marked deleted; either way every record goes if the parent lacks the key too. -/
def remove (ts : TState) (v : TStateView) (key : Bytes) : Except Error TStateView :=
  if !v.checkScope key .write then .error .invalidKeyOrPermission
  else
    match v.getValue? ts key with
    | none => .ok v
    | some past =>
      let op := v.mkOp .removeOp key past
      let v₁ := { v with ops := v.ops ++ [op] }
      let v₂ :=
        if (v.allocates key).isSome then v₁.forget key
        else
          { v₁ with
            writes := update v₁.writes key (some 0)
            pendingChangedKeys := update v₁.pendingChangedKeys key (some none) }
      .ok (if v₂.isUnchanged ts key [] false then v₂.forget key else v₂)

/-- Restore the value and `writes` entry an operation overwrote. -/
def restoreWrite (v : TStateView) (op : Op) : TStateView :=
  match op.pastWrites with
  | some w =>
    { v with
      writes := update v.writes op.k (some w)
      pendingChangedKeys := update v.pendingChangedKeys op.k (some (some op.pastV)) }
  | none =>
    { v with
      writes := update v.writes op.k none
      pendingChangedKeys := update v.pendingChangedKeys op.k none }

/-- Undo one operation: the body of the `Rollback` loop. -/
def undo (v : TStateView) (op : Op) : TStateView :=
  match op.t with
  | .createOp =>
    let v := { v with allocates := update v.allocates op.k none }
    match op.pastWrites with
    -- a key deleted earlier in the view is deleted again
    | some w =>
      { v with
        writes := update v.writes op.k (some w)
        pendingChangedKeys := update v.pendingChangedKeys op.k (some none) }
    | none =>
      { v with
        writes := update v.writes op.k none
        pendingChangedKeys := update v.pendingChangedKeys op.k none }
  | .insertOp => v.restoreWrite op
  | .removeOp =>
    let v :=
      match op.pastAllocates with
      | some a => { v with allocates := update v.allocates op.k (some a) }
      | none => v
    v.restoreWrite op

/-- `Rollback`: undo the operations from the last down to `restorePoint`, and truncate the
log there. -/
def rollback (v : TStateView) (restorePoint : ℕ) : TStateView :=
  { (v.ops.drop restorePoint).reverse.foldl undo v with ops := v.ops.take restorePoint }

/-- `Commit`: publish the view's changes into the block's. -/
def commit (v : TStateView) (ts : TState) : TState :=
  ⟨publish v.pendingChangedKeys ts.changedKeys, ts.ops + v.ops.length⟩

/-! ## Reading through the layers -/

/-- The block's parent of a view: the committed changes over the stored values. -/
def parentValue (ts : TState) (v : TStateView) (key : Bytes) : Option Bytes :=
  overlay ts.changedKeys v.scopeStorage key

theorem getValue?_eq_overlay (ts : TState) (v : TStateView) (key : Bytes) :
    v.getValue? ts key = overlay v.pendingChangedKeys (parentValue ts v) key := by
  unfold getValue? TState.getChangedValue parentValue overlay
  cases h₁ : v.pendingChangedKeys key <;> cases h₂ : ts.changedKeys key <;> simp [h₂]

theorem isUnchanged_iff (ts : TState) (v : TStateView) (key nval : Bytes) (nexists : Bool) :
    v.isUnchanged ts key nval nexists = true ↔
      parentValue ts v key = if nexists then some nval else none := by
  unfold isUnchanged parentValue overlay TState.getChangedValue
  rcases ts.changedKeys key with _ | _ | pv <;> try rcases v.scopeStorage key with _ | sv
  all_goals cases nexists <;> simp

/-- Committing a view and reading through the block is reading through the view. -/
theorem parentValue_commit (ts : TState) (v w : TStateView) (hs : w.scopeStorage = v.scopeStorage)
    (key : Bytes) :
    parentValue (v.commit ts) w key = v.getValue? ts key := by
  rw [getValue?_eq_overlay, parentValue, commit, hs, overlay_publish]
  rfl

/-! ## What one operation does

Each successful `insert` or `remove` that changes something sets the three entries of one key
and appends one operation (`setEntry`); the lemmas below say which entries, case by case, so
that later proofs never unfold the operations. -/

/-- Set the three bookkeeping entries of `key` and append `op` to the log. -/
def setEntry (v : TStateView) (key : Bytes) (p : Option (Option Bytes)) (a w : Option ℕ)
    (op : Op) : TStateView :=
  { v with
    pendingChangedKeys := update v.pendingChangedKeys key p
    allocates := update v.allocates key a
    writes := update v.writes key w
    ops := v.ops ++ [op] }

@[simp] theorem forget_pendingChangedKeys (v : TStateView) (k : Bytes) :
    (v.forget k).pendingChangedKeys = update v.pendingChangedKeys k none := rfl

@[simp] theorem forget_allocates (v : TStateView) (k : Bytes) :
    (v.forget k).allocates = update v.allocates k none := rfl

@[simp] theorem forget_writes (v : TStateView) (k : Bytes) :
    (v.forget k).writes = update v.writes k none := rfl

@[simp] theorem forget_ops (v : TStateView) (k : Bytes) : (v.forget k).ops = v.ops := rfl

@[simp] theorem forget_scope (v : TStateView) (k : Bytes) : (v.forget k).scope = v.scope := rfl

@[simp] theorem forget_scopeStorage (v : TStateView) (k : Bytes) :
    (v.forget k).scopeStorage = v.scopeStorage := rfl

@[simp] theorem setEntry_pendingChangedKeys (v : TStateView) (key : Bytes) p a w op :
    (v.setEntry key p a w op).pendingChangedKeys = update v.pendingChangedKeys key p := rfl

@[simp] theorem setEntry_allocates (v : TStateView) (key : Bytes) p a w op :
    (v.setEntry key p a w op).allocates = update v.allocates key a := rfl

@[simp] theorem setEntry_writes (v : TStateView) (key : Bytes) p a w op :
    (v.setEntry key p a w op).writes = update v.writes key w := rfl

@[simp] theorem setEntry_ops (v : TStateView) (key : Bytes) p a w op :
    (v.setEntry key p a w op).ops = v.ops ++ [op] := rfl

@[simp] theorem setEntry_scope (v : TStateView) (key : Bytes) p a w op :
    (v.setEntry key p a w op).scope = v.scope := rfl

@[simp] theorem setEntry_scopeStorage (v : TStateView) (key : Bytes) p a w op :
    (v.setEntry key p a w op).scopeStorage = v.scopeStorage := rfl

@[simp] theorem newView_pendingChangedKeys (scope : Keys) (storage : Bytes → Option Bytes) :
    (newView scope storage).pendingChangedKeys = fun _ => none := rfl

@[simp] theorem newView_allocates (scope : Keys) (storage : Bytes → Option Bytes) :
    (newView scope storage).allocates = fun _ => none := rfl

@[simp] theorem newView_scope (scope : Keys) (storage : Bytes → Option Bytes) :
    (newView scope storage).scope = scope := rfl

@[simp] theorem newView_scopeStorage (scope : Keys) (storage : Bytes → Option Bytes) :
    (newView scope storage).scopeStorage = storage := rfl

@[simp] theorem parentValue_setEntry (ts : TState) (v : TStateView) (key : Bytes) p a w op :
    parentValue ts (v.setEntry key p a w op) = parentValue ts v := rfl

@[simp] theorem parentValue_newView (ts : TState) (scope : Keys) (storage : Bytes → Option Bytes) :
    parentValue ts (newView scope storage) = overlay ts.changedKeys storage := rfl

@[simp] theorem checkScope_setEntry (v : TStateView) (key k : Bytes) p a w op perm :
    (v.setEntry key p a w op).checkScope k perm = v.checkScope k perm := rfl

theorem isUnchanged_congr {ts : TState} {v w : TStateView} (h : w.scopeStorage = v.scopeStorage)
    (key nval : Bytes) (nexists : Bool) :
    w.isUnchanged ts key nval nexists = v.isUnchanged ts key nval nexists := by
  unfold isUnchanged
  rw [h]

theorem parentValue_congr {ts : TState} {v w : TStateView} (h : w.scopeStorage = v.scopeStorage) :
    parentValue ts w = parentValue ts v := by
  unfold parentValue
  rw [h]

/-- **`Remove` of a present key**: the key is marked deleted, unless the view allocated it or
the parent lacks it, when every record of it goes. -/
theorem remove_of_getValue?_eq_some {ts : TState} {v : TStateView} {key past : Bytes}
    (hs : v.checkScope key .write = true) (hp : v.getValue? ts key = some past) :
    v.remove ts key = .ok (v.setEntry key
      (if parentValue ts v key = none ∨ (v.allocates key).isSome then none else some none) none
      (if parentValue ts v key = none ∨ (v.allocates key).isSome then none else some 0)
      (v.mkOp .removeOp key past)) := by
  simp only [remove, hs, hp, Bool.not_true, Bool.false_eq_true, if_false]
  congr 1
  unfold parentValue
  by_cases ha : (v.allocates key).isSome
  · by_cases hpar : overlay ts.changedKeys v.scopeStorage key = none
    · simp [ha, isUnchanged_iff, parentValue, hpar, setEntry, forget, update_idem]
    · simp [ha, isUnchanged_iff, parentValue, hpar, setEntry, forget]
  · have ha' : v.allocates key = none := by simpa using ha
    by_cases hpar : overlay ts.changedKeys v.scopeStorage key = none
    · simp [hpar, isUnchanged_iff, parentValue, setEntry, forget, update_idem, ha']
    · simp [hpar, isUnchanged_iff, parentValue, setEntry, ha']

/-- `Remove` of an absent key does nothing. -/
theorem remove_of_getValue?_eq_none {ts : TState} {v : TStateView} {key : Bytes}
    (hs : v.checkScope key .write = true) (hp : v.getValue? ts key = none) :
    v.remove ts key = .ok v := by
  simp [remove, hs, hp]

/-- **`Insert` over a present key** with a new value: the value is written, or every record
of the key goes when the value is the parent's. -/
theorem insert_of_getValue?_eq_some {ts : TState} {v : TStateView} {key value past : Bytes}
    (hs : v.checkScope key .write = true) (hv : Keys.verifyValue key value = true)
    (hp : v.getValue? ts key = some past) (hne : past ≠ value) :
    v.insert ts key value = .ok (v.setEntry key
      (if parentValue ts v key = some value then none else some (some value))
      (if parentValue ts v key = some value then none else v.allocates key)
      (if parentValue ts v key = some value then none
        else some ((Keys.numChunksOf value).getD 0))
      (v.mkOp .insertOp key past)) := by
  simp only [insert, hs, hv, hp, hne, Bool.not_true, Bool.false_eq_true, if_false]
  congr 1
  unfold finishInsert parentValue
  by_cases hpar : overlay ts.changedKeys v.scopeStorage key = some value
  · simp [hpar, isUnchanged_iff, parentValue, setEntry, forget, update_idem]
  · simp [hpar, isUnchanged_iff, parentValue, setEntry, update_eq_self]

/-- `Insert` of the value a key already has does nothing. -/
theorem insert_of_getValue?_eq_self {ts : TState} {v : TStateView} {key value : Bytes}
    (hs : v.checkScope key .write = true) (hv : Keys.verifyValue key value = true)
    (hp : v.getValue? ts key = some value) :
    v.insert ts key value = .ok v := by
  simp [insert, hs, hv, hp]

/-- **`Insert` of an absent key** (with `allocate`): the key is created, unless the parent
holds that value. -/
theorem insert_of_getValue?_eq_none {ts : TState} {v : TStateView} {key value : Bytes}
    (hs : v.checkScope key .write = true) (hv : Keys.verifyValue key value = true)
    (hp : v.getValue? ts key = none) (ha : v.checkScope key .allocate = true) :
    v.insert ts key value = .ok (v.setEntry key
      (if parentValue ts v key = some value then none else some (some value))
      (if parentValue ts v key = some value then none else some ((Keys.maxChunks key).getD 0))
      (if parentValue ts v key = some value then none
        else some ((Keys.numChunksOf value).getD 0))
      (v.mkOp .createOp key [])) := by
  simp only [insert, hs, hv, hp, ha, Bool.not_true, Bool.false_eq_true, if_false]
  congr 1
  unfold finishInsert parentValue
  by_cases hpar : overlay ts.changedKeys v.scopeStorage key = some value
  · simp [hpar, isUnchanged_iff, parentValue, setEntry, forget, update_idem]
  · simp [hpar, isUnchanged_iff, parentValue, setEntry]

end TStateView

end Hypersdk.Tstate
