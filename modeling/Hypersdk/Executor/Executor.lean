import Hypersdk.Foundations.System
import Hypersdk.State.Keys
import Mathlib

/-!
# The executor

`Executor` (`executor/executor.go`) runs the functions handed to `Run` on a pool of workers,
so that two tasks whose keys conflict (a key that both name, at least one of them with
permissions other than `state.Read`) run in the order of their `Run` calls.

`Run` records, for each key of the task, the task last seen writing it (the key's *node*): a
reader registers in the node's `readers`, a writer blocks on every registered reader and
becomes the new node, and both block on the node while it has not executed. Each block adds
the task to the other's `blocked` set and the other's id to the `dependencies` set of `Run`.
The task's counter starts at `maxDependencies`, so that no notification can send it to the
workers while `Run` is still recording; at the end `Run` takes away
`maxDependencies - |dependencies|` and sends the task on `executable` if nothing is left. A
worker runs `f` unless an error is already set, then (deferred) leaves the `readers` of every
task it was reading and, holding its own lock, takes one from the counter of each blocked task,
sending those that reach zero, and marks itself executed.

The model is the interleaving of the caller's steps with the workers' steps. Each step is one
critical section of the source: an iteration of the loop of `Run` holds the lock of the key's
node for all it reads and writes, and the second half of the deferred function holds the
task's own lock; the counter updates inside them are atomic adds, which commute with every
other step. The channel `executable` is a bag from which any worker may receive, an
over-approximation of its first-in first-out order with any number of workers. A task records,
as ghost state, the dependencies `Run` found for it (the local `dependencies` set), the keys it
recorded, and how many times it was sent on `executable`, started and returned.
-/

namespace Hypersdk.Executor

set_option linter.dupNamespace false

open Foundations Function State

/-- Where a task is in its life. -/
inductive Phase
  /-- No `Run` has made the task yet. -/
  | absent
  /-- `Run` is recording the task's keys. -/
  | setup
  /-- `Run` returned: the task waits on its dependencies, or sits in `executable`. -/
  | pending
  /-- A worker received it from `executable`. -/
  | received
  /-- Its `f` is running. -/
  | running
  /-- Its `f` returned, or was skipped; the deferred function is leaving `readers` sets. -/
  | finished
  /-- The deferred function notified the blocked tasks and called `outstanding.Done`. -/
  | done
  deriving DecidableEq, Repr

/-- The order of the phases: every step moves a task forward in it. -/
def Phase.rank : Phase → ℕ
  | absent => 0
  | setup => 1
  | pending => 2
  | received => 3
  | running => 4
  | finished => 5
  | done => 6

/-- `task`: its fields of the source, and ghost state. -/
@[ext] structure Task where
  phase : Phase
  reading : Finset ℕ
  executed : Bool
  blocked : Finset ℕ
  readers : Finset ℕ
  /-- The atomic counter `dependencies`. -/
  dependencies : ℤ
  /-- Ghost: the `dependencies` set `Run` builds for the task. -/
  deps : Finset ℕ
  /-- Ghost: the keys `Run` has recorded for the task, with their permissions. -/
  recorded : List (Bytes × Permissions)
  /-- Ghost: how many times the task was sent on `executable`. -/
  pushes : ℕ
  /-- Ghost: how many times its `f` was called. -/
  starts : ℕ
  /-- Ghost: how many times its `f` returned. -/
  returns : ℕ

/-- The slot of a task no `Run` has made. -/
def Task.absent : Task := ⟨.absent, ∅, false, ∅, ∅, 0, ∅, [], 0, 0, 0⟩

/-- The task `Run` makes: its counter holds `maxDependencies`. -/
def Task.new (maxDependencies : ℕ) : Task :=
  ⟨.setup, ∅, false, ∅, ∅, maxDependencies, ∅, [], 0, 0, 0⟩

/-- What `err` holds: `ErrStopped`, or the error an `f` returned. -/
inductive Failure (ε : Type)
  | stopped
  | task (e : ε)

/-- Where the caller of `Run` and `Wait` is. -/
inductive Caller
  /-- Between calls. -/
  | idle
  /-- In `Run` for task `id`, with the keys it has still to record. -/
  | running (id : ℕ) (keys : Keys)
  /-- `Wait` returned. -/
  | waited

/-- `Executor`: the tasks by id, `nodes`, the channel `executable`, the count `tasks` of calls
to `Run`, the first error, and the caller. -/
structure Executor (ε : Type) where
  task : ℕ → Task
  nodes : Bytes → Option ℕ
  executable : Multiset ℕ
  tasks : ℕ
  err : Option (Failure ε)
  caller : Caller

variable {ε : Type}

/-- `New`: no task, no node. -/
def new : Executor ε := ⟨fun _ => Task.absent, fun _ => none, 0, 0, none, .idle⟩

namespace Executor

/-- Replace task `x` by `f` of it. -/
def modify (e : Executor ε) (x : ℕ) (f : Task → Task) : Executor ε :=
  { e with task := update e.task x (f (e.task x)) }

/-- `t.reading[lt.id] = lt; lt.readers[id] = t`. -/
def addReader (e : Executor ε) (id lt : ℕ) : Executor ε :=
  (e.modify id fun t => { t with reading := insert lt t.reading }).modify lt
    fun t => { t with readers := insert id t.readers }

/-- Task `id` blocks on each task of `xs`: `x.blocked[id] = t` and `dependencies.Add(x.id)`. -/
def blockOn (e : Executor ε) (id : ℕ) (xs : Finset ℕ) : Executor ε :=
  ({ e with task := fun x =>
      if x ∈ xs then { e.task x with blocked := insert id (e.task x).blocked } else e.task x }
  : Executor ε).modify id fun t => { t with deps := t.deps ∪ xs }

/-- One iteration of the loop of `Run`: task `id` records key `k` with permissions `v`. -/
def recordKey (e : Executor ε) (id : ℕ) (k : Bytes) (v : Permissions) : Executor ε :=
  let e := e.modify id fun t => { t with recorded := (k, v) :: t.recorded }
  match e.nodes k with
  | none => { e with nodes := update e.nodes k (some id) }
  | some lt =>
    -- a reader registers on the node; a writer blocks on its readers and replaces it
    let e := if v = Permissions.read then e.addReader id lt
      else { e.blockOn id ((e.task lt).readers.erase id) with nodes := update e.nodes k (some id) }
    if (e.task lt).executed then e else e.blockOn id {lt}

/-! ## What each operation does to the tasks -/

section Api

variable {e : Executor ε} {x y id : ℕ} {f : Task → Task}

@[simp] theorem modify_nodes : (e.modify x f).nodes = e.nodes := rfl
@[simp] theorem modify_executable : (e.modify x f).executable = e.executable := rfl
@[simp] theorem modify_tasks : (e.modify x f).tasks = e.tasks := rfl
@[simp] theorem modify_err : (e.modify x f).err = e.err := rfl
@[simp] theorem modify_caller : (e.modify x f).caller = e.caller := rfl

theorem modify_task : (e.modify x f).task y = if y = x then f (e.task x) else e.task y := by
  simp only [modify, update_apply]

@[simp] theorem modify_task_self : (e.modify x f).task x = f (e.task x) := by
  simp [modify_task]

@[simp] theorem modify_task_of_ne (h : y ≠ x) : (e.modify x f).task y = e.task y := by
  simp [modify_task, h]

/-- A field that `f` leaves alone is the same after `modify`. -/
theorem modify_field {α : Type} (g : Task → α) (hf : ∀ u, g (f u) = g u) (y : ℕ) :
    g ((e.modify x f).task y) = g (e.task y) := by
  by_cases hy : y = x
  · subst hy
    rw [modify_task_self, hf]
  · rw [modify_task_of_ne hy]

/-- The nodes `id` registers on as a reader when it records `k` with `v`: the node, if `v` is
`state.Read`. -/
def readSet (e : Executor ε) (k : Bytes) (v : Permissions) : Finset ℕ :=
  match e.nodes k with
  | some lt => if v = Permissions.read then {lt} else ∅
  | none => ∅

/-- The tasks `id` blocks on when it records `k` with `v`: the node's other readers if `v` is
not `state.Read`, and the node if it has not executed. -/
def blockSet (e : Executor ε) (id : ℕ) (k : Bytes) (v : Permissions) : Finset ℕ :=
  match e.nodes k with
  | some lt =>
    (if v = Permissions.read then ∅ else (e.task lt).readers.erase id) ∪
      (if (e.task lt).executed then ∅ else {lt})
  | none => ∅

theorem mem_readSet {k : Bytes} {v : Permissions} :
    x ∈ e.readSet k v ↔ v = Permissions.read ∧ e.nodes k = some x := by
  unfold readSet
  rcases e.nodes k with _ | lt
  · simp
  · by_cases hv : v = Permissions.read <;> simp [hv, eq_comm]

theorem mem_blockSet {k : Bytes} {v : Permissions} :
    x ∈ e.blockSet id k v ↔ ∃ lt, e.nodes k = some lt ∧
      (v ≠ Permissions.read ∧ x ∈ (e.task lt).readers ∧ x ≠ id ∨
        x = lt ∧ (e.task lt).executed = false) := by
  unfold blockSet
  rcases e.nodes k with _ | lt
  · simp
  · by_cases hv : v = Permissions.read <;> by_cases hx : (e.task lt).executed <;>
      simp [hv, hx, and_comm, or_comm]

theorem addReader_task (lt : ℕ) : (e.addReader id lt).task y =
    { e.task y with
      reading := if y = id then insert lt (e.task y).reading else (e.task y).reading
      readers := if y = lt then insert id (e.task y).readers else (e.task y).readers } := by
  unfold addReader
  by_cases hl : y = lt
  · subst hl
    by_cases hy : y = id
    · subst hy
      simp
    · simp [hy]
  · by_cases hy : y = id
    · subst hy
      simp [hl]
    · simp [hy, hl]

@[simp] theorem addReader_nodes (lt : ℕ) : (e.addReader id lt).nodes = e.nodes := rfl

theorem blockOn_task (xs : Finset ℕ) : (e.blockOn id xs).task y =
    { e.task y with
      blocked := if y ∈ xs then insert id (e.task y).blocked else (e.task y).blocked
      deps := if y = id then (e.task y).deps ∪ xs else (e.task y).deps } := by
  unfold blockOn
  by_cases hy : y = id
  · subst hy
    by_cases hx : y ∈ xs <;> simp [hx]
  · by_cases hx : y ∈ xs <;> simp [hx, hy]

@[simp] theorem blockOn_nodes (xs : Finset ℕ) : (e.blockOn id xs).nodes = e.nodes := rfl
@[simp] theorem blockOn_executable (xs : Finset ℕ) :
    (e.blockOn id xs).executable = e.executable := rfl
@[simp] theorem blockOn_tasks (xs : Finset ℕ) : (e.blockOn id xs).tasks = e.tasks := rfl
@[simp] theorem blockOn_err (xs : Finset ℕ) : (e.blockOn id xs).err = e.err := rfl

theorem recordKey_task (k : Bytes) (v : Permissions) : (e.recordKey id k v).task y =
    { e.task y with
      recorded := if y = id then (k, v) :: (e.task y).recorded else (e.task y).recorded
      reading := if y = id then (e.task y).reading ∪ e.readSet k v else (e.task y).reading
      readers := if y ∈ e.readSet k v then insert id (e.task y).readers else (e.task y).readers
      blocked := if y ∈ e.blockSet id k v then insert id (e.task y).blocked
        else (e.task y).blocked
      deps := if y = id then (e.task y).deps ∪ e.blockSet id k v else (e.task y).deps } := by
  unfold recordKey readSet blockSet
  rcases hk : e.nodes k with _ | lt
  · by_cases hy : y = id
    · subst hy
      simp [hk]
    · simp [hk, hy]
  · by_cases hv : v = Permissions.read <;> by_cases hli : lt = id <;>
      by_cases hx : (e.task lt).executed <;>
      apply Task.ext <;> by_cases hy : y = id <;> by_cases hl : y = lt <;>
        simp_all [blockOn_task, addReader_task, apply_ite]

theorem recordKey_nodes (k : Bytes) (v : Permissions) : (e.recordKey id k v).nodes =
    if v = Permissions.read ∧ (e.nodes k).isSome then e.nodes else update e.nodes k (some id) := by
  unfold recordKey
  rcases hk : e.nodes k with _ | lt
  · simp [hk]
  · by_cases hv : v = Permissions.read <;> by_cases hli : lt = id <;>
      by_cases hx : (e.task lt).executed <;>
      simp_all [blockOn_task, addReader_task]

@[simp] theorem recordKey_tasks (k : Bytes) (v : Permissions) :
    (e.recordKey id k v).tasks = e.tasks := by
  unfold recordKey
  dsimp only
  split
  · rfl
  · split_ifs <;> rfl

@[simp] theorem recordKey_executable (k : Bytes) (v : Permissions) :
    (e.recordKey id k v).executable = e.executable := by
  unfold recordKey
  dsimp only
  split
  · rfl
  · split_ifs <;> rfl

@[simp] theorem recordKey_err (k : Bytes) (v : Permissions) :
    (e.recordKey id k v).err = e.err := by
  unfold recordKey
  dsimp only
  split
  · rfl
  · split_ifs <;> rfl

end Api

section Steps

variable (maxDependencies : ℕ) (calls : List Keys)

/-- `Run` up to its loop: the task gets the next id and a counter of `maxDependencies`. -/
def run (e : Executor ε) : Option (Executor ε) :=
  match e.caller, calls[e.tasks]? with
  | .idle, some keys =>
    some { e with
      task := update e.task e.tasks (Task.new maxDependencies)
      tasks := e.tasks + 1
      caller := .running e.tasks keys }
  | _, _ => none

/-- The loop of `Run` takes key `k`, in whatever order the map yields its keys. -/
def record (k : Bytes) (e : Executor ε) : Option (Executor ε) :=
  match e.caller with
  | .running id keys =>
    match keys.lookup k with
    | some v => some { e.recordKey id k v with caller := .running id (keys.erase k) }
    | none => none
  | _ => none

/-- The end of `Run`: the counter loses `maxDependencies - |dependencies|`, and the task is
sent on `executable` if that leaves it at zero or below. -/
def enqueue (e : Executor ε) : Option (Executor ε) :=
  match e.caller with
  | .running id keys =>
    if keys.entries = [] then
      let t := e.task id
      let c := t.dependencies - ((maxDependencies : ℤ) - t.deps.card)
      if 0 < c then
        some { e.modify id fun t => { t with phase := .pending, dependencies := c } with
          caller := .idle }
      else
        some { e.modify id fun t =>
            { t with phase := .pending, dependencies := c, pushes := t.pushes + 1 } with
          executable := id ::ₘ e.executable, caller := .idle }
    else none
  | _ => none

end Steps

/-- A worker receives task `t` from `executable`. -/
def receive (t : ℕ) (e : Executor ε) : Option (Executor ε) :=
  if t ∈ e.executable then
    some { e.modify t fun t => { t with phase := .received } with
      executable := e.executable.erase t }
  else none

/-- `runTask` checks `err`: it skips `f` if an error is set, and calls it otherwise. -/
def check (t : ℕ) (e : Executor ε) : Option (Executor ε) :=
  if (e.task t).phase = .received then
    if e.err.isSome then some (e.modify t fun t => { t with phase := .finished })
    else some (e.modify t fun t => { t with phase := .running, starts := t.starts + 1 })
  else none

/-- `f` returns `r`; an error is stored if none is (`CompareAndSwap(nil, err)`). -/
def finish (t : ℕ) (r : Option ε) (e : Executor ε) : Option (Executor ε) :=
  if (e.task t).phase = .running then
    some { e.modify t fun t => { t with phase := .finished, returns := t.returns + 1 } with
      err := e.err.or (r.map .task) }
  else none

/-- The deferred function of `runTask` leaves the `readers` of one task `x` it was reading. -/
def unread (t x : ℕ) (e : Executor ε) : Option (Executor ε) :=
  if (e.task t).phase = .finished ∧ x ∈ (e.task t).reading then
    some ((e.modify x fun u => { u with readers := (u.readers).erase t }).modify t
      fun u => { u with reading := u.reading.erase x })
  else none

/-- The tasks that `t`'s notification sends on `executable`: those whose counter it takes to
zero or below. -/
def released (e : Executor ε) (t : ℕ) : Finset ℕ :=
  (e.task t).blocked.filter fun b => (e.task b).dependencies - 1 ≤ 0

/-- The rest of the deferred function, under `t.l`: every blocked task's counter loses one,
those at zero are sent on `executable`, and `t` is executed and done. -/
def notify (t : ℕ) (e : Executor ε) : Option (Executor ε) :=
  if (e.task t).phase = .finished ∧ (e.task t).reading = ∅ then
    some { e with
      task := fun x =>
        if x = t then
          { e.task t with blocked := ∅, executed := true, phase := .done }
        else if x ∈ (e.task t).blocked then
          { e.task x with
            dependencies := (e.task x).dependencies - 1
            pushes := (e.task x).pushes + if x ∈ e.released t then 1 else 0 }
        else e.task x
      executable := e.executable + (e.released t).val }
  else none

/-- `Stop`: `CompareAndSwap(nil, ErrStopped)`. -/
def stop (e : Executor ε) : Executor ε := { e with err := e.err.or (some .stopped) }

/-- `Wait` returns once every task is done. -/
def wait (e : Executor ε) : Option (Executor ε) :=
  match e.caller with
  | .idle => if ∀ j < e.tasks, (e.task j).phase = .done then some { e with caller := .waited }
    else none
  | _ => none

/-! ## What each step does

One lemma per step, saying everything the step can do, guards included; the invariant proofs
start from these and never unfold a step. -/

section Inversion

variable {maxDependencies : ℕ} {calls : List Keys} {e e' : Executor ε} {t x : ℕ}

theorem run_eq_some (h : e.run maxDependencies calls = some e') :
    ∃ keys, e.caller = .idle ∧ calls[e.tasks]? = some keys ∧
      e' = { e with
        task := update e.task e.tasks (Task.new maxDependencies)
        tasks := e.tasks + 1
        caller := .running e.tasks keys } := by
  unfold run at h
  split at h
  · rename_i keys hc hk
    exact ⟨keys, hc, hk, (Option.some.inj h).symm⟩
  · cases h

theorem record_eq_some {k : Bytes} (h : e.record k = some e') :
    ∃ id keys v, e.caller = .running id keys ∧ keys.lookup k = some v ∧
      e' = { e.recordKey id k v with caller := .running id (keys.erase k) } := by
  unfold record at h
  split at h
  · rename_i id keys hc
    split at h
    · rename_i v hv
      exact ⟨id, keys, v, hc, hv, (Option.some.inj h).symm⟩
    · cases h
  · cases h

/-- The end of `Run`, in one form for both outcomes: `c` is what the counter holds after it. -/
theorem enqueue_eq_some (h : e.enqueue maxDependencies = some e') :
    ∃ id keys, e.caller = .running id keys ∧ keys.entries = [] ∧
      let c := (e.task id).dependencies - ((maxDependencies : ℤ) - (e.task id).deps.card)
      e' = { e.modify id (fun t => { t with
          phase := .pending, dependencies := c, pushes := t.pushes + if c ≤ 0 then 1 else 0 }) with
        executable := if c ≤ 0 then id ::ₘ e.executable else e.executable
        caller := .idle } := by
  unfold enqueue at h
  split at h
  · rename_i id keys hc
    split at h
    · rename_i hk
      refine ⟨id, keys, hc, hk, ?_⟩
      dsimp only at h ⊢
      split at h
      · rename_i hc
        rw [← Option.some.inj h, if_neg (by omega), if_neg (by omega)]
        simp
      · rename_i hc
        rw [← Option.some.inj h, if_pos (by omega), if_pos (by omega)]
    · cases h
  · cases h

theorem receive_eq_some (h : e.receive t = some e') :
    t ∈ e.executable ∧
      e' = { e.modify t (fun u => { u with phase := .received }) with
        executable := e.executable.erase t } := by
  unfold receive at h
  split at h
  · exact ⟨‹_›, (Option.some.inj h).symm⟩
  · cases h

theorem check_eq_some (h : e.check t = some e') :
    (e.task t).phase = .received ∧
      e' = e.modify t fun u => { u with
        phase := if e.err.isSome then .finished else .running
        starts := u.starts + if e.err.isSome then 0 else 1 } := by
  unfold check at h
  split at h
  · refine ⟨‹_›, ?_⟩
    split at h <;> rename_i herr
    · rw [← Option.some.inj h, if_pos herr, if_pos herr]
      simp only [Nat.add_zero]
    · rw [← Option.some.inj h, if_neg herr, if_neg herr]
  · cases h

theorem finish_eq_some {r : Option ε} (h : e.finish t r = some e') :
    (e.task t).phase = .running ∧
      e' = { e.modify t (fun u => { u with phase := .finished, returns := u.returns + 1 }) with
        err := e.err.or (r.map .task) } := by
  unfold finish at h
  split at h
  · exact ⟨‹_›, (Option.some.inj h).symm⟩
  · cases h

theorem unread_eq_some (h : e.unread t x = some e') :
    (e.task t).phase = .finished ∧ x ∈ (e.task t).reading ∧
      e' = (e.modify x fun u => { u with readers := u.readers.erase t }).modify t
        fun u => { u with reading := u.reading.erase x } := by
  unfold unread at h
  split at h
  · rename_i hc
    exact ⟨hc.1, hc.2, (Option.some.inj h).symm⟩
  · cases h

theorem notify_eq_some (h : e.notify t = some e') :
    (e.task t).phase = .finished ∧ (e.task t).reading = ∅ ∧
      e' = { e with
        task := fun x =>
          if x = t then
            { e.task t with blocked := ∅, executed := true, phase := .done }
          else if x ∈ (e.task t).blocked then
            { e.task x with
              dependencies := (e.task x).dependencies - 1
              pushes := (e.task x).pushes + if x ∈ e.released t then 1 else 0 }
          else e.task x
        executable := e.executable + (e.released t).val } := by
  unfold notify at h
  split at h
  · rename_i hc
    exact ⟨hc.1, hc.2, (Option.some.inj h).symm⟩
  · cases h

theorem wait_eq_some (h : e.wait = some e') :
    e.caller = .idle ∧ (∀ j < e.tasks, (e.task j).phase = .done) ∧
      e' = { e with caller := .waited } := by
  unfold wait at h
  split at h
  · rename_i hc
    split at h
    · exact ⟨hc, ‹_›, (Option.some.inj h).symm⟩
    · cases h
  · cases h

end Inversion

end Executor

/-- One step of the caller or of a worker. -/
inductive Action (ε : Type)
  | run
  | record (k : Bytes)
  | enqueue
  | receive (t : ℕ)
  | check (t : ℕ)
  | finish (t : ℕ) (r : Option ε)
  | unread (t x : ℕ)
  | notify (t : ℕ)
  | stop
  | wait

open Executor in
/-- The step function, for `Run` calls with the keys of `calls` in turn. -/
def next (maxDependencies : ℕ) (calls : List Keys) : Action ε → Executor ε → Option (Executor ε)
  | .run, e => e.run maxDependencies calls
  | .record k, e => e.record k
  | .enqueue, e => e.enqueue maxDependencies
  | .receive t, e => e.receive t
  | .check t, e => e.check t
  | .finish t r, e => e.finish t r
  | .unread t x, e => e.unread t x
  | .notify t, e => e.notify t
  | .stop, e => some e.stop
  | .wait, e => e.wait

/-- The executor as a transition system. -/
def system (maxDependencies : ℕ) (calls : List Keys) : System (Executor ε) (Action ε) :=
  ⟨next maxDependencies calls⟩

end Hypersdk.Executor
