import Hypersdk.State.Keys

/-!
# The fetcher

`fetcher/fetcher.go`. A `Fetcher` reads from the parent state `im` the keys transactions
declare, each key once, on a pool of workers. `Fetch` registers a transaction: a key never seen
gets an entry and a task, a key seen and not yet read gets the transaction on its `blocked`
list, and the transaction counts these keys in `blockers` and waits on a channel, `waiter`.
A worker takes a task and reads its key, and `set` caches what it read and counts the key off
each transaction it blocked, closing the waiter of those it was the last key of. `Get` waits on
the waiter, or on `stop`, and then reads the transaction's keys from the cache.

The model is a step function on the fetcher's state, one event a step. The lock `l` makes
`Fetch`'s registration and `set` atomic; a worker's read of `im` is taken with its `set`, which
is the same since `im` never changes. The tasks `Fetch` has yet to send, those in the channel
and the one a worker holds are all in `tasks`, and a worker may take any of them: every order in
which the workers finish is a run. Closing a nil or a closed channel and dereferencing a missing
entry are panics, and the step is `none` there, as it is for a step that cannot happen: a task
that is not pending, a worker after `Wait`, `Wait` before the workers are done.

`Invariant.lean` proves what holds in every reachable state: no step panics, every waiter is
closed once its keys are read, and `Get` returns exactly what `im` holds of the keys.
-/

namespace Hypersdk.Fetcher

set_option linter.dupNamespace false
set_option linter.unusedSectionVars false

open State

/-- What `im.GetValue` answers for a key. -/
inductive Lookup
  | found (v : Bytes)
  /-- `database.ErrNotFound`. -/
  | notFound
  /-- Any other error. -/
  | failed
  deriving DecidableEq

/-- The value `GetValue` returns, if any. -/
def Lookup.value : Lookup → Option Bytes
  | .found v => some v
  | _ => none

/-- The error that stops the fetcher. -/
inductive FetchError
  /-- `ErrStopped`, of `Stop`. -/
  | stopped
  /-- `ErrInvalidKeyValue`, of a value too long for `NumChunks`. -/
  | invalidKeyValue
  /-- The error of `GetValue`. -/
  | database
  deriving DecidableEq

/-- `data`; Go's `exists` is `present`. -/
structure Data where
  v : Bytes
  present : Bool
  chunks : ℕ
  deriving DecidableEq

/-- `key`: the data read, once it is, and the transactions waiting for it. -/
structure Key (ι : Type) where
  cache : Option Data
  blocked : List ι

/-- A waiter channel that is not nil. -/
inductive Chan
  | waiting
  | closed
  deriving DecidableEq

/-- `tx`; a nil `waiter` is `none`. -/
structure Tx where
  blockers : ℤ
  waiter : Option Chan
  keys : Keys

/-- `Fetcher`, without `im`, which is given to each step, and its locks. `waited` is whether
`Wait` has returned: the workers are gone and `setErr` is spent. -/
structure Fetcher (ι : Type) where
  keys : Bytes → Option (Key ι)
  txs : ι → Option Tx
  err : Option FetchError
  tasks : List Bytes
  waited : Bool

variable {ι : Type} [DecidableEq ι]

namespace Fetcher

/-- `New`. -/
def new : Fetcher ι := ⟨fun _ => none, fun _ => none, none, [], false⟩

/-- One turn of `set`'s loop: the transaction `id` has one blocker less, and its waiter is
closed when that was the last. -/
def release (txs : ι → Option Tx) (id : ι) : Option (ι → Option Tx) :=
  match txs id with
  | none => none
  | some tx =>
    let blockers := tx.blockers - 1
    if blockers = 0 then
      match tx.waiter with
      | some .waiting =>
        some (Function.update txs id (some { tx with blockers, waiter := some .closed }))
      | _ => none
    else some (Function.update txs id (some { tx with blockers }))

/-- `set`: cache the data of `k` and release the transactions it blocked. -/
def set (f : Fetcher ι) (k : Bytes) (d : Data) : Option (Fetcher ι) :=
  match f.keys k with
  | none => none
  | some key =>
    (key.blocked.foldlM release f.txs).map fun txs =>
      { f with keys := Function.update f.keys k (some ⟨some d, []⟩), txs }

/-- `handleErr`: the first error is kept, and none after `Wait` has spent `setErr`. -/
def handleErr (f : Fetcher ι) (err : FetchError) : Fetcher ι :=
  if f.err.isNone && !f.waited then { f with err := some err } else f

@[simp]
theorem keys_handleErr (f : Fetcher ι) (err : FetchError) : (f.handleErr err).keys = f.keys := by
  unfold handleErr
  split <;> rfl

@[simp]
theorem txs_handleErr (f : Fetcher ι) (err : FetchError) : (f.handleErr err).txs = f.txs := by
  unfold handleErr
  split <;> rfl

@[simp]
theorem tasks_handleErr (f : Fetcher ι) (err : FetchError) :
    (f.handleErr err).tasks = f.tasks := by
  unfold handleErr
  split <;> rfl

@[simp]
theorem waited_handleErr (f : Fetcher ι) (err : FetchError) :
    (f.handleErr err).waited = f.waited := by
  unfold handleErr
  split <;> rfl

/-- An error, once set, stays; before `Wait`, `handleErr` sets one. -/
theorem err_handleErr (f : Fetcher ι) (err : FetchError) :
    (f.handleErr err).err = if f.err.isNone && !f.waited then some err else f.err := by
  unfold handleErr
  split <;> rfl

/-- A worker's turn on the task of key `k`. -/
def runTask (im : Bytes → Lookup) (f : Fetcher ι) (k : Bytes) : Option (Fetcher ι) :=
  match im k with
  | .notFound => f.set k ⟨[], false, 0⟩
  | .failed => some (f.handleErr .database)
  | .found v =>
    match Keys.numChunksOf v with
    | none => some (f.handleErr .invalidKeyValue)
    | some numChunks => f.set k ⟨v, true, numChunks⟩

/-- One turn of `Fetch`'s loop over the keys, on the entries, the tasks and the blockers. -/
def registerKey (txID : ι) (acc : (Bytes → Option (Key ι)) × List Bytes × ℤ) (k : Bytes) :
    (Bytes → Option (Key ι)) × List Bytes × ℤ :=
  let (keys, tasks, blockers) := acc
  match keys k with
  | none => (Function.update keys k (some ⟨none, [txID]⟩), tasks ++ [k], blockers + 1)
  | some d =>
    -- a key already fetched does not block
    if d.cache.isSome then acc
    else (Function.update keys k (some { d with blocked := d.blocked ++ [txID] }), tasks,
      blockers + 1)

/-- `Fetch`. Its tasks go to `tasks`; sending one after `Wait` has closed the channel is a
panic. -/
def fetch (f : Fetcher ι) (txID : ι) (stateKeys : Keys) : Option (Fetcher ι) :=
  if f.err.isSome then some f
  else
    let (keys, tasks, blockers) := stateKeys.keys.foldl (registerKey txID) (f.keys, [], 0)
    let tx : Tx :=
      if blockers > 0 then ⟨blockers, some .waiting, stateKeys⟩ else ⟨0, none, stateKeys⟩
    if f.waited && !tasks.isEmpty then none
    else
      some { f with keys, txs := Function.update f.txs txID (some tx), tasks := f.tasks ++ tasks }

/-- `Stop`. -/
def stop (f : Fetcher ι) : Fetcher ι := f.handleErr .stopped

/-- `Wait`, which returns once the workers are done: every task is read, or an error has
stopped them. -/
def wait (f : Fetcher ι) : Option (Fetcher ι) :=
  if f.tasks = [] ∨ f.err.isSome then some { f with waited := true } else none

end Fetcher

/-- An event of a run: a call of the API, or a worker reading the key of a task. -/
inductive Event (ι : Type)
  | fetch (txID : ι) (stateKeys : Keys)
  | work (k : Bytes)
  | stop
  | wait

namespace Fetcher

/-- The fetcher after an event. -/
def step (im : Bytes → Lookup) (f : Fetcher ι) : Event ι → Option (Fetcher ι)
  | .fetch txID stateKeys => f.fetch txID stateKeys
  | .work k =>
    if k ∈ f.tasks && !f.waited then runTask im { f with tasks := f.tasks.erase k } k else none
  | .stop => some f.stop
  | .wait => f.wait

/-- The fetcher after a run. -/
def run (im : Bytes → Lookup) (f : Fetcher ι) (evs : List (Event ι)) : Option (Fetcher ι) :=
  evs.foldlM (step im) f

/-- One turn of `Get`'s loop over the keys: `none` where the key has no entry, which Go
dereferences. -/
def storeKey (f : Fetcher ι) (storage : Bytes → Option Bytes) (k : Bytes) :
    Option (Bytes → Option Bytes) :=
  (f.keys k).map fun key =>
    match key.cache with
    | some v => if v.present then Function.update storage k (some v.v) else storage
    | none => storage

/-- The map `Get` reads from the cache for `stateKeys`. -/
def storage (f : Fetcher ι) (stateKeys : Keys) : Option (Bytes → Option Bytes) :=
  stateKeys.keys.foldlM f.storeKey fun _ => none

end Fetcher

/-- What `Get` returns. -/
inductive Got
  | storage (m : Bytes → Option Bytes)
  /-- `ErrMissingTx`. -/
  | missingTx
  | failed (err : FetchError)

/-- `Get f txID r`: `Get(txID)` may return `r` in the state `f`. Once the waiter is closed,
or nil, the keys are read from the cache; while it is open `Get` waits, until `stop` is closed
with the error. -/
inductive Get (f : Fetcher ι) (txID : ι) : Got → Prop
  | missingTx : f.txs txID = none → Get f txID .missingTx
  | ready {tx : Tx} {m : Bytes → Option Bytes} : f.txs txID = some tx →
      tx.waiter ≠ some .waiting → f.storage tx.keys = some m → Get f txID (.storage m)
  | failed {tx : Tx} {err : FetchError} : f.txs txID = some tx → tx.waiter ≠ none →
      f.err = some err → Get f txID (.failed err)

end Hypersdk.Fetcher
