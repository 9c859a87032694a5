import Hypersdk.Foundations.System
import Mathlib

/-!
# The parallel worker pool

`ParallelWorkers` (`workers/parallel_workers.go`) runs jobs one after another on `n` worker
goroutines. A scheduler goroutine takes each job from the queue and hands its tasks, one at a
time over an unbuffered channel, to whichever worker receives; it counts them on a
`WaitGroup`, waits for the count to fall back to zero, sends the job's first error on the
job's result channel and clears it. `Stop` closes the queue, waits for the scheduler to
acknowledge, closes `stopWorkers` and then waits for one acknowledgement from each worker.

The model is the interleaving of those goroutines and of the client's calls: a state records
where each goroutine is and what the channels and shared fields hold, and an `Action` is one
atomic step of one goroutine (`next`). A task is known only by the error it returns.

* `sg_eq_inFlight`: the `WaitGroup` counter is the number of tasks handed over and not yet
  done, so it never goes below zero, and the scheduler completes a job only when none of its
  tasks is still running (`no_task_in_flight_of_complete`).
* `stop_returned_all_stopped`: `Stop` returns only once every worker has acknowledged.
* `exited_stable`: a worker that took the early return in `startWorker` (a task received
  while the job's error is set) never runs again, so from then on `Stop` never returns
  (`stop_never_returns_of_exited`); `worker_exits_on_task_after_error` reaches that state from
  any reachable state where a task is handed over after a failure.
-/

namespace Hypersdk.Workers

open Foundations Function

variable {E : Type} {n : ℕ}

/-- What a job's `Wait` receives: `ErrShutdown`, or the first error of its tasks. -/
inductive JobResult (E : Type)
  | shutdown
  | finished (err : Option E)
  deriving DecidableEq, Repr

/-- `ParallelJob`: the tasks buffered in its task channel (each by the error it returns),
whether `Done` closed that channel, whether the scheduler closed `completed`, and what it sent
on `result`. -/
structure ParallelJob (E : Type) where
  tasks : List (Option E)
  closed : Bool
  completed : Bool
  result : Option (JobResult E)

/-- A job as `NewJob` makes it. -/
def ParallelJob.empty : ParallelJob E := ⟨[], false, false, none⟩

/-- Where the scheduler goroutine of `processQueue` is. -/
inductive Scheduler (E : Type)
  /-- In `for j := range w.queue`. -/
  | receiving
  /-- In `for t := range j.tasks`. -/
  | feeding (j : ℕ)
  /-- After `w.sg.Add(1)`, blocked on `w.tasks <- t`. -/
  | handing (j : ℕ) (t : Option E)
  /-- In `w.sg.Wait()`. -/
  | waiting (j : ℕ)
  | exited
  deriving DecidableEq, Repr

/-- Where a worker goroutine of `startWorker` is. -/
inductive Worker (E : Type)
  /-- In the `select`. -/
  | ready
  /-- Received a task, about to read `w.err`. -/
  | checking (t : Option E)
  /-- Running a task that returns `t`. -/
  | running (t : Option E)
  /-- Received from `stopWorkers`, sending on `stoppedWorkers`. -/
  | acking
  /-- Acknowledged the stop and returned. -/
  | stopped
  /-- Returned after `w.sg.Done()`, without acknowledging. -/
  | exited
  deriving DecidableEq, Repr

/-- Where the call of `Stop` is. -/
inductive StopPhase
  | notCalled
  /-- In `<-w.ackShutdown`. -/
  | awaitingAck
  /-- In the loop over `<-w.stoppedWorkers`, with `acks` received. -/
  | collecting (acks : ℕ)
  | returned
  deriving DecidableEq, Repr

/-- A worker between receiving a task and its `w.sg.Done()`. -/
def Worker.inFlight : Worker E → Bool
  | .checking _ => true
  | .running _ => true
  | _ => false

/-- Whether a worker has acknowledged the stop. -/
def Worker.isStopped : Worker E → Bool
  | .stopped => true
  | _ => false

/-- The task the scheduler has counted and still offers: one while it is handing one over. -/
def Scheduler.offered : Scheduler E → ℕ
  | .handing _ _ => 1
  | _ => 0

/-- The acknowledgements `Stop` has received; it returns after `n`. -/
def StopPhase.acks (n : ℕ) : StopPhase → ℕ
  | .collecting acks => acks
  | .returned => n
  | _ => 0

/-- `ParallelWorkers` with `n` workers, its goroutines and the jobs made so far (numbered from
0). The closed channels `ackShutdown` and `stopWorkers` are flags. -/
structure ParallelWorkers (E : Type) (n : ℕ) where
  /-- The capacity of `queue`. -/
  maxJobs : ℕ
  jobs : ℕ → ParallelJob E
  jobCount : ℕ
  queue : List ℕ
  queueClosed : Bool
  shouldShutdown : Bool
  triggeredShutdown : Bool
  err : Option E
  sg : ℕ
  scheduler : Scheduler E
  workers : Fin n → Worker E
  ackShutdown : Bool
  stopWorkers : Bool
  stop : StopPhase

/-- The steps of the pool's goroutines and of its client. -/
inductive Action (E : Type) (n : ℕ)
  /-- `NewJob`. -/
  | newJob
  /-- `Go` on job `j` with a task returning `t`. -/
  | go (j : ℕ) (t : Option E)
  /-- `Done` on job `j`. -/
  | done (j : ℕ)
  /-- `Stop` up to `<-w.ackShutdown`. -/
  | stopBegin
  /-- `Stop` receives `ackShutdown` and closes `stopWorkers`. -/
  | stopAck
  /-- `Stop` receives worker `i`'s acknowledgement. -/
  | stopCollect (i : Fin n)
  /-- `Stop` leaves its loop. -/
  | stopReturn
  /-- The scheduler's `range w.queue` receives. -/
  | receive
  /-- The scheduler's `range j.tasks` receives. -/
  | feed
  /-- The scheduler's `w.sg.Wait()` returns and the job's result is sent. -/
  | complete
  /-- Worker `i` takes the `stopWorkers` case of its `select`. -/
  | workerStop (i : Fin n)
  /-- Worker `i` takes the `w.tasks` case of its `select`. -/
  | workerReceive (i : Fin n)
  /-- Worker `i` reads `w.err`. -/
  | workerCheck (i : Fin n)
  /-- Worker `i`'s task returns. -/
  | workerFinish (i : Fin n)

namespace ParallelWorkers

/-- `NewParallel`: every goroutine started, nothing queued. -/
def newParallel (n maxJobs : ℕ) : ParallelWorkers E n :=
  ⟨maxJobs, fun _ => .empty, 0, [], false, false, false, none, 0, .receiving, fun _ => .ready,
    false, false, .notCalled⟩

variable (w : ParallelWorkers E n)

/-- `NewJob`: a new job goes on the queue, once there is room; after shutdown it is refused
and nothing changes. -/
def newJob : Option (ParallelWorkers E n) :=
  if w.shouldShutdown || w.queueClosed || decide (w.maxJobs ≤ w.queue.length) then none
  else some { w with
    jobs := update w.jobs w.jobCount .empty
    jobCount := w.jobCount + 1
    queue := w.queue ++ [w.jobCount] }

/-- `Go`: buffer a task on a job whose task channel is open. -/
def go (j : ℕ) (t : Option E) : Option (ParallelWorkers E n) :=
  if j < w.jobCount ∧ (w.jobs j).closed = false then
    some { w with jobs := update w.jobs j { w.jobs j with tasks := (w.jobs j).tasks ++ [t] } }
  else none

/-- `Done`: close a job's task channel. -/
def done (j : ℕ) : Option (ParallelWorkers E n) :=
  if j < w.jobCount ∧ (w.jobs j).closed = false then
    some { w with jobs := update w.jobs j { w.jobs j with closed := true } }
  else none

/-- `Stop`, up to its wait for the scheduler: set `shouldShutdown` and close the queue. -/
def stopBegin : Option (ParallelWorkers E n) :=
  if w.stop = .notCalled then
    some { w with shouldShutdown := true, queueClosed := true, stop := .awaitingAck }
  else none

/-- `Stop` receives from the closed `ackShutdown` and closes `stopWorkers`. -/
def stopAck : Option (ParallelWorkers E n) :=
  if w.stop = .awaitingAck ∧ w.ackShutdown = true then
    some { w with stopWorkers := true, stop := .collecting 0 }
  else none

/-- `Stop` receives one acknowledgement, from a worker sending it. -/
def stopCollect (i : Fin n) : Option (ParallelWorkers E n) :=
  match w.stop, w.workers i with
  | .collecting acks, .acking =>
    if acks < n then
      some { w with workers := update w.workers i .stopped, stop := .collecting (acks + 1) }
    else none
  | _, _ => none

/-- `Stop` returns after `count` acknowledgements. -/
def stopReturn : Option (ParallelWorkers E n) :=
  if w.stop = .collecting n then some { w with stop := .returned } else none

/-- The scheduler takes job `j` off the queue: after shutdown it answers `ErrShutdown` at
once, otherwise it starts feeding the job's tasks. -/
def takeJob (j : ℕ) (rest : List ℕ) : ParallelWorkers E n :=
  if w.shouldShutdown then
    { w with queue := rest, jobs := update w.jobs j { w.jobs j with result := some .shutdown } }
  else { w with queue := rest, scheduler := .feeding j }

/-- The scheduler leaves its loop over the closed queue: it closes `ackShutdown` once, if a
shutdown was asked for, and exits. -/
def exitScheduler : ParallelWorkers E n :=
  if w.shouldShutdown && !w.triggeredShutdown then
    { w with triggeredShutdown := true, ackShutdown := true, scheduler := .exited }
  else { w with scheduler := .exited }

/-- The scheduler's `range w.queue`: take the next job, or exit on a closed, empty queue. -/
def receive : Option (ParallelWorkers E n) :=
  match w.scheduler, w.queue with
  | .receiving, j :: rest => some (w.takeJob j rest)
  | .receiving, [] => if w.queueClosed then some w.exitScheduler else none
  | _, _ => none

/-- The scheduler's `range j.tasks`: count the next task and offer it to the workers; on a
closed, empty task channel, wait for the count to drain. -/
def feed : Option (ParallelWorkers E n) :=
  match w.scheduler with
  | .feeding j =>
    match (w.jobs j).tasks with
    | t :: rest =>
      some { w with
        jobs := update w.jobs j { w.jobs j with tasks := rest }
        sg := w.sg + 1
        scheduler := .handing j t }
    | [] => if (w.jobs j).closed then some { w with scheduler := .waiting j } else none
  | _ => none

/-- `w.sg.Wait()` returns: close `completed`, send the job's error and reset it. -/
def complete : Option (ParallelWorkers E n) :=
  match w.scheduler with
  | .waiting j =>
    if w.sg = 0 then
      some { w with
        jobs := update w.jobs j
          { w.jobs j with completed := true, result := some (.finished w.err) }
        err := none
        scheduler := .receiving }
    else none
  | _ => none

/-- A ready worker takes the closed `stopWorkers`. -/
def workerStop (i : Fin n) : Option (ParallelWorkers E n) :=
  match w.workers i with
  | .ready => if w.stopWorkers then some { w with workers := update w.workers i .acking } else none
  | _ => none

/-- A ready worker receives the task the scheduler offers. -/
def workerReceive (i : Fin n) : Option (ParallelWorkers E n) :=
  match w.workers i, w.scheduler with
  | .ready, .handing j t =>
    some { w with workers := update w.workers i (.checking t), scheduler := .feeding j }
  | _, _ => none

/-- A worker that received a task reads `w.err`: if it is set, the worker calls `w.sg.Done()`
and returns; otherwise it runs the task. -/
def workerCheck (i : Fin n) : Option (ParallelWorkers E n) :=
  match w.workers i with
  | .checking t =>
    if w.err.isSome then some { w with sg := w.sg - 1, workers := update w.workers i .exited }
    else some { w with workers := update w.workers i (.running t) }
  | _ => none

/-- A task returns: its error is kept if none is set yet, and the worker goes back to its
`select`. -/
def workerFinish (i : Fin n) : Option (ParallelWorkers E n) :=
  match w.workers i with
  | .running t =>
    some { w with err := w.err.or t, sg := w.sg - 1, workers := update w.workers i .ready }
  | _ => none

/-- One step of the pool. -/
def next : Action E n → ParallelWorkers E n → Option (ParallelWorkers E n)
  | .newJob, w => w.newJob
  | .go j t, w => w.go j t
  | .done j, w => w.done j
  | .stopBegin, w => w.stopBegin
  | .stopAck, w => w.stopAck
  | .stopCollect i, w => w.stopCollect i
  | .stopReturn, w => w.stopReturn
  | .receive, w => w.receive
  | .feed, w => w.feed
  | .complete, w => w.complete
  | .workerStop i, w => w.workerStop i
  | .workerReceive i, w => w.workerReceive i
  | .workerCheck i, w => w.workerCheck i
  | .workerFinish i, w => w.workerFinish i

/-- The pool as a transition system. -/
def system : System (ParallelWorkers E n) (Action E n) := ⟨next⟩

/-! ## What each step does -/

variable {w} {w' : ParallelWorkers E n} {i : Fin n}

theorem newJob_eq_some (h : w.newJob = some w') :
    w.shouldShutdown = false ∧ w.queueClosed = false ∧ w.queue.length < w.maxJobs ∧
      w' = { w with
        jobs := update w.jobs w.jobCount .empty
        jobCount := w.jobCount + 1
        queue := w.queue ++ [w.jobCount] } := by
  unfold newJob at h
  split at h
  · cases h
  · rename_i hg
    simp only [Bool.or_eq_true, decide_eq_true_eq, not_or, not_le, Bool.not_eq_true] at hg
    exact ⟨hg.1.1, hg.1.2, hg.2, (Option.some.inj h).symm⟩

theorem go_eq_some {j : ℕ} {t : Option E} (h : w.go j t = some w') :
    j < w.jobCount ∧ (w.jobs j).closed = false ∧
      w' = { w with jobs := update w.jobs j { w.jobs j with tasks := (w.jobs j).tasks ++ [t] } } := by
  unfold go at h
  split at h
  · rename_i hg
    exact ⟨hg.1, hg.2, (Option.some.inj h).symm⟩
  · cases h

theorem done_eq_some {j : ℕ} (h : w.done j = some w') :
    j < w.jobCount ∧ (w.jobs j).closed = false ∧
      w' = { w with jobs := update w.jobs j { w.jobs j with closed := true } } := by
  unfold done at h
  split at h
  · rename_i hg
    exact ⟨hg.1, hg.2, (Option.some.inj h).symm⟩
  · cases h

theorem stopBegin_eq_some (h : w.stopBegin = some w') :
    w.stop = .notCalled ∧
      w' = { w with shouldShutdown := true, queueClosed := true, stop := .awaitingAck } := by
  unfold stopBegin at h
  split at h
  · rename_i hg
    exact ⟨hg, (Option.some.inj h).symm⟩
  · cases h

theorem stopAck_eq_some (h : w.stopAck = some w') :
    w.stop = .awaitingAck ∧ w.ackShutdown = true ∧
      w' = { w with stopWorkers := true, stop := .collecting 0 } := by
  unfold stopAck at h
  split at h
  · rename_i hg
    exact ⟨hg.1, hg.2, (Option.some.inj h).symm⟩
  · cases h

theorem stopCollect_eq_some (h : w.stopCollect i = some w') :
    ∃ acks, w.stop = .collecting acks ∧ w.workers i = .acking ∧ acks < n ∧
      w' = { w with workers := update w.workers i .stopped, stop := .collecting (acks + 1) } := by
  unfold stopCollect at h
  split at h
  · rename_i acks hs hw
    split at h
    · rename_i hlt
      exact ⟨acks, hs, hw, hlt, (Option.some.inj h).symm⟩
    · cases h
  · cases h

theorem stopReturn_eq_some (h : w.stopReturn = some w') :
    w.stop = .collecting n ∧ w' = { w with stop := .returned } := by
  unfold stopReturn at h
  split at h
  · rename_i hg
    exact ⟨hg, (Option.some.inj h).symm⟩
  · cases h

theorem receive_eq_some (h : w.receive = some w') :
    w.scheduler = .receiving ∧
      ((∃ j rest, w.queue = j :: rest ∧ w' = w.takeJob j rest) ∨
        (w.queue = [] ∧ w.queueClosed = true ∧ w' = w.exitScheduler)) := by
  unfold receive at h
  split at h
  · rename_i j rest hs hq
    exact ⟨hs, .inl ⟨j, rest, hq, (Option.some.inj h).symm⟩⟩
  · rename_i hs hq
    split at h
    · rename_i hc
      exact ⟨hs, .inr ⟨hq, hc, (Option.some.inj h).symm⟩⟩
    · cases h
  · cases h

theorem feed_eq_some (h : w.feed = some w') :
    ∃ j, w.scheduler = .feeding j ∧
      ((∃ t rest, (w.jobs j).tasks = t :: rest ∧
          w' = { w with
            jobs := update w.jobs j { w.jobs j with tasks := rest }
            sg := w.sg + 1
            scheduler := .handing j t }) ∨
        ((w.jobs j).tasks = [] ∧ (w.jobs j).closed = true ∧
          w' = { w with scheduler := .waiting j })) := by
  unfold feed at h
  split at h
  · rename_i j hs
    split at h
    · rename_i t rest ht
      exact ⟨j, hs, .inl ⟨t, rest, ht, (Option.some.inj h).symm⟩⟩
    · rename_i ht
      split at h
      · rename_i hc
        exact ⟨j, hs, .inr ⟨ht, hc, (Option.some.inj h).symm⟩⟩
      · cases h
  · cases h

theorem complete_eq_some (h : w.complete = some w') :
    ∃ j, w.scheduler = .waiting j ∧ w.sg = 0 ∧
      w' = { w with
        jobs := update w.jobs j
          { w.jobs j with completed := true, result := some (.finished w.err) }
        err := none
        scheduler := .receiving } := by
  unfold complete at h
  split at h
  · rename_i j hs
    split at h
    · rename_i hsg
      exact ⟨j, hs, hsg, (Option.some.inj h).symm⟩
    · cases h
  · cases h

theorem workerStop_eq_some (h : w.workerStop i = some w') :
    w.workers i = .ready ∧ w.stopWorkers = true ∧
      w' = { w with workers := update w.workers i .acking } := by
  unfold workerStop at h
  split at h
  · rename_i hw
    split at h
    · rename_i hs
      exact ⟨hw, hs, (Option.some.inj h).symm⟩
    · cases h
  · cases h

theorem workerReceive_eq_some (h : w.workerReceive i = some w') :
    ∃ j t, w.workers i = .ready ∧ w.scheduler = .handing j t ∧
      w' = { w with workers := update w.workers i (.checking t), scheduler := .feeding j } := by
  unfold workerReceive at h
  split at h
  · rename_i j t hw hs
    exact ⟨j, t, hw, hs, (Option.some.inj h).symm⟩
  · cases h

theorem workerCheck_eq_some (h : w.workerCheck i = some w') :
    ∃ t, w.workers i = .checking t ∧
      ((w.err.isSome = true ∧
          w' = { w with sg := w.sg - 1, workers := update w.workers i .exited }) ∨
        (w.err = none ∧ w' = { w with workers := update w.workers i (.running t) })) := by
  unfold workerCheck at h
  split at h
  · rename_i t hw
    split at h
    · rename_i he
      exact ⟨t, hw, .inl ⟨he, (Option.some.inj h).symm⟩⟩
    · rename_i he
      exact ⟨t, hw, .inr ⟨by simpa using he, (Option.some.inj h).symm⟩⟩
  · cases h

theorem workerFinish_eq_some (h : w.workerFinish i = some w') :
    ∃ t, w.workers i = .running t ∧
      w' = { w with err := w.err.or t, sg := w.sg - 1, workers := update w.workers i .ready } := by
  unfold workerFinish at h
  split at h
  · rename_i t hw
    exact ⟨t, hw, (Option.some.inj h).symm⟩
  · cases h

@[simp] theorem takeJob_workers (j : ℕ) (rest : List ℕ) :
    (w.takeJob j rest).workers = w.workers := by
  unfold takeJob; split <;> rfl

@[simp] theorem takeJob_stop (j : ℕ) (rest : List ℕ) : (w.takeJob j rest).stop = w.stop := by
  unfold takeJob; split <;> rfl

@[simp] theorem takeJob_sg (j : ℕ) (rest : List ℕ) : (w.takeJob j rest).sg = w.sg := by
  unfold takeJob; split <;> rfl

@[simp] theorem exitScheduler_workers : w.exitScheduler.workers = w.workers := by
  unfold exitScheduler; split <;> rfl

@[simp] theorem exitScheduler_stop : w.exitScheduler.stop = w.stop := by
  unfold exitScheduler; split <;> rfl

@[simp] theorem exitScheduler_sg : w.exitScheduler.sg = w.sg := by
  unfold exitScheduler; split <;> rfl

@[simp] theorem exitScheduler_scheduler : w.exitScheduler.scheduler = .exited := by
  unfold exitScheduler; split <;> rfl

@[simp] theorem takeJob_scheduler (j : ℕ) (rest : List ℕ) :
    (w.takeJob j rest).scheduler = if w.shouldShutdown then w.scheduler else .feeding j := by
  unfold takeJob; split <;> rfl

/-! ## The `WaitGroup` counter -/

/-- The counter is the number of tasks offered or running. -/
def SgInv (w : ParallelWorkers E n) : Prop :=
  w.sg = count (fun v : Worker E => v.inFlight = true) w.workers + w.scheduler.offered

theorem sgInv_newParallel (maxJobs : ℕ) : SgInv (newParallel n maxJobs : ParallelWorkers E n) := by
  have h : count (fun v : Worker E => v.inFlight = true) (fun _ : Fin n => .ready) = 0 :=
    count_eq_zero_iff.mpr fun _ => by simp [Worker.inFlight]
  simp [SgInv, newParallel, h, Scheduler.offered]

theorem sgInv_stable : system.Stable (SgInv : ParallelWorkers E n → Prop) := by
  intro a w w' h hi
  unfold SgInv at hi ⊢
  cases a with
  | newJob => obtain ⟨-, -, -, rfl⟩ := newJob_eq_some h; exact hi
  | go j t => obtain ⟨-, -, rfl⟩ := go_eq_some h; exact hi
  | done j => obtain ⟨-, -, rfl⟩ := done_eq_some h; exact hi
  | stopBegin => obtain ⟨-, rfl⟩ := stopBegin_eq_some h; exact hi
  | stopAck => obtain ⟨-, -, rfl⟩ := stopAck_eq_some h; exact hi
  | stopReturn => obtain ⟨-, rfl⟩ := stopReturn_eq_some h; exact hi
  | stopCollect i =>
    obtain ⟨acks, -, hw, -, rfl⟩ := stopCollect_eq_some h
    rwa [count_update_of_iff (by simp [hw, Worker.inFlight])]
  | receive =>
    obtain ⟨hs, ⟨j, rest, -, rfl⟩ | ⟨-, -, rfl⟩⟩ := receive_eq_some h
    · simp only [takeJob_sg, takeJob_workers, takeJob_scheduler, hs] at hi ⊢
      split <;> simpa [Scheduler.offered] using hi
    · simpa [hs, Scheduler.offered] using hi
  | feed =>
    obtain ⟨j, hs, ⟨t, rest, -, rfl⟩ | ⟨-, -, rfl⟩⟩ := feed_eq_some h
    · simp only [hs, Scheduler.offered] at hi ⊢
      omega
    · simpa [hs, Scheduler.offered] using hi
  | complete =>
    obtain ⟨j, hs, -, rfl⟩ := complete_eq_some h
    simpa [hs, Scheduler.offered] using hi
  | workerStop i =>
    obtain ⟨hw, -, rfl⟩ := workerStop_eq_some h
    rwa [count_update_of_iff (by simp [hw, Worker.inFlight])]
  | workerReceive i =>
    obtain ⟨j, t, hw, hs, rfl⟩ := workerReceive_eq_some h
    have hc : count (fun v : Worker E => v.inFlight = true) (update w.workers i (.checking t)) =
        count (fun v : Worker E => v.inFlight = true) w.workers + 1 :=
      count_update_of_not_of (by simp [hw, Worker.inFlight]) (by simp [Worker.inFlight])
    simp only [hs, Scheduler.offered] at hi ⊢
    omega
  | workerCheck i =>
    obtain ⟨t, hw, ⟨-, rfl⟩ | ⟨-, rfl⟩⟩ := workerCheck_eq_some h
    · have hc : count (fun v : Worker E => v.inFlight = true) (update w.workers i .exited) + 1 =
          count (fun v : Worker E => v.inFlight = true) w.workers :=
        count_update_of_of_not (by simp [hw, Worker.inFlight]) (by simp [Worker.inFlight])
      dsimp only
      omega
    · rwa [count_update_of_iff (by simp [hw, Worker.inFlight])]
  | workerFinish i =>
    obtain ⟨t, hw, rfl⟩ := workerFinish_eq_some h
    have hc : count (fun v : Worker E => v.inFlight = true) (update w.workers i .ready) + 1 =
        count (fun v : Worker E => v.inFlight = true) w.workers :=
      count_update_of_of_not (by simp [hw, Worker.inFlight]) (by simp [Worker.inFlight])
    dsimp only
    omega

/-- **The `WaitGroup` counter is the number of tasks in flight**: counted by the scheduler and
not yet done, whether offered or held by a worker. -/
theorem sg_eq_inFlight {maxJobs : ℕ} (h : system.Reaches (newParallel n maxJobs) w) :
    w.sg = count (fun v : Worker E => v.inFlight = true) w.workers + w.scheduler.offered :=
  sgInv_stable.reaches h (sgInv_newParallel maxJobs)

/-- A worker's `w.sg.Done()` never takes the counter below zero. -/
theorem sg_pos_of_inFlight {maxJobs : ℕ} (h : system.Reaches (newParallel n maxJobs) w)
    (hi : (w.workers i).inFlight = true) : 0 < w.sg := by
  rw [sg_eq_inFlight h]
  have := count_pos_of (p := fun v : Worker E => v.inFlight = true) hi
  omega

/-- The scheduler sends a job's result only when no task of the job is still running. -/
theorem no_task_in_flight_of_complete {maxJobs : ℕ}
    (h : system.Reaches (newParallel n maxJobs) w) (hc : w.complete = some w') (i : Fin n) :
    (w.workers i).inFlight = false := by
  obtain ⟨j, -, hsg, -⟩ := complete_eq_some hc
  have hsum := sg_eq_inFlight h
  rw [hsg] at hsum
  have hzero : count (fun v : Worker E => v.inFlight = true) w.workers = 0 := by omega
  simpa using count_eq_zero_iff.mp hzero i

/-! ## Acknowledgements of the stop -/

/-- `Stop` has received one acknowledgement from each worker that has stopped. -/
def AckInv (w : ParallelWorkers E n) : Prop :=
  count (fun v : Worker E => v.isStopped = true) w.workers = w.stop.acks n

theorem ackInv_newParallel (maxJobs : ℕ) : AckInv (newParallel n maxJobs : ParallelWorkers E n) :=
  count_eq_zero_iff.mpr fun _ => by simp [newParallel, Worker.isStopped]

theorem ackInv_stable : system.Stable (AckInv : ParallelWorkers E n → Prop) := by
  intro a w w' h hi
  unfold AckInv at hi ⊢
  cases a with
  | newJob => obtain ⟨-, -, -, rfl⟩ := newJob_eq_some h; exact hi
  | go j t => obtain ⟨-, -, rfl⟩ := go_eq_some h; exact hi
  | done j => obtain ⟨-, -, rfl⟩ := done_eq_some h; exact hi
  | stopBegin =>
    obtain ⟨hs, rfl⟩ := stopBegin_eq_some h
    simpa [hs, StopPhase.acks] using hi
  | stopAck =>
    obtain ⟨hs, -, rfl⟩ := stopAck_eq_some h
    simpa [hs, StopPhase.acks] using hi
  | stopReturn =>
    obtain ⟨hs, rfl⟩ := stopReturn_eq_some h
    simpa [hs, StopPhase.acks] using hi
  | stopCollect i =>
    obtain ⟨acks, hs, hw, -, rfl⟩ := stopCollect_eq_some h
    rw [hs] at hi
    rw [count_update_of_not_of (by simp [hw, Worker.isStopped]) (by simp [Worker.isStopped])]
    simpa [StopPhase.acks] using hi
  | receive =>
    obtain ⟨-, ⟨j, rest, -, rfl⟩ | ⟨-, -, rfl⟩⟩ := receive_eq_some h <;> simpa using hi
  | feed => obtain ⟨j, -, ⟨t, rest, -, rfl⟩ | ⟨-, -, rfl⟩⟩ := feed_eq_some h <;> exact hi
  | complete => obtain ⟨j, -, -, rfl⟩ := complete_eq_some h; exact hi
  | workerStop i =>
    obtain ⟨hw, -, rfl⟩ := workerStop_eq_some h
    rwa [count_update_of_iff (by simp [hw, Worker.isStopped])]
  | workerReceive i =>
    obtain ⟨j, t, hw, -, rfl⟩ := workerReceive_eq_some h
    rwa [count_update_of_iff (by simp [hw, Worker.isStopped])]
  | workerCheck i =>
    obtain ⟨t, hw, ⟨-, rfl⟩ | ⟨-, rfl⟩⟩ := workerCheck_eq_some h <;>
      rwa [count_update_of_iff (by simp [hw, Worker.isStopped])]
  | workerFinish i =>
    obtain ⟨t, hw, rfl⟩ := workerFinish_eq_some h
    rwa [count_update_of_iff (by simp [hw, Worker.isStopped])]

/-- **`Stop` returns only once every worker has acknowledged it.** -/
theorem stop_returned_all_stopped {maxJobs : ℕ} (h : system.Reaches (newParallel n maxJobs) w)
    (hr : w.stop = .returned) (i : Fin n) : w.workers i = .stopped := by
  have hacks : AckInv w := ackInv_stable.reaches h (ackInv_newParallel maxJobs)
  rw [AckInv, hr, StopPhase.acks] at hacks
  have hi := count_eq_card_iff.mp (hacks.trans (Fintype.card_fin n).symm) i
  revert hi
  cases w.workers i <;> simp [Worker.isStopped]

/-! ## Workers that exit early -/

/-- A worker that returned without acknowledging never moves again. -/
theorem exited_stable (i : Fin n) :
    system.Stable fun w : ParallelWorkers E n => w.workers i = .exited := by
  intro a w w' h hi
  -- every step that moves a worker moves it from a state other than `exited`
  have frame : ∀ {j : Fin n} {v : Worker E}, w.workers j ≠ .exited →
      update w.workers j v i = .exited := by
    intro j v hj
    have hij : i ≠ j := by
      rintro rfl
      exact hj hi
    rw [update_of_ne hij]
    exact hi
  cases a with
  | newJob => obtain ⟨-, -, -, rfl⟩ := newJob_eq_some h; exact hi
  | go j t => obtain ⟨-, -, rfl⟩ := go_eq_some h; exact hi
  | done j => obtain ⟨-, -, rfl⟩ := done_eq_some h; exact hi
  | stopBegin => obtain ⟨-, rfl⟩ := stopBegin_eq_some h; exact hi
  | stopAck => obtain ⟨-, -, rfl⟩ := stopAck_eq_some h; exact hi
  | stopReturn => obtain ⟨-, rfl⟩ := stopReturn_eq_some h; exact hi
  | stopCollect j =>
    obtain ⟨acks, -, hw, -, rfl⟩ := stopCollect_eq_some h
    exact frame (by simp [hw])
  | receive =>
    obtain ⟨-, ⟨j, rest, -, rfl⟩ | ⟨-, -, rfl⟩⟩ := receive_eq_some h <;> simpa using hi
  | feed => obtain ⟨j, -, ⟨t, rest, -, rfl⟩ | ⟨-, -, rfl⟩⟩ := feed_eq_some h <;> exact hi
  | complete => obtain ⟨j, -, -, rfl⟩ := complete_eq_some h; exact hi
  | workerStop j =>
    obtain ⟨hw, -, rfl⟩ := workerStop_eq_some h
    exact frame (by simp [hw])
  | workerReceive j =>
    obtain ⟨k, t, hw, -, rfl⟩ := workerReceive_eq_some h
    exact frame (by simp [hw])
  | workerCheck j =>
    obtain ⟨t, hw, ⟨-, rfl⟩ | ⟨-, rfl⟩⟩ := workerCheck_eq_some h <;> exact frame (by simp [hw])
  | workerFinish j =>
    obtain ⟨t, hw, rfl⟩ := workerFinish_eq_some h
    exact frame (by simp [hw])

/-- **Once a worker has exited early, `Stop` never returns**, whatever the pool and its client
do next: it waits for an acknowledgement the worker will never send. -/
theorem stop_never_returns_of_exited {maxJobs : ℕ} {w'' : ParallelWorkers E n}
    (h : system.Reaches (newParallel n maxJobs) w) (hi : w.workers i = .exited)
    (h' : system.Reaches w w'') : w''.stop ≠ .returned := by
  intro hr
  have hex : w''.workers i = .exited := (exited_stable i).reaches h' hi
  have hst := stop_returned_all_stopped (h.trans h') hr i
  rw [hex] at hst
  cases hst

/-- A task handed over while the current job's error is set makes the worker that receives it
exit, with `stopWorkers` still open, and from then on `Stop` never returns. -/
theorem worker_exits_on_task_after_error {maxJobs j : ℕ} {t : Option E}
    (h : system.Reaches (newParallel n maxJobs) w) (herr : w.err.isSome = true)
    (hs : w.scheduler = .handing j t) (hw : w.workers i = .ready) (hstop : w.stopWorkers = false) :
    ∃ w' : ParallelWorkers E n, system.Reaches (newParallel n maxJobs) w' ∧
      w'.workers i = .exited ∧ w'.stopWorkers = false ∧
      ∀ w'', system.Reaches w' w'' → w''.stop ≠ .returned := by
  let w₁ : ParallelWorkers E n :=
    { w with workers := update w.workers i (.checking t), scheduler := .feeding j }
  let w₂ : ParallelWorkers E n :=
    { w₁ with sg := w₁.sg - 1, workers := update w₁.workers i .exited }
  have h₁ : system.next (.workerReceive i) w = some w₁ := by
    simp [system, next, workerReceive, hw, hs, w₁]
  have h₂ : system.next (.workerCheck i) w₁ = some w₂ := by
    simp [system, next, workerCheck, herr, w₁, w₂]
  have hreach : system.Reaches (newParallel n maxJobs) w₂ := (h.tail h₁).tail h₂
  have hex : w₂.workers i = .exited := by simp [w₂]
  exact ⟨w₂, hreach, hex, hstop, fun _ h' => stop_never_returns_of_exited hreach hex h'⟩

/-- One worker; a job of two tasks, the first failing, run up to the second task's hand-over. -/
def failingSchedule : List (Action Unit 1) :=
  [.newJob, .go 0 (some ()), .go 0 none, .done 0, .receive, .feed, .workerReceive 0,
    .workerCheck 0, .workerFinish 0, .feed]

theorem one_worker_exits_on_failing_job :
    ∃ w' : ParallelWorkers Unit 1, system.Reaches (newParallel 1 1) w' ∧
      w'.workers 0 = .exited ∧ w'.stopWorkers = false ∧
      ∀ w'', system.Reaches w' w'' → w''.stop ≠ .returned :=
  worker_exits_on_task_after_error
    (System.reaches_of_run (rfl : system.run failingSchedule (newParallel 1 1) =
      some ((system.run failingSchedule (newParallel 1 1)).getD (newParallel 1 1))))
    rfl rfl rfl rfl

end ParallelWorkers

end Hypersdk.Workers
