import Hypersdk.Executor.Executor

/-!
# The executor orders conflicting tasks and runs each once

The invariant `Inv` of the executor's reachable states, and what follows from it.

* The counter of a task is `maxDependencies - |deps|` plus the number of its dependencies that
  have not executed while `Run` records it, and that number afterwards (`Inv.counter`); a task is
  sent on `executable` once that number is zero, and only then (`Inv.pushes`). Only while `Run`
  records a task can a notification find it, and then the first term keeps its counter
  positive: this is where fewer than `maxDependencies` dependencies per task is needed.
* For each key, every task that recorded it before the key's node is ordered before the node,
  unless it is one of the node's readers and only read the key (`Inv.node_last`); a new writer
  blocks on exactly those readers and on the node, so that any two tasks with a conflict on a
  key are ordered (`Inv.ordered`). `i` is ordered before `j` when `j` waits on `i` through a
  chain of dependencies, or `f` of `i` is over: a task leaves `executable` only once its
  dependencies executed, so waiting is as good as having run (`Before.finished_of_taken`).
* **`f_returns_before_conflicting_start`**: in every reachable state, a task's `f` has started
  only if the `f` of every earlier task with a conflicting key has returned.
* **`pushed_once_and_ran_once`**: every task is sent on `executable` at most once; once `Wait`
  returns without an error, every task was sent exactly once and its `f` ran exactly once.
-/

namespace Hypersdk.Executor

set_option linter.dupNamespace false

open Foundations Function State

variable {ε : Type}

/-- The task the caller is recording, if it is in `Run`. -/
def Caller.current : Caller → Option ℕ
  | .running id _ => some id
  | _ => none

/-- The keys task `j` has still to record: those of the `Run` in progress, if it is `j`'s. -/
def Caller.pending : Caller → ℕ → Keys
  | .running id keys, j => if id = j then keys else ∅
  | _, _ => ∅

/-- Two recorded keys conflict: the same key, not both `state.Read`. -/
def Conflict (a b : Bytes × Permissions) : Prop :=
  a.1 = b.1 ∧ (a.2 ≠ Permissions.read ∨ b.2 ≠ Permissions.read)

namespace Executor

/-- The dependencies of `j` that have not executed: what its counter still waits for. -/
def waitingOn (e : Executor ε) (j : ℕ) : Finset ℕ :=
  (e.task j).deps.filter fun x => (e.task x).executed = false

/-- `j` waits on `i`, directly or through a chain of dependencies. -/
def DependsOn (e : Executor ε) : ℕ → ℕ → Prop :=
  Relation.TransGen fun x y => x ∈ (e.task y).deps

/-- `i` is ordered before `j`: the `f` of `i` is over, or `j` waits on `i`. -/
def Before (e : Executor ε) (i j : ℕ) : Prop :=
  5 ≤ (e.task i).phase.rank ∨ e.DependsOn i j

variable {e e' : Executor ε} {i j m : ℕ}

/-- Dependencies and phases only grow along a step, and so does the order. -/
theorem Before.mono (hdeps : ∀ j, (e.task j).deps ⊆ (e'.task j).deps)
    (hrank : ∀ j, (e.task j).phase.rank ≤ (e'.task j).phase.rank) (h : e.Before i j) :
    e'.Before i j := by
  rcases h with h | h
  · exact .inl (le_trans h (hrank i))
  · exact .inr (Relation.TransGen.mono (fun x y hxy => hdeps y hxy) i j h)

theorem Before.of_mem_deps (h : e.Before i m) (hm : m ∈ (e.task j).deps) : e.Before i j := by
  rcases h with h | h
  · exact .inl h
  · exact .inr (Relation.TransGen.tail h hm)

/-- A task that left `executable` waits on nothing that has not executed; what it depends on,
through any chain, is therefore done. -/
theorem done_of_dependsOn
    (htaken : ∀ j, 3 ≤ (e.task j).phase.rank → e.waitingOn j = ∅)
    (hexec : ∀ x, (e.task x).executed = true ↔ (e.task x).phase = .done)
    (h : e.DependsOn i j) (hj : 3 ≤ (e.task j).phase.rank) : (e.task i).phase = .done := by
  -- the direct dependencies of a started task have executed
  have hdirect : ∀ x y, x ∈ (e.task y).deps → 3 ≤ (e.task y).phase.rank →
      (e.task x).phase = .done := by
    intro x y hx hy
    have hw := htaken y hy
    rw [waitingOn, Finset.filter_eq_empty_iff] at hw
    have : (e.task x).executed = true := by simpa using hw hx
    exact (hexec x).mp this
  induction h with
  | single hx => exact hdirect _ _ hx hj
  | tail _ hm ih =>
    apply ih
    rw [hdirect _ _ hm hj]
    decide

theorem Before.finished_of_taken
    (htaken : ∀ j, 3 ≤ (e.task j).phase.rank → e.waitingOn j = ∅)
    (hexec : ∀ x, (e.task x).executed = true ↔ (e.task x).phase = .done)
    (h : e.Before i j) (hj : 3 ≤ (e.task j).phase.rank) : 5 ≤ (e.task i).phase.rank := by
  rcases h with h | h
  · exact h
  · rw [done_of_dependsOn htaken hexec h hj]
    decide

/-! ## The invariant -/

section Invariant

variable (maxDependencies : ℕ) (calls : List Keys)

/-- How tasks are made and what they record: tasks are made in order, only the task of the
`Run` in progress is being recorded, and it records each key of its call once. -/
structure Shape (e : Executor ε) : Prop where
  absent : ∀ j, e.tasks ≤ j → e.task j = Task.absent
  tasks_le : e.tasks ≤ calls.length
  setup_iff : ∀ j, (e.task j).phase = .setup ↔ e.caller.current = some j
  current_last : ∀ j, e.caller.current = some j → j + 1 = e.tasks
  recorded_iff : ∀ j < e.tasks, ∀ k p,
    (k, p) ∈ (e.task j).recorded ∨ (e.caller.pending j).lookup k = some p ↔
      (calls.getD j ∅).lookup k = some p
  recorded_fresh : ∀ j k p, (k, p) ∈ (e.task j).recorded → (e.caller.pending j).lookup k = none
  deps_lt : ∀ j, ∀ x ∈ (e.task j).deps, x < j
  executed_iff : ∀ x, (e.task x).executed = true ↔ (e.task x).phase = .done
  reading_iff : ∀ r x, x ∈ (e.task r).reading ↔ r ∈ (e.task x).readers
  reading_live : ∀ r x, x ∈ (e.task r).reading → (e.task r).phase.rank ≤ 5
  created : ∀ j < e.tasks, (e.task j).phase ≠ .absent

/-- The counting: `blocked` mirrors the dependencies that have not executed, the counter holds
their number (plus the inflation while `Run` records), and a task is sent on `executable` once
that number is zero. -/
structure Counts (e : Executor ε) : Prop where
  blocked_iff : ∀ x j, j ∈ (e.task x).blocked ↔
    x ∈ (e.task j).deps ∧ (e.task x).executed = false
  counter : ∀ j, (e.task j).dependencies =
    (if (e.task j).phase = .setup then (maxDependencies : ℤ) - (e.task j).deps.card else 0) +
      (e.waitingOn j).card
  pushes : ∀ j, (e.task j).pushes = if 2 ≤ (e.task j).phase.rank ∧ e.waitingOn j = ∅ then 1 else 0
  executable : ∀ j, e.executable.count j =
    if (e.task j).phase = .pending ∧ e.waitingOn j = ∅ then 1 else 0
  taken : ∀ j, 3 ≤ (e.task j).phase.rank → e.waitingOn j = ∅

/-- The order: each key's node comes after every task that recorded the key before it, save
the node's readers that only read it; and tasks with conflicting keys are ordered. -/
structure Order (e : Executor ε) : Prop where
  node_recorded : ∀ k lt, e.nodes k = some lt → ∃ p, (k, p) ∈ (e.task lt).recorded
  node_last : ∀ k lt, e.nodes k = some lt → ∀ i p, (k, p) ∈ (e.task i).recorded → i ≠ lt →
    e.Before i lt ∨ p = Permissions.read ∧ i ∈ (e.task lt).readers
  node_none : ∀ k, e.nodes k = none → ∀ i p, (k, p) ∉ (e.task i).recorded
  ordered : ∀ i j a b, i < j → a ∈ (e.task i).recorded → b ∈ (e.task j).recorded →
    Conflict a b → e.Before i j

/-- The runs of `f`: started at most once, returned once started and over, skipped only under
an error, and started only after the `f` of every earlier conflicting task returned. -/
structure Runs (e : Executor ε) : Prop where
  starts_le : ∀ t, (e.task t).starts ≤ 1
  starts_zero : ∀ t, (e.task t).phase.rank ≤ 3 → (e.task t).starts = 0
  running : ∀ t, (e.task t).phase = .running → (e.task t).starts = 1
  returns : ∀ t, (e.task t).returns = if 5 ≤ (e.task t).phase.rank then (e.task t).starts else 0
  skipped : ∀ t, 5 ≤ (e.task t).phase.rank → (e.task t).starts = 0 → e.err.isSome
  returned_first : ∀ i j a b, i < j → a ∈ (e.task i).recorded → b ∈ (e.task j).recorded →
    Conflict a b → (e.task j).starts = 1 → (e.task i).returns = 1

/-- The invariant of the reachable states. -/
structure Inv (e : Executor ε) : Prop where
  shape : Shape calls e
  counts : Counts maxDependencies e
  order : Order e
  runs : Runs e

/-- What `New` assumes: no task has as many dependencies as `maxDependencies`. -/
def DepsBelow (e : Executor ε) : Prop := ∀ j < e.tasks, (e.task j).deps.card < maxDependencies

end Invariant

/-! Each part of the invariant reads only some fields of the executor; a step that leaves them
alone keeps that part. -/

section Frame

variable {maxDependencies : ℕ} {calls : List Keys}

theorem Shape.frame (h : Shape calls e) (ht : e'.task = e.task) (hn : e'.tasks = e.tasks)
    (hc : e'.caller = e.caller) : Shape calls e' := by
  obtain ⟨⟩ := e
  obtain ⟨⟩ := e'
  simp only at ht hn hc
  subst ht hn hc
  exact ⟨h.1, h.2, h.3, h.4, h.5, h.6, h.7, h.8, h.9, h.10, h.11⟩

theorem Counts.frame (h : Counts maxDependencies e) (ht : e'.task = e.task)
    (hx : e'.executable = e.executable) : Counts maxDependencies e' := by
  obtain ⟨⟩ := e
  obtain ⟨⟩ := e'
  simp only at ht hx
  subst ht hx
  exact ⟨h.1, h.2, h.3, h.4, h.5⟩

theorem Order.frame (h : e.Order) (ht : e'.task = e.task) (hn : e'.nodes = e.nodes) :
    e'.Order := by
  obtain ⟨⟩ := e
  obtain ⟨⟩ := e'
  simp only at ht hn
  subst ht hn
  exact ⟨h.1, h.2, h.3, h.4⟩

/-- `Order` reads the nodes, the recorded keys, the readers and `Before`: a step that keeps the
first three, only adds dependencies and only advances phases keeps it. -/
theorem Order.grow (h : e.Order) (hn : e'.nodes = e.nodes)
    (hrec : ∀ j, (e'.task j).recorded = (e.task j).recorded)
    (hreaders : ∀ j, (e'.task j).readers = (e.task j).readers)
    (hdeps : ∀ j, (e.task j).deps ⊆ (e'.task j).deps)
    (hrank : ∀ j, (e.task j).phase.rank ≤ (e'.task j).phase.rank) : e'.Order := by
  have hmono : ∀ {i j}, e.Before i j → e'.Before i j := Before.mono hdeps hrank
  refine ⟨?_, ?_, ?_, ?_⟩
  · intro k lt hk
    rw [hn] at hk
    simpa only [hrec] using h.node_recorded k lt hk
  · intro k lt hk i p hi hne
    rw [hn] at hk
    rw [hrec] at hi
    rw [hreaders]
    exact (h.node_last k lt hk i p hi hne).imp_left hmono
  · intro k hk i p
    rw [hn] at hk
    rw [hrec]
    exact h.node_none k hk i p
  · intro i j a b hij ha hb hab
    rw [hrec] at ha hb
    exact hmono (h.ordered i j a b hij ha hb hab)

theorem Runs.frame (h : e.Runs) (ht : e'.task = e.task) (herr : e'.err = e.err) : e'.Runs := by
  obtain ⟨⟩ := e
  obtain ⟨⟩ := e'
  simp only at ht herr
  subst ht herr
  exact ⟨h.1, h.2, h.3, h.4, h.5, h.6⟩

/-- A worker step on task `t` between receiving it and finishing it: it changes only the task's
phase, forward and short of `done`, and its counts of starts and returns. -/
structure LocalStep (e e' : Executor ε) (t : ℕ) : Prop where
  task_ne : ∀ j, j ≠ t → e'.task j = e.task j
  task_eq : e'.task t = { e.task t with
    phase := (e'.task t).phase, starts := (e'.task t).starts, returns := (e'.task t).returns }
  tasks : e'.tasks = e.tasks
  caller : e'.caller = e.caller
  nodes : e'.nodes = e.nodes
  rank_le : (e.task t).phase.rank ≤ (e'.task t).phase.rank
  rank_from : 2 ≤ (e.task t).phase.rank
  rank_to : (e'.task t).phase.rank ≤ 5

namespace LocalStep

variable {t : ℕ} (hl : LocalStep e e' t)
include hl

theorem field {α : Type} (f : Task → α)
    (hf : ∀ u : Task, ∀ q s r, f { u with phase := q, starts := s, returns := r } = f u) (j : ℕ) :
    f (e'.task j) = f (e.task j) := by
  by_cases hj : j = t
  · subst hj
    rw [hl.task_eq, hf]
  · rw [hl.task_ne j hj]

theorem deps_eq (j : ℕ) : (e'.task j).deps = (e.task j).deps := hl.field Task.deps (by simp) j

theorem executed_eq (j : ℕ) : (e'.task j).executed = (e.task j).executed :=
  hl.field Task.executed (by simp) j

theorem waitingOn_eq (j : ℕ) : e'.waitingOn j = e.waitingOn j := by
  simp only [waitingOn, hl.deps_eq, hl.executed_eq]

theorem rank_mono (j : ℕ) : (e.task j).phase.rank ≤ (e'.task j).phase.rank := by
  by_cases hj : j = t
  · subst hj
    exact hl.rank_le
  · rw [hl.task_ne j hj]

/-- The phase of `t` is neither `setup` nor `done`, before or after. -/
theorem phase_ne (j : ℕ) (q : Phase) (hq : q = .setup ∨ q = .done ∨ q = .absent) :
    (e'.task j).phase = q ↔ (e.task j).phase = q := by
  by_cases hj : j = t
  · subst hj
    have h₁ := hl.rank_from
    have h₂ := hl.rank_le
    have h₃ := hl.rank_to
    constructor <;> intro hp <;> rcases hq with rfl | rfl | rfl <;> simp [hp, Phase.rank] at * <;>
      omega
  · rw [hl.task_ne j hj]

theorem shape (h : Shape calls e) : Shape calls e' where
  absent j hj := by
    have hne : j ≠ t := by
      rintro rfl
      have := hl.rank_from
      rw [h.absent j (hl.tasks ▸ hj)] at this
      simp [Task.absent, Phase.rank] at this
    rw [hl.task_ne j hne]
    exact h.absent j (hl.tasks ▸ hj)
  tasks_le := hl.tasks ▸ h.tasks_le
  setup_iff j := by
    rw [hl.phase_ne j _ (.inl rfl), hl.caller]
    exact h.setup_iff j
  current_last j := by
    rw [hl.caller, hl.tasks]
    exact h.current_last j
  recorded_iff j := by
    rw [hl.field Task.recorded (by simp) j, hl.caller, hl.tasks]
    exact h.recorded_iff j
  recorded_fresh j := by
    rw [hl.field Task.recorded (by simp) j, hl.caller]
    exact h.recorded_fresh j
  deps_lt j := by
    rw [hl.deps_eq]
    exact h.deps_lt j
  executed_iff x := by
    rw [hl.executed_eq, hl.phase_ne x _ (.inr (.inl rfl))]
    exact h.executed_iff x
  reading_iff r x := by
    rw [hl.field Task.reading (by simp) r, hl.field Task.readers (by simp) x]
    exact h.reading_iff r x
  reading_live r x hr := by
    rw [hl.field Task.reading (by simp) r] at hr
    by_cases hrt : r = t
    · subst hrt
      exact hl.rank_to
    · rw [hl.task_ne r hrt]
      exact h.reading_live r x hr
  created j hj := by
    rw [Ne, hl.phase_ne j _ (.inr (.inr rfl))]
    exact h.created j (hl.tasks ▸ hj)

theorem order (h : e.Order) : e'.Order :=
  h.grow hl.nodes (hl.field Task.recorded (by simp)) (hl.field Task.readers (by simp))
    (fun j => (hl.deps_eq j).symm.subset) hl.rank_mono

/-- The counting, save `executable` and `taken`, which the step itself decides. -/
theorem counter (h : Counts maxDependencies e) (j : ℕ) : (e'.task j).dependencies =
    (if (e'.task j).phase = .setup then (maxDependencies : ℤ) - (e'.task j).deps.card else 0) +
      (e'.waitingOn j).card := by
  simp only [hl.field Task.dependencies (by simp), hl.phase_ne j _ (.inl rfl), hl.deps_eq,
    hl.waitingOn_eq]
  exact h.counter j

theorem blocked_iff (h : Counts maxDependencies e) (x j : ℕ) : j ∈ (e'.task x).blocked ↔
    x ∈ (e'.task j).deps ∧ (e'.task x).executed = false := by
  rw [hl.field Task.blocked (by simp), hl.deps_eq, hl.executed_eq]
  exact h.blocked_iff x j

theorem pushes (h : Counts maxDependencies e) (j : ℕ) : (e'.task j).pushes =
    if 2 ≤ (e'.task j).phase.rank ∧ e'.waitingOn j = ∅ then 1 else 0 := by
  rw [hl.field Task.pushes (by simp), hl.waitingOn_eq, h.pushes j]
  by_cases hj : j = t
  · subst hj
    have h₁ := hl.rank_from
    have h₂ := hl.rank_le
    simp only [show 2 ≤ (e.task j).phase.rank from h₁, show 2 ≤ (e'.task j).phase.rank by omega,
      true_and]
  · rw [hl.task_ne j hj]

end LocalStep

end Frame

/-- `Runs` after a step that changes task `t` alone (and may set an error): the facts to check
are about `t`. -/
theorem Runs.update_one {t : ℕ} (h : e.Runs)
    (hne : ∀ j, j ≠ t → (e'.task j).phase = (e.task j).phase ∧
      (e'.task j).starts = (e.task j).starts ∧ (e'.task j).returns = (e.task j).returns ∧
      (e'.task j).recorded = (e.task j).recorded)
    (hrec : (e'.task t).recorded = (e.task t).recorded) (herr : e.err.isSome → e'.err.isSome)
    (hle : (e'.task t).starts ≤ 1)
    (hzero : (e'.task t).phase.rank ≤ 3 → (e'.task t).starts = 0)
    (hrunning : (e'.task t).phase = .running → (e'.task t).starts = 1)
    (hreturns : (e'.task t).returns =
      if 5 ≤ (e'.task t).phase.rank then (e'.task t).starts else 0)
    (hskipped : 5 ≤ (e'.task t).phase.rank → (e'.task t).starts = 0 → e'.err.isSome)
    (hstarted : (e'.task t).starts = 1 → (e.task t).starts = 1 ∨ ∀ i a b, i < t →
      a ∈ (e.task i).recorded → b ∈ (e.task t).recorded → Conflict a b → (e.task i).returns = 1)
    (hreturned : (e.task t).returns = 1 → (e'.task t).returns = 1) : e'.Runs := by
  have hrec' : ∀ j, (e'.task j).recorded = (e.task j).recorded := by
    intro j
    by_cases hj : j = t
    · subst hj
      exact hrec
    · exact (hne j hj).2.2.2
  refine ⟨?_, ?_, ?_, ?_, ?_, ?_⟩
  · intro j
    by_cases hj : j = t
    · subst hj
      exact hle
    · rw [(hne j hj).2.1]
      exact h.starts_le j
  · intro j
    by_cases hj : j = t
    · subst hj
      exact hzero
    · obtain ⟨hp, hs, -⟩ := hne j hj
      rw [hp, hs]
      exact h.starts_zero j
  · intro j
    by_cases hj : j = t
    · subst hj
      exact hrunning
    · obtain ⟨hp, hs, -⟩ := hne j hj
      rw [hp, hs]
      exact h.running j
  · intro j
    by_cases hj : j = t
    · subst hj
      exact hreturns
    · obtain ⟨hp, hs, hr, -⟩ := hne j hj
      rw [hp, hs, hr]
      exact h.returns j
  · intro j
    by_cases hj : j = t
    · subst hj
      exact hskipped
    · obtain ⟨hp, hs, -⟩ := hne j hj
      rw [hp, hs]
      exact fun h₁ h₂ => herr (h.skipped j h₁ h₂)
  · -- a pair whose later task is `t`, or whose earlier task is `t`, or neither
    intro i j a b hij ha hb hab hj
    rw [hrec'] at ha hb
    have hreturns_i : (e.task i).returns = 1 → (e'.task i).returns = 1 := by
      by_cases hi : i = t
      · subst hi
        exact hreturned
      · rw [(hne i hi).2.2.1]
        exact id
    apply hreturns_i
    by_cases hjt : j = t
    · subst hjt
      rcases hstarted hj with hj | hall
      · exact h.returned_first i j a b hij ha hb hab hj
      · exact hall i a b hij ha hb hab
    · rw [(hne j hjt).2.1] at hj
      exact h.returned_first i j a b hij ha hb hab hj

theorem waitingOn_congr (hdeps : ∀ j, (e'.task j).deps = (e.task j).deps)
    (hexec : ∀ j, (e'.task j).executed = (e.task j).executed) (j : ℕ) :
    e'.waitingOn j = e.waitingOn j := by
  simp only [waitingOn, hdeps, hexec]

/-- `Counts` reads the phases, dependencies, `blocked` sets, `executed` flags, counters and
pushes, and `executable`. -/
theorem Counts.congr (h : Counts maxDependencies e)
    (hphase : ∀ j, (e'.task j).phase = (e.task j).phase)
    (hdeps : ∀ j, (e'.task j).deps = (e.task j).deps)
    (hblocked : ∀ j, (e'.task j).blocked = (e.task j).blocked)
    (hexec : ∀ j, (e'.task j).executed = (e.task j).executed)
    (hdep : ∀ j, (e'.task j).dependencies = (e.task j).dependencies)
    (hpushes : ∀ j, (e'.task j).pushes = (e.task j).pushes)
    (hx : e'.executable = e.executable) : Counts maxDependencies e' := by
  have hw := waitingOn_congr hdeps hexec
  refine ⟨?_, ?_, ?_, ?_, ?_⟩
  · intro x j
    rw [hblocked, hdeps, hexec]
    exact h.blocked_iff x j
  · intro j
    simp only [hdep, hphase, hdeps, hw]
    exact h.counter j
  · intro j
    simp only [hpushes, hphase, hw]
    exact h.pushes j
  · intro j
    simp only [hx, hphase, hw]
    exact h.executable j
  · intro j
    rw [hphase, hw]
    exact h.taken j

/-- `Runs` reads the phases, the counts of starts and returns, the recorded keys and `err`. -/
theorem Runs.congr (h : e.Runs) (hphase : ∀ j, (e'.task j).phase = (e.task j).phase)
    (hstarts : ∀ j, (e'.task j).starts = (e.task j).starts)
    (hreturns : ∀ j, (e'.task j).returns = (e.task j).returns)
    (hrec : ∀ j, (e'.task j).recorded = (e.task j).recorded) (herr : e'.err = e.err) :
    e'.Runs := by
  refine ⟨?_, ?_, ?_, ?_, ?_, ?_⟩
  · intro t
    rw [hstarts]
    exact h.starts_le t
  · intro t
    rw [hstarts, hphase]
    exact h.starts_zero t
  · intro t
    rw [hstarts, hphase]
    exact h.running t
  · intro t
    rw [hreturns, hphase, hstarts]
    exact h.returns t
  · intro t
    rw [hstarts, hphase, herr]
    exact h.skipped t
  · intro i j a b
    rw [hrec, hrec, hstarts, hreturns]
    exact h.returned_first i j a b

/-- A task depends only on earlier tasks, so on at most as many as come before it. -/
theorem Shape.card_deps_le (h : Shape calls e) (j : ℕ) : (e.task j).deps.card ≤ j := by
  calc (e.task j).deps.card ≤ (Finset.range j).card :=
        Finset.card_le_card (Finset.subset_range.mpr (h.deps_lt j))
    _ = j := Finset.card_range j

/-- A task exists once it records, reads, or depends on something. -/
theorem Shape.lt_tasks_of_ne_absent (h : Shape calls e) {j : ℕ} (hj : e.task j ≠ Task.absent) :
    j < e.tasks := by
  by_contra hlt
  exact hj (h.absent j (by omega))

theorem Shape.lt_tasks_of_recorded (h : Shape calls e) {i : ℕ} {a : Bytes × Permissions}
    (hi : a ∈ (e.task i).recorded) : i < e.tasks := by
  apply h.lt_tasks_of_ne_absent
  intro habs
  simp [habs, Task.absent] at hi

section Init

variable {maxDependencies : ℕ} {calls : List Keys}

@[simp] theorem new_task (j : ℕ) : (new : Executor ε).task j = Task.absent := rfl

theorem waitingOn_new (j : ℕ) : (new : Executor ε).waitingOn j = ∅ := by
  simp [waitingOn, Task.absent]

theorem inv_new : Inv maxDependencies calls (new : Executor ε) where
  shape :=
    { absent := fun _ _ => rfl
      tasks_le := Nat.zero_le _
      setup_iff := by simp [Task.absent, new, Caller.current]
      current_last := by simp [new, Caller.current]
      recorded_iff := by simp [new]
      recorded_fresh := by simp [Task.absent]
      deps_lt := by simp [Task.absent]
      executed_iff := by simp [Task.absent]
      reading_iff := by simp [Task.absent]
      reading_live := by simp [Task.absent]
      created := by simp [new] }
  counts :=
    { blocked_iff := by simp [Task.absent]
      counter := by simp [Task.absent, waitingOn_new]
      pushes := by simp [Task.absent, Phase.rank]
      executable := by simp [new, Task.absent]
      taken := by simp [Task.absent, Phase.rank] }
  order :=
    { node_recorded := by simp [new]
      node_last := by simp [new]
      node_none := by simp [Task.absent]
      ordered := by simp [Task.absent] }
  runs :=
    { starts_le := by simp [Task.absent]
      starts_zero := by simp [Task.absent]
      running := by simp [Task.absent]
      returns := by simp [Task.absent, Phase.rank]
      skipped := by simp [Task.absent, Phase.rank]
      returned_first := by simp [Task.absent] }

end Init

/-! ## The steps keep the invariant -/

section Steps

variable {maxDependencies : ℕ} {calls : List Keys}

theorem inv_stop (h : Inv maxDependencies calls e) : Inv maxDependencies calls e.stop := by
  refine ⟨h.shape.frame rfl rfl rfl, h.counts.frame rfl rfl, h.order.frame rfl rfl, ?_⟩
  have hr := h.runs
  refine ⟨hr.starts_le, hr.starts_zero, hr.running, hr.returns, ?_, hr.returned_first⟩
  -- an error, once set, stays
  intro t ht hs
  have herr := hr.skipped t ht hs
  simp only [stop]
  cases he : e.err
  · rw [he] at herr
    cases herr
  · rfl

theorem inv_wait (h : Inv maxDependencies calls e) (hs : e.wait = some e') :
    Inv maxDependencies calls e' := by
  obtain ⟨hc, -, rfl⟩ := wait_eq_some hs
  have hsh := h.shape
  -- the caller is between calls before and after: no task is being recorded
  have hcur : ∀ j, e.caller.current ≠ some j := by simp [hc, Caller.current]
  refine ⟨⟨hsh.absent, hsh.tasks_le, ?_, ?_, ?_, ?_, hsh.deps_lt, hsh.executed_iff,
    hsh.reading_iff, hsh.reading_live, hsh.created⟩, h.counts.frame rfl rfl, h.order.frame rfl rfl,
    h.runs.frame rfl rfl⟩
  · intro j
    simpa [Caller.current] using fun hj => hcur j ((hsh.setup_iff j).mp hj)
  · simp [Caller.current]
  · intro j hj k p
    simpa [hc, Caller.pending] using hsh.recorded_iff j hj k p
  · intro j k p _
    simp [Caller.pending]

variable {t : ℕ}

/-- A task in `executable` is pending and waits on nothing. -/
theorem Counts.pending_of_mem (h : Counts maxDependencies e) (hx : t ∈ e.executable) :
    (e.task t).phase = .pending ∧ e.waitingOn t = ∅ := by
  have hcount := h.executable t
  rw [← Multiset.count_pos] at hx
  split_ifs at hcount with hp
  · exact hp
  · omega

theorem inv_receive (h : Inv maxDependencies calls e) (hs : e.receive t = some e') :
    Inv maxDependencies calls e' := by
  obtain ⟨hx, he'⟩ := receive_eq_some hs
  have hc := h.counts
  have hpend := hc.pending_of_mem hx
  have hne : ∀ j, j ≠ t → e'.task j = e.task j := fun j hj => by simp [he', hj]
  have htask : e'.task t = { e.task t with phase := .received } := by simp [he']
  have hl : LocalStep e e' t :=
    { task_ne := hne
      task_eq := by simp [htask]
      tasks := by simp [he']
      caller := by simp [he']
      nodes := by simp [he']
      rank_le := by simp [htask, hpend.1, Phase.rank]
      rank_from := by simp [hpend.1, Phase.rank]
      rank_to := by simp [htask, Phase.rank] }
  refine ⟨hl.shape h.shape, ⟨hl.blocked_iff hc, hl.counter hc, hl.pushes hc, ?_, ?_⟩,
    hl.order h.order, ?_⟩
  · -- `t` leaves `executable`
    intro j
    rw [hl.waitingOn_eq, he']
    by_cases hj : j = t
    · subst hj
      simp [Multiset.count_erase_self, hc.executable, hpend]
    · simp [Multiset.count_erase_of_ne hj, hj, hc.executable j]
  · intro j hj
    rw [hl.waitingOn_eq]
    by_cases hjt : j = t
    · subst hjt
      exact hpend.2
    · rw [hne j hjt] at hj
      exact hc.taken j hj
  · have hr := h.runs
    have ht0 : (e.task t).starts = 0 := hr.starts_zero t (by simp [hpend.1, Phase.rank])
    have hret0 : (e.task t).returns = 0 := by simp [hr.returns t, hpend.1, Phase.rank]
    refine hr.update_one (t := t) (fun j hj => by simp [hne j hj]) (by simp [htask]) (by simp [he']) ?_ ?_ ?_ ?_ ?_ ?_ ?_ <;>
      simp [htask, ht0, hret0, Phase.rank]

/-- A task that is neither pending nor about to be: `executable` does not hold it. -/
theorem Counts.executable_of_ne (h : Counts maxDependencies e) (hl : LocalStep e e' t)
    (hx : e'.executable = e.executable) (hp : (e.task t).phase ≠ .pending)
    (hp' : (e'.task t).phase ≠ .pending) (j : ℕ) :
    e'.executable.count j = if (e'.task j).phase = .pending ∧ e'.waitingOn j = ∅ then 1 else 0 := by
  rw [hx, hl.waitingOn_eq, h.executable j]
  by_cases hj : j = t
  · subst hj
    simp [hp, hp']
  · rw [hl.task_ne j hj]

/-- A started task's waiting set stays empty. -/
theorem Counts.taken_of_local (h : Counts maxDependencies e) (hl : LocalStep e e' t)
    (ht : 3 ≤ (e.task t).phase.rank) (j : ℕ) (hj : 3 ≤ (e'.task j).phase.rank) :
    e'.waitingOn j = ∅ := by
  rw [hl.waitingOn_eq]
  by_cases hjt : j = t
  · subst hjt
    exact h.taken j ht
  · rw [hl.task_ne j hjt] at hj
    exact h.taken j hj

theorem inv_check (h : Inv maxDependencies calls e) (hs : e.check t = some e') :
    Inv maxDependencies calls e' := by
  obtain ⟨hrecv, he'⟩ := check_eq_some hs
  have hc := h.counts
  have hr := h.runs
  have hne : ∀ j, j ≠ t → e'.task j = e.task j := fun j hj => by simp [he', hj]
  have htask : e'.task t = { e.task t with
      phase := if e.err.isSome then .finished else .running
      starts := (e.task t).starts + if e.err.isSome then 0 else 1 } := by simp [he']
  have hl : LocalStep e e' t :=
    { task_ne := hne
      task_eq := by simp [htask]
      tasks := by simp [he']
      caller := by simp [he']
      nodes := by simp [he']
      rank_le := by split_ifs at htask <;> simp [htask, hrecv, Phase.rank]
      rank_from := by simp [hrecv, Phase.rank]
      rank_to := by split_ifs at htask <;> simp [htask, Phase.rank] }
  have hrank : 3 ≤ (e.task t).phase.rank := by simp [hrecv, Phase.rank]
  have ht0 : (e.task t).starts = 0 := hr.starts_zero t (by simp [hrecv, Phase.rank])
  have hret0 : (e.task t).returns = 0 := by simp [hr.returns t, hrecv, Phase.rank]
  refine ⟨hl.shape h.shape, ⟨hl.blocked_iff hc, hl.counter hc, hl.pushes hc,
    hc.executable_of_ne hl (by simp [he']) (by simp [hrecv]) ?_, hc.taken_of_local hl hrank⟩,
    hl.order h.order, hr.update_one (t := t) (fun j hj => by simp [hne j hj]) (by simp [htask]) (by simp [he']) ?_ ?_ ?_ ?_ ?_ ?_
      (by simp [hret0])⟩
  · split_ifs at htask <;> simp [htask]
  any_goals cases herr : e.err.isSome <;> simp [herr, he', ht0, hret0, Phase.rank]
  -- `f` of `t` starts only with no error set; every earlier conflicting task has then returned
  intro i ka pa kb pb hit ha hb hab
  have h5 := (h.order.ordered i t _ _ hit ha hb hab).finished_of_taken hc.taken
    h.shape.executed_iff hrank
  have hstarted : (e.task i).starts ≠ 0 := fun h0 => by simp [hr.skipped i h5 h0] at herr
  have hle := hr.starts_le i
  rw [hr.returns i, if_pos h5]
  omega

theorem inv_finish {r : Option ε} (h : Inv maxDependencies calls e) (hs : e.finish t r = some e') :
    Inv maxDependencies calls e' := by
  obtain ⟨hrun, he'⟩ := finish_eq_some hs
  have hc := h.counts
  have hr := h.runs
  have hne : ∀ j, j ≠ t → e'.task j = e.task j := fun j hj => by simp [he', hj]
  have htask : e'.task t =
      { e.task t with phase := .finished, returns := (e.task t).returns + 1 } := by simp [he']
  have hl : LocalStep e e' t :=
    { task_ne := hne
      task_eq := by simp [htask]
      tasks := by simp [he']
      caller := by simp [he']
      nodes := by simp [he']
      rank_le := by simp [htask, hrun, Phase.rank]
      rank_from := by simp [hrun, Phase.rank]
      rank_to := by simp [htask, Phase.rank] }
  have hrank : 3 ≤ (e.task t).phase.rank := by simp [hrun, Phase.rank]
  have ht1 : (e.task t).starts = 1 := hr.running t hrun
  have hret0 : (e.task t).returns = 0 := by simp [hr.returns t, hrun, Phase.rank]
  -- an error, once set, stays
  have herr : e.err.isSome → e'.err.isSome := by
    intro hsome
    obtain ⟨x, hx⟩ := Option.isSome_iff_exists.mp hsome
    simp [he', hx]
  refine ⟨hl.shape h.shape, ⟨hl.blocked_iff hc, hl.counter hc, hl.pushes hc,
    hc.executable_of_ne hl (by simp [he']) (by simp [hrun]) (by simp [htask]),
    hc.taken_of_local hl hrank⟩,
    hl.order h.order, hr.update_one (t := t) (fun j hj => by simp [hne j hj]) (by simp [htask]) herr ?_ ?_ ?_ ?_ ?_ ?_ ?_⟩ <;>
    simp [htask, ht1, hret0, Phase.rank]

theorem inv_unread {x : ℕ} (h : Inv maxDependencies calls e) (hs : e.unread t x = some e') :
    Inv maxDependencies calls e' := by
  obtain ⟨hfin, hx, rfl⟩ := unread_eq_some hs
  have hsh := h.shape
  -- every field but `readers` of `x` and `reading` of `t` stays
  have hsame : ∀ {α : Type} (g : Task → α), (∀ u : Task, g { u with readers := u.readers.erase t } = g u) →
      (∀ u : Task, g { u with reading := u.reading.erase x } = g u) → ∀ j,
      g (((e.modify x fun u => { u with readers := u.readers.erase t }).modify t
        fun u => { u with reading := u.reading.erase x }).task j) = g (e.task j) := by
    intro α g h₁ h₂ j
    rw [modify_field g h₂, modify_field g h₁]
  have hphase := hsame Task.phase (fun _ => rfl) (fun _ => rfl)
  have hdeps := hsame Task.deps (fun _ => rfl) (fun _ => rfl)
  have hexec := hsame Task.executed (fun _ => rfl) (fun _ => rfl)
  have hrec := hsame Task.recorded (fun _ => rfl) (fun _ => rfl)
  have hreading : ∀ r, (((e.modify x fun u => { u with readers := u.readers.erase t }).modify t
      fun u => { u with reading := u.reading.erase x }).task r).reading =
      if r = t then (e.task t).reading.erase x else (e.task r).reading := by
    intro r
    by_cases hr : r = t
    · subst hr
      rw [if_pos rfl, modify_task_self]
      refine congrArg (·.erase x) (modify_field Task.reading ?_ r)
      exact fun _ => rfl
    · rw [if_neg hr, modify_task_of_ne hr]
      refine modify_field Task.reading ?_ r
      exact fun _ => rfl
  have hreaders : ∀ y, (((e.modify x fun u => { u with readers := u.readers.erase t }).modify t
      fun u => { u with reading := u.reading.erase x }).task y).readers =
      if y = x then (e.task x).readers.erase t else (e.task y).readers := by
    intro y
    refine (modify_field Task.readers ?_ y).trans ?_
    · exact fun _ => rfl
    by_cases hy : y = x
    · subst hy
      rw [if_pos rfl, modify_task_self]
    · rw [if_neg hy, modify_task_of_ne hy]
  refine ⟨⟨?_, hsh.tasks_le, ?_, hsh.current_last, ?_, ?_, ?_, ?_, ?_, ?_,
    fun j hj => (hphase j).symm ▸ hsh.created j hj⟩,
    h.counts.congr hphase hdeps (hsame Task.blocked (fun _ => rfl) (fun _ => rfl)) hexec
      (hsame Task.dependencies (fun _ => rfl) (fun _ => rfl))
      (hsame Task.pushes (fun _ => rfl) (fun _ => rfl)) rfl,
    ?_,
    h.runs.congr hphase (hsame Task.starts (fun _ => rfl) (fun _ => rfl))
      (hsame Task.returns (fun _ => rfl) (fun _ => rfl)) hrec rfl⟩
  · -- tasks `t` and `x` exist, so only existing tasks change
    intro j hj
    have ht : t < e.tasks := by
      by_contra hlt
      rw [hsh.absent t (by omega)] at hfin
      cases hfin
    have hxt : x < e.tasks := by
      by_contra hlt
      have hmem := (hsh.reading_iff t x).mp hx
      rw [hsh.absent x (by omega)] at hmem
      simp [Task.absent] at hmem
    have hj' : e.tasks ≤ j := hj
    rw [modify_task_of_ne (by omega), modify_task_of_ne (by omega)]
    exact hsh.absent j hj'
  · intro j
    rw [hphase]
    exact hsh.setup_iff j
  · intro j
    rw [hrec]
    exact hsh.recorded_iff j
  · intro j
    rw [hrec]
    exact hsh.recorded_fresh j
  · intro j
    rw [hdeps]
    exact hsh.deps_lt j
  · intro y
    rw [hexec, hphase]
    exact hsh.executed_iff y
  · intro r y
    rw [hreading, hreaders]
    split_ifs with hr hy hy <;> simp [hr, hy, hsh.reading_iff]
  · intro r y hy
    rw [hreading] at hy
    rw [hphase]
    split_ifs at hy with hr
    · subst hr
      exact hsh.reading_live r y (Finset.mem_of_mem_erase hy)
    · exact hsh.reading_live r y hy
  · -- `t` leaves the readers of `x`, but its `f` is over: it is ordered before anything
    have ho := h.order
    have hmono : ∀ {i j}, e.Before i j → Executor.Before _ i j :=
      Before.mono (fun j => (hdeps j).symm.subset) (fun j => by rw [hphase])
    refine ⟨?_, ?_, ?_, ?_⟩
    · intro k lt hk
      simpa only [hrec] using ho.node_recorded k lt hk
    · intro k lt hk i p hi hne
      rw [hrec] at hi
      rw [hreaders]
      rcases ho.node_last k lt hk i p hi hne with hb | ⟨hp, hi⟩
      · exact .inl (hmono hb)
      · by_cases hit : i = t ∧ lt = x
        · obtain ⟨rfl, rfl⟩ := hit
          left
          left
          rw [hphase, hfin]
          decide
        · right
          refine ⟨hp, ?_⟩
          split_ifs with hlt
          · subst hlt
            exact Finset.mem_erase.mpr ⟨fun h => hit ⟨h, rfl⟩, hi⟩
          · exact hi
    · intro k hk i p
      rw [hrec]
      exact ho.node_none k hk i p
    · intro i j a b hij ha hb hab
      rw [hrec] at ha hb
      exact hmono (ho.ordered i j a b hij ha hb hab)

/-! ### Starting a task -/

section RunEffect

variable (hs : e.run maxDependencies calls = some e')
include hs

theorem run_task_new : e'.task e.tasks = Task.new maxDependencies := by
  obtain ⟨_, -, -, he'⟩ := run_eq_some hs
  simp [he']

theorem run_task_ne {j : ℕ} (hj : j ≠ e.tasks) : e'.task j = e.task j := by
  obtain ⟨_, -, -, he'⟩ := run_eq_some hs
  simp [he', hj]

theorem run_tasks : e'.tasks = e.tasks + 1 := by
  obtain ⟨_, -, -, he'⟩ := run_eq_some hs
  simp [he']

end RunEffect

section Run

variable (h : Inv maxDependencies calls e) (hs : e.run maxDependencies calls = some e')
include h hs

/-- The new task replaces the absent one: what the two have in common stays. -/
theorem run_field {α : Type} (g : Task → α) (hg : g (Task.new maxDependencies) = g Task.absent)
    (j : ℕ) : g (e'.task j) = g (e.task j) := by
  by_cases hj : j = e.tasks
  · subst hj
    rw [run_task_new hs, h.shape.absent _ le_rfl, hg]
  · rw [run_task_ne hs hj]

/-- The new task depends on nothing and nothing depends on it. -/
theorem run_waitingOn (j : ℕ) : e'.waitingOn j = e.waitingOn j :=
  waitingOn_congr (run_field h hs Task.deps rfl) (run_field h hs Task.executed rfl) j

theorem run_shape : Shape calls e' := by
  obtain ⟨keys, hc, hk, he'⟩ := run_eq_some hs
  have hsh := h.shape
  have hcur : e.caller.current = none := by simp [hc, Caller.current]
  have hrec := run_field h hs Task.recorded rfl
  refine ⟨?_, ?_, ?_, ?_, ?_, ?_, ?_, ?_, ?_, ?_, ?_⟩
  · intro j hj
    rw [run_tasks hs] at hj
    rw [run_task_ne hs (by omega)]
    exact hsh.absent j (by omega)
  · -- the call the new task runs exists
    have hlen : e.tasks < calls.length := by
      by_contra hlt
      rw [List.getElem?_eq_none (by omega)] at hk
      cases hk
    rw [run_tasks hs]
    omega
  · intro j
    by_cases hj : j = e.tasks
    · subst hj
      simp [he', Task.new, Caller.current]
    · rw [run_task_ne hs hj, hsh.setup_iff j, hcur]
      simp [he', Caller.current, Ne.symm hj]
  · simp only [he', Caller.current, Option.some.injEq]
    omega
  · -- the new task has all of its call's keys still to record
    intro j hj k p
    by_cases hjn : j = e.tasks
    · subst hjn
      simp [he', Task.new, Caller.pending, List.getD_eq_getElem?_getD, hk]
    · have hj' : j < e.tasks := by
        rw [run_tasks hs] at hj
        omega
      have hp : e'.caller.pending j = ∅ := by simp [he', Caller.pending, Ne.symm hjn]
      rw [hrec, hp]
      simpa [hc, Caller.pending] using hsh.recorded_iff j hj' k p
  · intro j k p hkp
    by_cases hjn : j = e.tasks
    · subst hjn
      simp [run_task_new hs, Task.new] at hkp
    · simp [he', Caller.pending, Ne.symm hjn]
  · intro j
    rw [run_field h hs Task.deps rfl]
    exact hsh.deps_lt j
  · intro x
    by_cases hx : x = e.tasks
    · subst hx
      simp [run_task_new hs, Task.new]
    · rw [run_task_ne hs hx]
      exact hsh.executed_iff x
  · intro r x
    rw [run_field h hs Task.reading rfl, run_field h hs Task.readers rfl]
    exact hsh.reading_iff r x
  · intro r x hx
    rw [run_field h hs Task.reading rfl] at hx
    by_cases hr : r = e.tasks
    · subst hr
      simp [hsh.absent _ le_rfl, Task.absent] at hx
    · rw [run_task_ne hs hr]
      exact hsh.reading_live r x hx
  · intro j hj
    by_cases hjn : j = e.tasks
    · subst hjn
      simp [run_task_new hs, Task.new]
    · rw [run_tasks hs] at hj
      rw [run_task_ne hs hjn]
      exact hsh.created j (by omega)

theorem run_counts : Counts maxDependencies e' where
  blocked_iff x j := by
    rw [run_field h hs Task.blocked rfl, run_field h hs Task.deps rfl,
      run_field h hs Task.executed rfl]
    exact h.counts.blocked_iff x j
  counter j := by
    by_cases hj : j = e.tasks
    · subst hj
      simp [run_task_new hs, waitingOn, Task.new]
    · simp only [run_task_ne hs hj, run_waitingOn h hs]
      exact h.counts.counter j
  pushes j := by
    by_cases hj : j = e.tasks
    · subst hj
      simp [run_task_new hs, Task.new, Phase.rank]
    · simp only [run_task_ne hs hj, run_waitingOn h hs]
      exact h.counts.pushes j
  executable j := by
    obtain ⟨_, -, -, he'⟩ := run_eq_some hs
    have hx : e'.executable = e.executable := by simp [he']
    by_cases hj : j = e.tasks
    · -- the absent task was never sent on `executable`
      subst hj
      have := h.counts.executable e.tasks
      simp [h.shape.absent _ le_rfl, Task.absent] at this
      simp [hx, run_task_new hs, Task.new, this]
    · simp only [run_task_ne hs hj, run_waitingOn h hs, hx]
      exact h.counts.executable j
  taken j hj := by
    by_cases hjn : j = e.tasks
    · subst hjn
      simp [run_task_new hs, Task.new, Phase.rank] at hj
    · rw [run_task_ne hs hjn] at hj
      rw [run_waitingOn h hs]
      exact h.counts.taken j hj

theorem run_order : e'.Order := by
  obtain ⟨_, -, -, he'⟩ := run_eq_some hs
  have hrank : ∀ j, (e.task j).phase.rank ≤ (e'.task j).phase.rank := by
    intro j
    by_cases hj : j = e.tasks
    · subst hj
      simp [run_task_new hs, h.shape.absent _ le_rfl, Task.absent, Phase.rank]
    · rw [run_task_ne hs hj]
  exact h.order.grow (by simp [he']) (run_field h hs Task.recorded rfl)
    (run_field h hs Task.readers rfl) (fun j => (run_field h hs Task.deps rfl j).symm.subset) hrank

theorem run_runs : e'.Runs := by
  obtain ⟨_, -, -, he'⟩ := run_eq_some hs
  have hret0 : (e.task e.tasks).returns = 0 := by simp [h.shape.absent _ le_rfl, Task.absent]
  refine h.runs.update_one (t := e.tasks) (fun j hj => by simp [run_task_ne hs hj])
    (run_field h hs Task.recorded rfl (e.tasks)) (by simp [he']) ?_ ?_ ?_ ?_ ?_ ?_ ?_ <;>
    simp [run_task_new hs, hret0, Task.new, Phase.rank]

end Run

/-- `Run` starts the next task of its calls, with all of the call's keys to record. -/
theorem inv_run (h : Inv maxDependencies calls e) (hs : e.run maxDependencies calls = some e') :
    Inv maxDependencies calls e' :=
  ⟨run_shape h hs, run_counts h hs, run_order h hs, run_runs h hs⟩

/-! ### The end of `Run` -/

section Recording

variable {id : ℕ} {keys : Keys} (h : Inv maxDependencies calls e)
  (hc : e.caller = .running id keys)
include h hc

/-- The task `Run` records is in setup, and it is the last task made. -/
theorem record_setup : (e.task id).phase = .setup :=
  (h.shape.setup_iff id).mpr (by simp [hc, Caller.current])

theorem record_last : id + 1 = e.tasks :=
  h.shape.current_last id (by simp [hc, Caller.current])

end Recording

section Enqueue

variable {id : ℕ} {keys : Keys} (h : Inv maxDependencies calls e)
  (hc : e.caller = .running id keys) (hs : e.enqueue maxDependencies = some e')
include h hc hs

/-- The end of `Run` for the task it recorded: the inflation comes off the counter, which is left
with the number of dependencies the task still waits on, and the task is sent on `executable`
when that number is zero. -/
theorem enqueue_eq : keys.entries = [] ∧
    e' = { e.modify id (fun u => { u with
        phase := .pending, dependencies := (e.waitingOn id).card
        pushes := u.pushes + if e.waitingOn id = ∅ then 1 else 0 }) with
      executable := if e.waitingOn id = ∅ then id ::ₘ e.executable else e.executable
      caller := .idle } := by
  obtain ⟨id', keys', hc', hkeys, he'⟩ := enqueue_eq_some hs
  rw [hc] at hc'
  cases hc'
  have hcU : (e.task id).dependencies - ((maxDependencies : ℤ) - (e.task id).deps.card) =
      (e.waitingOn id).card := by
    rw [h.counts.counter id, if_pos (record_setup h hc)]
    omega
  have hle : ((e.waitingOn id).card : ℤ) ≤ 0 ↔ e.waitingOn id = ∅ := by
    rw [← Finset.card_eq_zero]
    omega
  refine ⟨hkeys, ?_⟩
  dsimp only at he'
  rw [he', hcU]
  simp only [hle]

theorem enqueue_task_self : e'.task id = { e.task id with
    phase := .pending, dependencies := (e.waitingOn id).card
    pushes := if e.waitingOn id = ∅ then 1 else 0 } := by
  -- a task in setup has not been pushed
  have hpush0 : (e.task id).pushes = 0 := by
    simp [h.counts.pushes id, record_setup h hc, Phase.rank]
  rw [(enqueue_eq h hc hs).2]
  simp [hpush0]

theorem enqueue_task_ne {j : ℕ} (hj : j ≠ id) : e'.task j = e.task j := by
  rw [(enqueue_eq h hc hs).2]
  simp [hj]

/-- Only the phase, the counter and the pushes of the task change. -/
theorem enqueue_field {α : Type} (g : Task → α)
    (hg : ∀ u : Task, ∀ q d p, g { u with phase := q, dependencies := d, pushes := p } = g u)
    (j : ℕ) : g (e'.task j) = g (e.task j) := by
  by_cases hj : j = id
  · subst hj
    rw [enqueue_task_self h hc hs, hg]
  · rw [enqueue_task_ne h hc hs hj]

theorem enqueue_waitingOn (j : ℕ) : e'.waitingOn j = e.waitingOn j :=
  waitingOn_congr (enqueue_field h hc hs Task.deps fun _ _ _ _ => rfl)
    (enqueue_field h hc hs Task.executed fun _ _ _ _ => rfl) j

theorem enqueue_shape : Shape calls e' := by
  obtain ⟨hkeys, he'⟩ := enqueue_eq h hc hs
  have hsh := h.shape
  have hsetup := record_setup h hc
  have htasks : e'.tasks = e.tasks := by simp [he']
  have hpend : ∀ j, e'.caller.pending j = ∅ := by simp [he', Caller.pending]
  have hrec := enqueue_field h hc hs Task.recorded fun _ _ _ _ => rfl
  refine ⟨?_, htasks ▸ hsh.tasks_le, ?_, ?_, ?_, ?_, ?_, ?_, ?_, ?_, ?_⟩
  · intro j hj
    rw [htasks] at hj
    have := record_last h hc
    rw [enqueue_task_ne h hc hs (by omega)]
    exact hsh.absent j hj
  · -- no task is being recorded any more
    intro j
    have hcur : e'.caller.current = none := by simp [he', Caller.current]
    rw [hcur]
    by_cases hj : j = id
    · subst hj
      simp [enqueue_task_self h hc hs]
    · rw [enqueue_task_ne h hc hs hj, hsh.setup_iff j]
      simp [hc, Caller.current, Ne.symm hj]
  · simp [he', Caller.current]
  · -- the task has recorded every key of its call
    intro j hj k p
    rw [hrec, hpend]
    have hold := hsh.recorded_iff j (htasks ▸ hj) k p
    have hnone : (e.caller.pending j).lookup k = none := by
      by_cases hjid : j = id
      · subst hjid
        simp [hc, Caller.pending, AList.lookup, hkeys]
      · simp [hc, Caller.pending, Ne.symm hjid]
    simpa [hnone] using hold
  · intro j k p _
    simp [hpend]
  · intro j
    rw [enqueue_field h hc hs Task.deps fun _ _ _ _ => rfl]
    exact hsh.deps_lt j
  · intro x
    by_cases hx : x = id
    · subst hx
      have := hsh.executed_iff x
      simp [hsetup] at this
      simp [enqueue_task_self h hc hs, this]
    · rw [enqueue_task_ne h hc hs hx]
      exact hsh.executed_iff x
  · intro r x
    rw [enqueue_field h hc hs Task.reading fun _ _ _ _ => rfl,
      enqueue_field h hc hs Task.readers fun _ _ _ _ => rfl]
    exact hsh.reading_iff r x
  · intro r x hx
    rw [enqueue_field h hc hs Task.reading fun _ _ _ _ => rfl] at hx
    by_cases hr : r = id
    · subst hr
      simp [enqueue_task_self h hc hs, Phase.rank]
    · rw [enqueue_task_ne h hc hs hr]
      exact hsh.reading_live r x hx
  · intro j hj
    by_cases hjid : j = id
    · subst hjid
      simp [enqueue_task_self h hc hs]
    · rw [enqueue_task_ne h hc hs hjid]
      exact hsh.created j (htasks ▸ hj)

theorem enqueue_counts : Counts maxDependencies e' where
  blocked_iff x j := by
    rw [enqueue_field h hc hs Task.blocked fun _ _ _ _ => rfl,
      enqueue_field h hc hs Task.deps fun _ _ _ _ => rfl,
      enqueue_field h hc hs Task.executed fun _ _ _ _ => rfl]
    exact h.counts.blocked_iff x j
  counter j := by
    by_cases hj : j = id
    · subst hj
      simp [enqueue_task_self h hc hs, enqueue_waitingOn h hc hs]
    · simp only [enqueue_task_ne h hc hs hj, enqueue_waitingOn h hc hs]
      exact h.counts.counter j
  pushes j := by
    by_cases hj : j = id
    · subst hj
      simp [enqueue_task_self h hc hs, enqueue_waitingOn h hc hs, Phase.rank]
    · simp only [enqueue_task_ne h hc hs hj, enqueue_waitingOn h hc hs]
      exact h.counts.pushes j
  executable j := by
    rw [enqueue_waitingOn h hc hs, (enqueue_eq h hc hs).2]
    by_cases hj : j = id
    · -- a task being recorded is not on `executable`
      subst hj
      have hold := h.counts.executable j
      rw [record_setup h hc] at hold
      simp only [reduceCtorEq, false_and, if_false] at hold
      by_cases hU : e.waitingOn j = ∅ <;> simp [hU, Multiset.count_cons_self, hold]
    · have hx : (if e.waitingOn id = ∅ then id ::ₘ e.executable else e.executable).count j =
          e.executable.count j := by
        split_ifs
        · exact Multiset.count_cons_of_ne hj _
        · rfl
      simp only [hx, modify_task_of_ne hj]
      exact h.counts.executable j
  taken j hj := by
    by_cases hjid : j = id
    · subst hjid
      simp [enqueue_task_self h hc hs, Phase.rank] at hj
    · rw [enqueue_task_ne h hc hs hjid] at hj
      rw [enqueue_waitingOn h hc hs]
      exact h.counts.taken j hj

theorem enqueue_order : e'.Order := by
  have hrank : ∀ j, (e.task j).phase.rank ≤ (e'.task j).phase.rank := by
    intro j
    by_cases hj : j = id
    · subst hj
      simp [enqueue_task_self h hc hs, record_setup h hc, Phase.rank]
    · rw [enqueue_task_ne h hc hs hj]
  exact h.order.grow (by simp [(enqueue_eq h hc hs).2])
    (enqueue_field h hc hs Task.recorded fun _ _ _ _ => rfl)
    (enqueue_field h hc hs Task.readers fun _ _ _ _ => rfl)
    (fun j => (enqueue_field h hc hs Task.deps (fun _ _ _ _ => rfl) j).symm.subset) hrank

theorem enqueue_runs : e'.Runs := by
  have hr := h.runs
  have hsetup := record_setup h hc
  have hs0 : (e.task id).starts = 0 := hr.starts_zero id (by simp [hsetup, Phase.rank])
  have hret0 : (e.task id).returns = 0 := by simp [hr.returns id, hsetup, Phase.rank]
  refine hr.update_one (t := id) (fun j hj => by simp [enqueue_task_ne h hc hs hj])
    (enqueue_field h hc hs Task.recorded (fun _ _ _ _ => rfl) id)
    (by simp [(enqueue_eq h hc hs).2]) ?_ ?_ ?_ ?_ ?_ ?_ ?_ <;>
    simp [enqueue_task_self h hc hs, hs0, hret0, Phase.rank]

end Enqueue

/-- The end of `Run`: the task it recorded becomes pending. -/
theorem inv_enqueue (h : Inv maxDependencies calls e) (hs : e.enqueue maxDependencies = some e') :
    Inv maxDependencies calls e' := by
  obtain ⟨id, keys, hc, -⟩ := enqueue_eq_some hs
  exact ⟨enqueue_shape h hc hs, enqueue_counts h hc hs, enqueue_order h hc hs,
    enqueue_runs h hc hs⟩

/-! ### The notification -/

section NotifyEffect

variable (hs : e.notify t = some e')
include hs

theorem notify_task_self :
    e'.task t = { e.task t with blocked := ∅, executed := true, phase := .done } := by
  obtain ⟨-, -, he'⟩ := notify_eq_some hs
  simp [he']

theorem notify_task_blocked {x : ℕ} (hx : x ∈ (e.task t).blocked) (hxt : x ≠ t) :
    e'.task x = { e.task x with
      dependencies := (e.task x).dependencies - 1
      pushes := (e.task x).pushes + if x ∈ e.released t then 1 else 0 } := by
  obtain ⟨-, -, he'⟩ := notify_eq_some hs
  simp [he', hxt, hx]

theorem notify_task_other {x : ℕ} (hx : x ∉ (e.task t).blocked) (hxt : x ≠ t) :
    e'.task x = e.task x := by
  obtain ⟨-, -, he'⟩ := notify_eq_some hs
  simp [he', hxt, hx]

/-- Of the tasks other than `t`, the notification changes counters and pushes only. -/
theorem notify_field_ne {α : Type} (g : Task → α)
    (hg : ∀ u : Task, ∀ d p, g { u with dependencies := d, pushes := p } = g u) {j : ℕ}
    (hjt : j ≠ t) : g (e'.task j) = g (e.task j) := by
  by_cases hjB : j ∈ (e.task t).blocked
  · rw [notify_task_blocked hs hjB hjt, hg]
  · rw [notify_task_other hs hjB hjt]

/-- The fields no part of the notification touches. -/
theorem notify_field {α : Type} (g : Task → α)
    (h₁ : ∀ u : Task, g { u with blocked := ∅, executed := true, phase := .done } = g u)
    (h₂ : ∀ u : Task, ∀ d p, g { u with dependencies := d, pushes := p } = g u) (j : ℕ) :
    g (e'.task j) = g (e.task j) := by
  by_cases hjt : j = t
  · subst hjt
    rw [notify_task_self hs, h₁]
  · exact notify_field_ne hs g h₂ hjt

theorem notify_executed (j : ℕ) :
    (e'.task j).executed = if j = t then true else (e.task j).executed := by
  split_ifs with hjt
  · subst hjt
    simp [notify_task_self hs]
  · exact notify_field_ne hs Task.executed (fun _ _ _ => rfl) hjt

/-- `t` has executed: it leaves every waiting set. -/
theorem notify_waitingOn (j : ℕ) : e'.waitingOn j = (e.waitingOn j).erase t := by
  ext x
  simp only [waitingOn, Finset.mem_filter, Finset.mem_erase,
    notify_field hs Task.deps (fun _ => rfl) (fun _ _ _ => rfl), notify_executed hs]
  by_cases hxt : x = t <;> simp [hxt]

theorem notify_rank_mono (j : ℕ) : (e.task j).phase.rank ≤ (e'.task j).phase.rank := by
  by_cases hjt : j = t
  · subst hjt
    simp [notify_task_self hs, (notify_eq_some hs).1, Phase.rank]
  · rw [notify_field_ne hs Task.phase (fun _ _ _ => rfl) hjt]

theorem notify_count_executable (j : ℕ) :
    e'.executable.count j = e.executable.count j + if j ∈ e.released t then 1 else 0 := by
  obtain ⟨-, -, he'⟩ := notify_eq_some hs
  simp [he', Multiset.count_add, Multiset.count_eq_of_nodup (e.released t).nodup]

end NotifyEffect

/-! What the invariant says of the tasks that `t` blocks. -/

section Blocked

variable {x : ℕ}

/-- A task that `t` blocks waits on `t`. -/
theorem Counts.mem_waitingOn_of_blocked (h : Counts maxDependencies e)
    (hx : x ∈ (e.task t).blocked) : t ∈ e.waitingOn x := by
  have := (h.blocked_iff t x).mp hx
  simp [waitingOn, this.1, this.2]

theorem Counts.not_mem_waitingOn_of_not_blocked (h : Counts maxDependencies e)
    (hx : x ∉ (e.task t).blocked) : t ∉ e.waitingOn x := by
  intro hmem
  apply hx
  rw [h.blocked_iff t x]
  simpa [waitingOn] using hmem

theorem Inv.lt_tasks_of_blocked (h : Inv maxDependencies calls e)
    (hx : x ∈ (e.task t).blocked) : x < e.tasks := by
  apply h.shape.lt_tasks_of_ne_absent
  intro habs
  have := ((h.counts.blocked_iff t x).mp hx).1
  simp [habs, Task.absent] at this

theorem Inv.not_blocked_self (h : Inv maxDependencies calls e) : t ∉ (e.task t).blocked := by
  intro htB
  have := h.shape.deps_lt t t ((h.counts.blocked_iff t t).mp htB).1
  omega

/-- A blocked task has not left `executable`: it is still being recorded, or pending. -/
theorem Inv.blocked_phase (h : Inv maxDependencies calls e) (hx : x ∈ (e.task t).blocked) :
    (e.task x).phase = .setup ∨ (e.task x).phase = .pending := by
  have hcr := h.shape.created x (h.lt_tasks_of_blocked hx)
  have hrank : ¬ 3 ≤ (e.task x).phase.rank := by
    intro h3
    have hmem := h.counts.mem_waitingOn_of_blocked hx
    rw [h.counts.taken x h3] at hmem
    simp at hmem
  revert hcr hrank
  cases (e.task x).phase <;> simp [Phase.rank]

/-- What the notification of `t` releases: of the tasks it blocks, the pending ones for which `t`
was the last task they waited on. The counter of one that `Run` still records stays above one,
inflated by `maxDependencies` less its dependencies. -/
theorem Inv.mem_released_iff (hD : DepsBelow maxDependencies e)
    (h : Inv maxDependencies calls e) (hx : x ∈ (e.task t).blocked) :
    x ∈ e.released t ↔ (e.task x).phase = .pending ∧ (e.waitingOn x).erase t = ∅ := by
  have hmem := h.counts.mem_waitingOn_of_blocked hx
  have hcard := Finset.card_erase_of_mem hmem
  have hpos : 0 < (e.waitingOn x).card := Finset.card_pos.mpr ⟨t, hmem⟩
  rw [released, Finset.mem_filter, h.counts.counter x, ← Finset.card_eq_zero]
  rcases h.blocked_phase hx with hp | hp
  · have hlt := hD x (h.lt_tasks_of_blocked hx)
    simp only [hp, if_true, reduceCtorEq, false_and, iff_false, not_and]
    intro _
    omega
  · simp only [hp, reduceCtorEq, if_false, true_and, zero_add]
    constructor
    · rintro ⟨-, hle⟩
      omega
    · intro h0
      exact ⟨hx, by omega⟩

end Blocked

section Notify

variable (h : Inv maxDependencies calls e) (hs : e.notify t = some e')
include h hs

theorem notify_lt_tasks : t < e.tasks := by
  apply h.shape.lt_tasks_of_ne_absent
  intro habs
  have hfin := (notify_eq_some hs).1
  rw [habs] at hfin
  cases hfin

/-- `t` waits on nothing: its `f` has returned. -/
theorem notify_waitingOn_self : e.waitingOn t = ∅ :=
  h.counts.taken t (by simp [(notify_eq_some hs).1, Phase.rank])

theorem notify_shape : Shape calls e' := by
  obtain ⟨hfin, hread, he'⟩ := notify_eq_some hs
  have hsh := h.shape
  have htasks : e'.tasks = e.tasks := by simp [he']
  have hcaller : e'.caller = e.caller := by simp [he']
  have hphase : ∀ j, j ≠ t → (e'.task j).phase = (e.task j).phase := fun j =>
    notify_field_ne hs Task.phase (fun _ _ _ => rfl)
  have hrec := notify_field hs Task.recorded (fun _ => rfl) (fun _ _ _ => rfl)
  refine ⟨?_, htasks ▸ hsh.tasks_le, ?_, ?_, ?_, ?_, ?_, ?_, ?_, ?_, ?_⟩
  · -- only existing tasks change
    intro j hj
    rw [htasks] at hj
    have hjB : j ∉ (e.task t).blocked := fun hjB => by
      have := h.lt_tasks_of_blocked hjB
      omega
    have := notify_lt_tasks h hs
    rw [notify_task_other hs hjB (by omega)]
    exact hsh.absent j hj
  · intro j
    rw [hcaller, ← hsh.setup_iff j]
    by_cases hjt : j = t
    · subst hjt
      simp [notify_task_self hs, hfin]
    · rw [hphase j hjt]
  · intro j
    rw [hcaller, htasks]
    exact hsh.current_last j
  · intro j
    rw [hrec, hcaller, htasks]
    exact hsh.recorded_iff j
  · intro j
    rw [hrec, hcaller]
    exact hsh.recorded_fresh j
  · intro j
    rw [notify_field hs Task.deps (fun _ => rfl) (fun _ _ _ => rfl)]
    exact hsh.deps_lt j
  · intro x
    by_cases hxt : x = t
    · subst hxt
      simp [notify_task_self hs]
    · rw [notify_executed hs, if_neg hxt, hphase x hxt]
      exact hsh.executed_iff x
  · intro r x
    rw [notify_field hs Task.reading (fun _ => rfl) (fun _ _ _ => rfl),
      notify_field hs Task.readers (fun _ => rfl) (fun _ _ _ => rfl)]
    exact hsh.reading_iff r x
  · -- `t` reads nothing any more
    intro r x hx
    rw [notify_field hs Task.reading (fun _ => rfl) (fun _ _ _ => rfl)] at hx
    by_cases hrt : r = t
    · subst hrt
      simp [hread] at hx
    · rw [hphase r hrt]
      exact hsh.reading_live r x hx
  · intro j hj
    by_cases hjt : j = t
    · subst hjt
      simp [notify_task_self hs]
    · rw [hphase j hjt]
      exact hsh.created j (htasks ▸ hj)

/-- Each blocked task's counter loses one, as its waiting set loses `t`. -/
theorem notify_counter (j : ℕ) : (e'.task j).dependencies =
    (if (e'.task j).phase = .setup then (maxDependencies : ℤ) - (e'.task j).deps.card else 0) +
      (e'.waitingOn j).card := by
  have hco := h.counts
  rw [notify_waitingOn hs]
  by_cases hjt : j = t
  · subst hjt
    have hold := hco.counter j
    simp [(notify_eq_some hs).1, notify_waitingOn_self h hs] at hold
    simp [notify_task_self hs, hold, notify_waitingOn_self h hs]
  · by_cases hjB : j ∈ (e.task t).blocked
    · have hmem := hco.mem_waitingOn_of_blocked hjB
      have hcard := Finset.card_erase_of_mem hmem
      have hpos : 0 < (e.waitingOn j).card := Finset.card_pos.mpr ⟨t, hmem⟩
      rw [notify_task_blocked hs hjB hjt]
      simp only [hco.counter j, hcard]
      split_ifs <;> omega
    · rw [notify_task_other hs hjB hjt,
        Finset.erase_eq_of_notMem (hco.not_mem_waitingOn_of_not_blocked hjB)]
      exact hco.counter j

/-- A blocked task is pushed when `t` releases it. -/
theorem notify_pushes (hD : DepsBelow maxDependencies e) (j : ℕ) : (e'.task j).pushes =
    if 2 ≤ (e'.task j).phase.rank ∧ e'.waitingOn j = ∅ then 1 else 0 := by
  have hco := h.counts
  rw [notify_waitingOn hs]
  by_cases hjt : j = t
  · subst hjt
    have hold := hco.pushes j
    simp [(notify_eq_some hs).1, notify_waitingOn_self h hs, Phase.rank] at hold
    simp [notify_task_self hs, hold, notify_waitingOn_self h hs, Phase.rank]
  · by_cases hjB : j ∈ (e.task t).blocked
    · -- it waits on `t`, so it has not been pushed yet
      have hmem := hco.mem_waitingOn_of_blocked hjB
      have hpush0 : (e.task j).pushes = 0 := by
        rw [hco.pushes j, if_neg]
        rintro ⟨-, hU⟩
        rw [hU] at hmem
        simp at hmem
      rw [notify_task_blocked hs hjB hjt, hpush0]
      rcases h.blocked_phase hjB with hp | hp <;> simp [hp, h.mem_released_iff hD hjB, Phase.rank]
    · rw [notify_task_other hs hjB hjt,
        Finset.erase_eq_of_notMem (hco.not_mem_waitingOn_of_not_blocked hjB)]
      exact hco.pushes j

/-- The notification sends on `executable` exactly the tasks it releases. -/
theorem notify_executable (hD : DepsBelow maxDependencies e) (j : ℕ) :
    e'.executable.count j =
      if (e'.task j).phase = .pending ∧ e'.waitingOn j = ∅ then 1 else 0 := by
  have hco := h.counts
  rw [notify_waitingOn hs, notify_count_executable hs, hco.executable j]
  by_cases hjt : j = t
  · have hnrel : j ∉ e.released t := fun hr =>
      h.not_blocked_self (hjt ▸ (Finset.mem_filter.mp hr).1)
    subst hjt
    simp [notify_task_self hs, (notify_eq_some hs).1, hnrel]
  · rw [notify_field_ne hs Task.phase (fun _ _ _ => rfl) hjt]
    by_cases hjB : j ∈ (e.task t).blocked
    · have hU : e.waitingOn j ≠ ∅ := Finset.ne_empty_of_mem (hco.mem_waitingOn_of_blocked hjB)
      simp [hU, h.mem_released_iff hD hjB]
    · have hnrel : j ∉ e.released t := fun hr => hjB (Finset.mem_filter.mp hr).1
      rw [Finset.erase_eq_of_notMem (hco.not_mem_waitingOn_of_not_blocked hjB)]
      simp [hnrel]

theorem notify_counts (hD : DepsBelow maxDependencies e) : Counts maxDependencies e' where
  blocked_iff x j := by
    by_cases hxt : x = t
    · subst hxt
      simp [notify_task_self hs]
    · rw [notify_field_ne hs Task.blocked (fun _ _ _ => rfl) hxt,
        notify_field hs Task.deps (fun _ => rfl) (fun _ _ _ => rfl), notify_executed hs,
        if_neg hxt]
      exact h.counts.blocked_iff x j
  counter := notify_counter h hs
  pushes := notify_pushes h hs hD
  executable := notify_executable h hs hD
  taken j hj := by
    rw [notify_waitingOn hs]
    by_cases hjt : j = t
    · subst hjt
      simp [notify_waitingOn_self h hs]
    · rw [notify_field_ne hs Task.phase (fun _ _ _ => rfl) hjt] at hj
      rw [h.counts.taken j hj]
      simp

/-- The order: dependencies stay and phases only advance. -/
theorem notify_order : e'.Order :=
  h.order.grow (by simp [(notify_eq_some hs).2.2])
    (notify_field hs Task.recorded (fun _ => rfl) (fun _ _ _ => rfl))
    (notify_field hs Task.readers (fun _ => rfl) (fun _ _ _ => rfl))
    (fun j => (notify_field hs Task.deps (fun _ => rfl) (fun _ _ _ => rfl) j).symm.subset)
    (notify_rank_mono hs)

/-- The notification moves `t` from `finished` to `done`; its counts of starts and returns
stay. -/
theorem notify_runs : e'.Runs := by
  obtain ⟨hfin, -, he'⟩ := notify_eq_some hs
  have hr := h.runs
  have hret := hr.returns t
  rw [if_pos (by simp [hfin, Phase.rank])] at hret
  have hrec := notify_field hs Task.recorded (fun _ => rfl) (fun _ _ _ => rfl)
  refine hr.update_one (t := t)
    (fun j hj => ⟨notify_field_ne hs Task.phase (fun _ _ _ => rfl) hj,
      notify_field_ne hs Task.starts (fun _ _ _ => rfl) hj,
      notify_field_ne hs Task.returns (fun _ _ _ => rfl) hj, hrec j⟩)
    (hrec t) (by simp [he']) ?_ ?_ ?_ ?_ ?_
    (fun h1 => .inl (by simpa [notify_task_self hs] using h1))
    (fun h1 => by simpa [notify_task_self hs] using h1) <;>
    simp [notify_task_self hs, hr.starts_le t, hret, Phase.rank]
  intro h0
  have := hr.skipped t (by simp [hfin, Phase.rank]) h0
  simpa [he'] using this

end Notify

/-- **The notification.** Each blocked task loses one from its counter and `t` from its
waiting set; one that `Run` still records keeps a positive counter, because it has fewer than
`maxDependencies` dependencies; one that `Run` is done with is sent on `executable` when its
waiting set becomes empty. -/
theorem inv_notify (hD : DepsBelow maxDependencies e) (h : Inv maxDependencies calls e)
    (hs : e.notify t = some e') : Inv maxDependencies calls e' :=
  ⟨notify_shape h hs, notify_counts h hs hD, notify_order h hs, notify_runs h hs⟩

/-! ### Recording a key -/

/-- Adding to `d` the elements of `b`, of which those already in `d` are in `u ⊆ d`, adds as
many to `d` as to `u`: blocking on tasks that have not executed keeps the counter of the task
being recorded. -/
theorem card_union_sub_eq {d u b : Finset ℕ} (hud : u ⊆ d) (hb : ∀ x ∈ b, x ∈ d → x ∈ u) :
    ((d ∪ b).card : ℤ) - d.card = ((u ∪ b).card : ℤ) - u.card := by
  have h₁ := Finset.card_union_add_card_inter d b
  have h₂ := Finset.card_union_add_card_inter u b
  have hinter : d ∩ b = u ∩ b := by
    ext x
    simp only [Finset.mem_inter]
    constructor
    · rintro ⟨hd, hx⟩
      exact ⟨hb x hx hd, hx⟩
    · rintro ⟨hu, hx⟩
      exact ⟨hud hu, hx⟩
  rw [hinter] at h₁
  omega

section RecordEffect

variable {id : ℕ} {keys : Keys} {k : Bytes} {v : Permissions}
  (he' : e' = { e.recordKey id k v with caller := .running id (keys.erase k) })
include he'

theorem record_task (y : ℕ) : e'.task y = { e.task y with
    recorded := if y = id then (k, v) :: (e.task y).recorded else (e.task y).recorded
    reading := if y = id then (e.task y).reading ∪ e.readSet k v else (e.task y).reading
    readers := if y ∈ e.readSet k v then insert id (e.task y).readers else (e.task y).readers
    blocked := if y ∈ e.blockSet id k v then insert id (e.task y).blocked
      else (e.task y).blocked
    deps := if y = id then (e.task y).deps ∪ e.blockSet id k v else (e.task y).deps } := by
  subst he'
  exact recordKey_task k v

/-- Recording changes no phase, flag, counter or count. -/
theorem record_field {α : Type} (g : Task → α)
    (hg : ∀ u : Task, ∀ rc rd rs bl dp, g { u with
      recorded := rc, reading := rd, readers := rs, blocked := bl, deps := dp } = g u)
    (y : ℕ) : g (e'.task y) = g (e.task y) := by
  rw [record_task he', hg]

theorem record_pending (j : ℕ) :
    e'.caller.pending j = if j = id then keys.erase k else ∅ := by
  simp [he', Caller.pending, eq_comm]

end RecordEffect

section Record

variable {id : ℕ} {keys : Keys} {k : Bytes} {v : Permissions}
  (h : Inv maxDependencies calls e) (hc : e.caller = .running id keys)
include h hc

variable (hv : keys.lookup k = some v)
include hv

/-- The task being recorded has not recorded the key yet. -/
theorem record_fresh (p : Permissions) : (k, p) ∉ (e.task id).recorded := by
  intro hk
  have := h.shape.recorded_fresh id k p hk
  simp [hc, Caller.pending, hv] at this

/-- The node of the key is an earlier task. -/
theorem record_node_lt {lt : ℕ} (hk : e.nodes k = some lt) : lt < id := by
  obtain ⟨p, hp⟩ := h.order.node_recorded k lt hk
  have hlt := h.shape.lt_tasks_of_recorded hp
  have hne : lt ≠ id := by
    rintro rfl
    exact record_fresh h hc hv p hp
  have := record_last h hc
  omega

/-- What the task blocks on: earlier tasks that have not executed. -/
theorem blockSet_spec {x : ℕ} (hx : x ∈ e.blockSet id k v) :
    x < id ∧ (e.task x).executed = false := by
  obtain ⟨lt, hk, ⟨-, hr, hne⟩ | ⟨rfl, hex⟩⟩ := mem_blockSet.mp hx
  · -- a reader of the node is reading it, so it has not executed
    have hread := (h.shape.reading_iff x lt).mpr hr
    have hlive := h.shape.reading_live x lt hread
    have hlt : x < e.tasks := by
      apply h.shape.lt_tasks_of_ne_absent
      intro habs
      simp [habs, Task.absent] at hread
    refine ⟨by have := record_last h hc; omega, ?_⟩
    cases hex : (e.task x).executed
    · rfl
    · have := (h.shape.executed_iff x).mp hex
      rw [this] at hlive
      simp [Phase.rank] at hlive
  · exact ⟨record_node_lt h hc hv hk, hex⟩

variable (he' : e' = { e.recordKey id k v with caller := .running id (keys.erase k) })
include he'

theorem record_shape : Shape calls e' := by
  have hsh := h.shape
  have hlast := record_last h hc
  have htask := record_task he'
  have hphase := record_field he' Task.phase (fun _ _ _ _ _ _ => rfl)
  have hexec := record_field he' Task.executed (fun _ _ _ _ _ _ => rfl)
  have htasks : e'.tasks = e.tasks := by simp [he']
  have hcur : e'.caller.current = e.caller.current := by simp [he', hc, Caller.current]
  have hpend : ∀ j, e.caller.pending j = if j = id then keys else ∅ := by
    simp [hc, Caller.pending, eq_comm]
  have hread_lt : ∀ x ∈ e.readSet k v, x < id := fun x hx =>
    record_node_lt h hc hv (mem_readSet.mp hx).2
  refine ⟨?_, htasks ▸ hsh.tasks_le, ?_, ?_, ?_, ?_, ?_, ?_, ?_, ?_, ?_⟩
  · -- nothing at or past the next id moves
    intro j hj
    rw [htasks] at hj
    have hj_id : j ≠ id := by omega
    have hj_r : j ∉ e.readSet k v := fun hr => by have := hread_lt j hr; omega
    have hj_b : j ∉ e.blockSet id k v := fun hb => by
      have := (blockSet_spec h hc hv hb).1
      omega
    rw [htask j]
    simp only [hj_id, hj_r, hj_b, if_false]
    rw [hsh.absent j hj]
  · intro j
    rw [hphase, hcur]
    exact hsh.setup_iff j
  · intro j
    rw [hcur, htasks]
    exact hsh.current_last j
  · intro j hj k' p
    rw [htasks] at hj
    rw [record_pending he', ← hsh.recorded_iff j hj k' p, hpend, htask j]
    by_cases hjid : j = id
    · subst hjid
      simp only [if_true]
      by_cases hk : k' = k
      · subst hk
        have hfresh := record_fresh h hc hv p
        simp [AList.lookup_erase, hv, hfresh, eq_comm]
      · simp [AList.lookup_erase_ne hk, hk]
    · simp [hjid]
  · intro j k' p hkp
    rw [record_pending he']
    rw [htask j] at hkp
    by_cases hjid : j = id
    · subst hjid
      simp only [if_true, List.mem_cons, Prod.mk.injEq] at hkp ⊢
      by_cases hk : k' = k
      · subst hk
        exact AList.lookup_erase _ _
      · rw [AList.lookup_erase_ne hk]
        have := hsh.recorded_fresh j k' p (hkp.resolve_left fun h' => hk h'.1)
        simpa [hpend] using this
    · simp [hjid]
  · intro j x hx
    rw [htask j] at hx
    dsimp only at hx
    split_ifs at hx with hjid
    · rcases Finset.mem_union.mp hx with hx | hx
      · exact hsh.deps_lt j x hx
      · subst hjid
        exact (blockSet_spec h hc hv hx).1
    · exact hsh.deps_lt j x hx
  · intro x
    rw [hexec, hphase]
    exact hsh.executed_iff x
  · intro r x
    rw [htask r, htask x]
    dsimp only
    have hold := hsh.reading_iff r x
    by_cases hr : r = id
    · subst hr
      by_cases hx : x ∈ e.readSet k v <;> simp [hx, hold]
    · by_cases hx : x ∈ e.readSet k v <;> simp [hr, hx, hold]
  · intro r x hx
    rw [hphase]
    rw [htask r] at hx
    dsimp only at hx
    split_ifs at hx with hr
    · subst hr
      rw [record_setup h hc]
      decide
    · exact hsh.reading_live r x hx
  · intro j hj
    rw [hphase]
    exact hsh.created j (htasks ▸ hj)

theorem record_counts : Counts maxDependencies e' := by
  have hco := h.counts
  have htask := record_task he'
  have hphase := record_field he' Task.phase (fun _ _ _ _ _ _ => rfl)
  have hexec := record_field he' Task.executed (fun _ _ _ _ _ _ => rfl)
  have hsetup := record_setup h hc
  have hspec := fun x (hx : x ∈ e.blockSet id k v) => blockSet_spec h hc hv hx
  -- the recorded task now also waits on everything it blocked on; no other waiting set moves
  have hwait : ∀ j, e'.waitingOn j =
      if j = id then e.waitingOn j ∪ e.blockSet id k v else e.waitingOn j := by
    intro j
    unfold waitingOn
    simp only [hexec, htask j]
    split_ifs with hj
    · rw [Finset.filter_union, Finset.filter_true_of_mem fun x hx => (hspec x hx).2]
    · rfl
  refine ⟨?_, ?_, ?_, ?_, ?_⟩
  · intro x j
    rw [hexec, htask x, htask j]
    dsimp only
    have hold := hco.blocked_iff x j
    by_cases hj : j = id
    · subst hj
      by_cases hx : x ∈ e.blockSet j k v
      · simp [hx, (hspec x hx).2]
      · simp [hx, hold]
    · by_cases hx : x ∈ e.blockSet id k v <;> simp [hj, hx, hold]
  · intro j
    rw [record_field he' Task.dependencies (fun _ _ _ _ _ _ => rfl), hphase, hwait j, htask j]
    dsimp only
    by_cases hj : j = id
    · subst hj
      simp only [if_true, hsetup]
      have hsub := card_union_sub_eq (Finset.filter_subset _ (e.task j).deps)
        (b := e.blockSet j k v) fun x hx hd =>
          Finset.mem_filter.mpr ⟨hd, (hspec x hx).2⟩
      rw [hco.counter j, if_pos hsetup]
      unfold waitingOn at hsub ⊢
      omega
    · simp only [hj, if_false]
      exact hco.counter j
  · intro j
    rw [record_field he' Task.pushes (fun _ _ _ _ _ _ => rfl), hphase, hwait j, hco.pushes j]
    by_cases hj : j = id
    · subst hj
      simp [hsetup, Phase.rank]
    · simp only [hj, if_false]
  · intro j
    have hx : e'.executable = e.executable := by simp [he']
    rw [hx, hphase, hwait j, hco.executable j]
    by_cases hj : j = id
    · subst hj
      simp [hsetup]
    · simp only [hj, if_false]
  · intro j hj
    rw [hphase] at hj
    have hjid : j ≠ id := by
      rintro rfl
      rw [hsetup] at hj
      simp [Phase.rank] at hj
    rw [hwait j, if_neg hjid]
    exact hco.taken j hj

/-- **The key step of the ordering.** After task `id` records `k`, every task that recorded
`k` before it, with a conflict, is ordered before it: the node directly, or through the
node, or, if it only read `k`, because a writer blocks on the node's readers. -/
theorem record_before {i : ℕ} {p : Permissions} (hi : (k, p) ∈ (e.task i).recorded)
    (hconf : v ≠ Permissions.read ∨ p ≠ Permissions.read) : e'.Before i id := by
  have hphase := record_field he' Task.phase (fun _ _ _ _ _ _ => rfl)
  have hmono : ∀ {a b}, e.Before a b → e'.Before a b := Before.mono
    (fun j => by rw [record_task he' j]; dsimp only; split_ifs <;> simp)
    (fun j => by rw [hphase])
  have hdeps_id : ∀ x ∈ e.blockSet id k v, x ∈ (e'.task id).deps := by
    intro x hx
    rw [record_task he' id]
    simp [hx]
  rcases hk : e.nodes k with _ | lt
  · exact absurd hi (h.order.node_none k hk i p)
  -- the node comes before: it is a dependency, or it has executed
  have hlt : e'.Before lt id := by
    cases hx : (e.task lt).executed
    · exact .inr (.single (hdeps_id lt (mem_blockSet.mpr ⟨lt, hk, .inr ⟨rfl, hx⟩⟩)))
    · left
      rw [hphase, (h.shape.executed_iff lt).mp hx]
      decide
  by_cases hil : i = lt
  · subst hil
    exact hlt
  rcases h.order.node_last k lt hk i p hi hil with hb | ⟨hp, hr⟩
  · cases hx : (e.task lt).executed
    · exact (hmono hb).of_mem_deps (hdeps_id lt (mem_blockSet.mpr ⟨lt, hk, .inr ⟨rfl, hx⟩⟩))
    · left
      rw [hphase]
      refine hb.finished_of_taken h.counts.taken h.shape.executed_iff ?_
      rw [(h.shape.executed_iff lt).mp hx]
      decide
  · -- a reader of the node: only a writer conflicts with it, and a writer blocks on it
    have hv' : v ≠ Permissions.read := hconf.resolve_right (not_not.mpr hp)
    have hine : i ≠ id := fun hid => record_fresh h hc hv p (hid ▸ hi)
    exact .inr (.single (hdeps_id i (mem_blockSet.mpr ⟨lt, hk, .inl ⟨hv', hr, hine⟩⟩)))

theorem record_order : e'.Order := by
  have ho := h.order
  have htask := record_task he'
  have hphase := record_field he' Task.phase (fun _ _ _ _ _ _ => rfl)
  have hmono : ∀ {a b}, e.Before a b → e'.Before a b := Before.mono
    (fun j => by rw [htask j]; dsimp only; split_ifs <;> simp)
    (fun j => by rw [hphase])
  have hrec : ∀ y, (e'.task y).recorded =
      if y = id then (k, v) :: (e.task y).recorded else (e.task y).recorded := by
    intro y
    rw [htask y]
  have hrec_sub : ∀ y a, a ∈ (e.task y).recorded → a ∈ (e'.task y).recorded := by
    intro y a ha
    rw [hrec y]
    split_ifs <;> simp [ha]
  -- a recorded key of `e'`: the new one, or an old one
  have hrec_cases : ∀ y a, a ∈ (e'.task y).recorded → (y = id ∧ a = (k, v)) ∨
      a ∈ (e.task y).recorded := by
    intro y a ha
    rw [hrec y] at ha
    split_ifs at ha with hy
    · rcases List.mem_cons.mp ha with ha | ha
      · exact .inl ⟨hy, ha⟩
      · exact .inr ha
    · exact .inr ha
  have hnodes : ∀ k', e'.nodes k' =
      if k' = k ∧ ¬ (v = Permissions.read ∧ (e.nodes k).isSome) then some id else e.nodes k' := by
    intro k'
    have : e'.nodes = (e.recordKey id k v).nodes := by simp [he']
    rw [this, recordKey_nodes]
    by_cases hk : k' = k
    · subst hk
      split_ifs <;> simp_all
    · split_ifs <;> simp_all
  refine ⟨?_, ?_, ?_, ?_⟩
  · intro k' lt hk'
    rw [hnodes] at hk'
    split_ifs at hk' with hkk
    · have hid : lt = id := (Option.some.inj hk').symm
      rw [hid, hkk.1]
      exact ⟨v, by rw [hrec id]; simp⟩
    · obtain ⟨p, hp⟩ := ho.node_recorded k' lt hk'
      exact ⟨p, hrec_sub lt _ hp⟩
  · intro k' lt hk' i p hi hne
    rw [hnodes] at hk'
    split_ifs at hk' with hkk
    · -- `id` takes the node: it writes `k`, or `k` had no node
      have hid : lt = id := (Option.some.inj hk').symm
      rw [hid] at hne ⊢
      rw [hkk.1] at hi
      rcases hrec_cases i _ hi with ⟨hi', -⟩ | hi
      · exact absurd hi' hne
      left
      rcases hwk : e.nodes k with _ | lt'
      · exact absurd hi (ho.node_none k hwk i p)
      · have hv' : v ≠ Permissions.read := fun hr => hkk.2 ⟨hr, by simp [hwk]⟩
        exact record_before h hc hv he' hi (.inl hv')
    · rcases hrec_cases i _ hi with ⟨hid, hkp⟩ | hi
      · -- `id` registers as a reader of the node
        obtain ⟨hk1, hp1⟩ := Prod.mk.inj hkp
        rw [hk1] at hk' hkk
        have hread : v = Permissions.read := by
          by_contra hv'
          exact hkk ⟨rfl, fun h => hv' h.1⟩
        right
        refine ⟨hp1.trans hread, ?_⟩
        rw [htask lt, hid]
        have : lt ∈ e.readSet k v := mem_readSet.mpr ⟨hread, hk'⟩
        simp [this]
      · rcases ho.node_last k' lt hk' i p hi hne with hb | ⟨hp, hr⟩
        · exact .inl (hmono hb)
        · right
          refine ⟨hp, ?_⟩
          rw [htask lt]
          dsimp only
          split_ifs <;> simp [hr]
  · intro k' hk' i p hi
    rw [hnodes] at hk'
    split_ifs at hk' with hkk
    rcases hrec_cases i _ hi with ⟨-, hkp⟩ | hi
    · obtain ⟨hk1, -⟩ := Prod.mk.inj hkp
      rw [hk1] at hk' hkk
      exact hkk ⟨rfl, fun h => by simp [hk'] at h⟩
    · exact ho.node_none k' hk' i p hi
  · intro i j a b hij ha hb hab
    have hlast := record_last h hc
    rcases hrec_cases j b hb with ⟨hj, hbkv⟩ | hb
    · -- the new key against an older task's
      rcases hrec_cases i a ha with ⟨hi, -⟩ | ha
      · omega
      obtain ⟨ka, pa⟩ := a
      obtain ⟨hkey, hconf⟩ := hab
      rw [hbkv] at hkey hconf
      simp only at hkey hconf
      rw [hkey] at ha
      rw [hj]
      exact record_before h hc hv he' ha hconf.symm
    · rcases hrec_cases i a ha with ⟨hi, -⟩ | ha
      · -- a task after the one being recorded has recorded nothing
        have := h.shape.lt_tasks_of_recorded hb
        omega
      · exact hmono (ho.ordered i j a b hij ha hb hab)

omit hv in
theorem record_runs : e'.Runs := by
  have hr := h.runs
  have hphase := record_field he' Task.phase (fun _ _ _ _ _ _ => rfl)
  have hstarts := record_field he' Task.starts (fun _ _ _ _ _ _ => rfl)
  have hreturns := record_field he' Task.returns (fun _ _ _ _ _ _ => rfl)
  have herr : e'.err = e.err := by simp [he']
  refine ⟨?_, ?_, ?_, ?_, ?_, ?_⟩
  · intro t
    rw [hstarts]
    exact hr.starts_le t
  · intro t
    rw [hstarts, hphase]
    exact hr.starts_zero t
  · intro t
    rw [hstarts, hphase]
    exact hr.running t
  · intro t
    rw [hreturns, hphase, hstarts]
    exact hr.returns t
  · intro t
    rw [hstarts, hphase, herr]
    exact hr.skipped t
  · -- only the task being recorded gains a key, and neither it nor any later task has started
    intro i j a b hij ha hb hab hj
    rw [hstarts] at hj
    rw [hreturns]
    have hlast := record_last h hc
    have hs0 : (e.task id).starts = 0 :=
      hr.starts_zero id (by simp [record_setup h hc, Phase.rank])
    have hj_id : j ≠ id := by
      rintro rfl
      omega
    have hi_id : i ≠ id := by
      rintro rfl
      rw [h.shape.absent j (by omega)] at hj
      simp [Task.absent] at hj
    rw [record_task he' i] at ha
    rw [record_task he' j] at hb
    simp only [hi_id, hj_id, if_false] at ha hb
    exact hr.returned_first i j a b hij ha hb hab hj

end Record

theorem inv_record {k : Bytes} (h : Inv maxDependencies calls e) (hs : e.record k = some e') :
    Inv maxDependencies calls e' := by
  obtain ⟨id, keys, v, hc, hv, he'⟩ := record_eq_some hs
  exact ⟨record_shape h hc hv he', record_counts h hc hv he', record_order h hc hv he',
    record_runs h hc he'⟩

/-- **Invariance.** Every step from a state in which no task has as many dependencies as
`maxDependencies` keeps the invariant. -/
theorem inv_stableWhere :
    (system maxDependencies calls).StableWhere (DepsBelow maxDependencies)
      (Inv maxDependencies calls : Executor ε → Prop) := by
  intro a e e' hs hD h
  cases a with
  | run => exact inv_run h hs
  | record k => exact inv_record h hs
  | enqueue => exact inv_enqueue h hs
  | receive t => exact inv_receive h hs
  | check t => exact inv_check h hs
  | finish t r => exact inv_finish h hs
  | unread t x => exact inv_unread h hs
  | notify t => exact inv_notify hD h hs
  | stop =>
    cases hs
    exact inv_stop h
  | wait => exact inv_wait h hs

/-- Fewer `Run` calls than `maxDependencies` leave every task fewer dependencies than that. -/
theorem Inv.depsBelow (hD : calls.length ≤ maxDependencies) (h : Inv maxDependencies calls e) :
    DepsBelow maxDependencies e := by
  intro j hj
  have hcard := h.shape.card_deps_le j
  have := h.shape.tasks_le
  omega

/-- The invariant is kept by every step when there are fewer `Run` calls than
`maxDependencies`. -/
theorem inv_stable (hD : calls.length ≤ maxDependencies) :
    (system maxDependencies calls).Stable (Inv maxDependencies calls : Executor ε → Prop) :=
  fun a e e' hs h => inv_stableWhere a e e' hs (h.depsBelow hD) h

theorem inv_of_reaches (hD : calls.length ≤ maxDependencies)
    (hr : (system maxDependencies calls).Reaches new e) : Inv maxDependencies calls e :=
  (inv_stable hD).reaches hr inv_new

theorem depsBelow_of_reaches (hD : calls.length ≤ maxDependencies)
    (hr : (system maxDependencies calls).Reaches new e) : DepsBelow maxDependencies e :=
  (inv_of_reaches hD hr).depsBelow hD

/-- Once `Wait` has returned, every task is done. -/
def WaitedDone (e : Executor ε) : Prop :=
  e.caller = .waited → ∀ j < e.tasks, (e.task j).phase = .done

/-- After `Wait`, no worker has anything left to do: a task it could take is not done. -/
theorem waitedDone_stableWhere :
    (system maxDependencies calls).StableWhere (DepsBelow maxDependencies)
      (fun e : Executor ε => Inv maxDependencies calls e ∧ e.WaitedDone) := by
  intro a e e' hs hD ⟨h, hw⟩
  refine ⟨inv_stableWhere a e e' hs hD h, ?_⟩
  -- a worker step needs a task that is made and not done
  have hbusy : ∀ t, (e.task t).phase ≠ .absent → (e.task t).phase ≠ .done →
      e.caller ≠ .waited := by
    intro t ht hd hc
    have hlt : t < e.tasks := by
      by_contra hge
      exact ht (by rw [h.shape.absent t (by omega)]; rfl)
    exact hd (hw hc t hlt)
  intro hc'
  cases a with
  | run =>
    obtain ⟨_, hc, -, rfl⟩ := run_eq_some hs
    cases hc'
  | record k =>
    obtain ⟨_, _, _, hc, -, rfl⟩ := record_eq_some hs
    cases hc'
  | enqueue =>
    obtain ⟨_, _, hc, -, rfl⟩ := enqueue_eq_some hs
    cases hc'
  | receive t =>
    obtain ⟨hx, rfl⟩ := receive_eq_some hs
    have hp := (h.counts.pending_of_mem hx).1
    exact absurd hc' (hbusy t (by simp [hp]) (by simp [hp]))
  | check t =>
    obtain ⟨hp, rfl⟩ := check_eq_some hs
    exact absurd hc' (hbusy t (by simp [hp]) (by simp [hp]))
  | finish t r =>
    obtain ⟨hp, rfl⟩ := finish_eq_some hs
    exact absurd hc' (hbusy t (by simp [hp]) (by simp [hp]))
  | unread t x =>
    obtain ⟨hp, -, rfl⟩ := unread_eq_some hs
    exact absurd hc' (hbusy t (by simp [hp]) (by simp [hp]))
  | notify t =>
    obtain ⟨hp, -, rfl⟩ := notify_eq_some hs
    exact absurd hc' (hbusy t (by simp [hp]) (by simp [hp]))
  | stop =>
    cases hs
    exact hw hc'
  | wait =>
    obtain ⟨-, hdone, rfl⟩ := wait_eq_some hs
    exact hdone

theorem waitedDone_stable (hD : calls.length ≤ maxDependencies) :
    (system maxDependencies calls).Stable
      (fun e : Executor ε => Inv maxDependencies calls e ∧ e.WaitedDone) :=
  fun a e e' hs h => waitedDone_stableWhere a e e' hs (h.1.depsBelow hD) h

end Steps

/-! ## What the invariant gives -/

section Results

variable {maxDependencies : ℕ} {calls : List Keys}

/-- A task that `Run` is done with has recorded every key of its call. -/
theorem Inv.recorded_of_lookup (h : Inv maxDependencies calls e) {j : ℕ} (hj : j < e.tasks)
    (hns : (e.task j).phase ≠ .setup) {k : Bytes} {p : Permissions}
    (hk : (calls.getD j ∅).lookup k = some p) : (k, p) ∈ (e.task j).recorded := by
  have hpend : e.caller.pending j = ∅ := by
    cases hc : e.caller with
    | running id keys =>
      have hid : id ≠ j := fun hid =>
        hns ((h.shape.setup_iff j).mpr (by simp [hc, Caller.current, hid]))
      simp [Caller.pending, hid]
    | idle => rfl
    | waited => rfl
  simpa [hpend] using (h.shape.recorded_iff j hj k p).mpr hk

/-- A task whose `f` has started is past `Run`. -/
theorem Inv.lt_tasks_of_started (h : Inv maxDependencies calls e) {j : ℕ}
    (hj : 0 < (e.task j).starts) : j < e.tasks ∧ (e.task j).phase ≠ .setup := by
  have hrank : ¬ (e.task j).phase.rank ≤ 3 := fun hr => by
    rw [h.runs.starts_zero j hr] at hj
    omega
  refine ⟨h.shape.lt_tasks_of_ne_absent fun habs => ?_, fun hs => ?_⟩
  · rw [habs] at hrank
    simp [Task.absent, Phase.rank] at hrank
  · rw [hs] at hrank
    simp [Phase.rank] at hrank

/-- **Conflicting tasks run in order.** In every reachable state, if the `f` of task `j` has
started, then the `f` of every earlier task with a conflicting key has returned. -/
theorem Inv.returned_of_conflict (h : Inv maxDependencies calls e) {i j : ℕ} {k : Bytes}
    {p q : Permissions} (hij : i < j) (hi : (calls.getD i ∅).lookup k = some p)
    (hj : (calls.getD j ∅).lookup k = some q)
    (hpq : p ≠ Permissions.read ∨ q ≠ Permissions.read) (hstart : 0 < (e.task j).starts) :
    (e.task i).returns = 1 := by
  obtain ⟨hjlt, hjs⟩ := h.lt_tasks_of_started hstart
  -- the earlier task is past `Run` too: only the last task can be in it
  have his : (e.task i).phase ≠ .setup := fun hs => by
    have hcur := (h.shape.setup_iff i).mp hs
    have := h.shape.current_last i hcur
    omega
  have ha := h.recorded_of_lookup (by omega) his hi
  have hb := h.recorded_of_lookup hjlt hjs hj
  have h1 : (e.task j).starts = 1 := by
    have := h.runs.starts_le j
    omega
  exact h.runs.returned_first i j _ _ hij ha hb ⟨rfl, hpq⟩ h1

/-- A task is sent on `executable` at most once. -/
theorem Inv.pushes_le_one (h : Inv maxDependencies calls e) (t : ℕ) :
    (e.task t).pushes ≤ 1 := by
  rw [h.counts.pushes t]
  split_ifs <;> omega

/-- A task that is done was sent on `executable` once, and, unless an error is set, its `f`
ran and returned once. -/
theorem Inv.ran_once_of_done (h : Inv maxDependencies calls e) {j : ℕ}
    (hd : (e.task j).phase = .done) :
    (e.task j).pushes = 1 ∧ (e.err = none → (e.task j).starts = 1 ∧ (e.task j).returns = 1) := by
  have hrank : 5 ≤ (e.task j).phase.rank := by simp [hd, Phase.rank]
  refine ⟨?_, fun herr => ?_⟩
  · rw [h.counts.pushes j, if_pos ⟨by omega, h.counts.taken j (by omega)⟩]
  · have hstart : (e.task j).starts ≠ 0 := fun h0 => by
      have := h.runs.skipped j hrank h0
      simp [herr] at this
    have hle := h.runs.starts_le j
    have hs : (e.task j).starts = 1 := by omega
    refine ⟨hs, ?_⟩
    rw [h.runs.returns j, if_pos hrank, hs]

end Results

end Executor

variable {maxDependencies : ℕ} {calls : List Keys}

open Executor in
/-- **Executor ordering and exactly-once execution.** For `Run` calls with the keys of `calls`,
and every interleaving `acts` of the caller's and the workers' steps from `New` in which no task
has as many dependencies as `maxDependencies`, in the state it ends in: (a) the `f` of a task
has started only if the `f` of every earlier task with a conflicting key has returned; (b) every
task is sent on `executable` at most once, and once `Wait` has returned every task was sent
exactly once and, with no error set, its `f` ran and returned exactly once. -/
theorem conflicting_tasks_ordered_and_run_once {e : Executor ε} {acts : List (Action ε)}
    (hD : ∀ n e', (system maxDependencies calls).run (acts.take n) new = some e' →
      DepsBelow maxDependencies e')
    (hr : (system maxDependencies calls).run acts new = some e) :
    (∀ i j k p q, i < j → (calls.getD i ∅).lookup k = some p →
      (calls.getD j ∅).lookup k = some q → (p ≠ Permissions.read ∨ q ≠ Permissions.read) →
      0 < (e.task j).starts → (e.task i).returns = 1) ∧
    (∀ t, (e.task t).pushes ≤ 1) ∧
    (e.caller = .waited → ∀ j < e.tasks, (e.task j).pushes = 1 ∧
      (e.err = none → (e.task j).starts = 1 ∧ (e.task j).returns = 1)) := by
  have hw := waitedDone_stableWhere.run hD hr ⟨inv_new, fun hc => by cases hc⟩
  have h := hw.1
  refine ⟨fun i j k p q hij hi hj hpq hs => h.returned_of_conflict hij hi hj hpq hs,
    h.pushes_le_one, fun hc j hj => h.ran_once_of_done (hw.2 hc j hj)⟩

/-- Two calls that conflict on one key: a write, then a read. -/
def writeThenRead : List Keys :=
  [(∅ : Keys).insert [0, 0] .write, (∅ : Keys).insert [0, 0] .read]

/-- Both calls, then each task in turn on a worker, then `Wait`. -/
def writeThenReadSchedule : List (Action Unit) :=
  [.run, .record [0, 0], .enqueue, .run, .record [0, 0], .enqueue, .receive 0, .check 0,
    .finish 0 none, .notify 0, .receive 1, .check 1, .finish 1 none, .unread 1 0, .notify 1,
    .wait]

theorem write_then_read_ordered_and_run_once :
    ∃ e : Executor Unit, (system 2 writeThenRead).run writeThenReadSchedule new = some e ∧
      e.caller = .waited ∧ e.err = none ∧ e.tasks = 2 ∧
      ((∀ i j k p q, i < j → (writeThenRead.getD i ∅).lookup k = some p →
        (writeThenRead.getD j ∅).lookup k = some q →
        (p ≠ Permissions.read ∨ q ≠ Permissions.read) →
        0 < (e.task j).starts → (e.task i).returns = 1) ∧
      (∀ t, (e.task t).pushes ≤ 1) ∧
      (e.caller = .waited → ∀ j < e.tasks, (e.task j).pushes = 1 ∧
        (e.err = none → (e.task j).starts = 1 ∧ (e.task j).returns = 1))) :=
  ⟨_, rfl, rfl, rfl, rfl, @conflicting_tasks_ordered_and_run_once Unit 2 writeThenRead _
    writeThenReadSchedule
    (fun _ _ hn => Executor.depsBelow_of_reaches (by decide) (System.reaches_of_run hn)) rfl⟩

end Hypersdk.Executor
