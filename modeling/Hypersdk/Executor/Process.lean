import Hypersdk.Executor.Ordering
import Hypersdk.Foundations.Serial
import Hypersdk.Tstate.Program

/-!
# Executing a block on the executor is serial

`StatelessBlock.Execute` (`chain/processor.go`) hands each transaction to the executor's `Run`
with its state keys. The function it runs reads the block's changes (`ts`) through a new view
and, when it succeeds, commits the view's changes into `ts`. `Processor` pairs the executor's
steps with the block's changes: the `f` of a task computes the layer of changes it commits (a
`body` of `Foundations.Serial`) when its `check` step calls it, returns what it computed at its
`finish` step, and commits the layer there if it is not an error.

With bodies that read only the keys their task declared and change only those declared with
more than `state.Read`, `block_execution_serial`: in every reachable state the block's changes
are those of running the committed tasks one after another in the order of their `Run` calls,
and once `Wait` returns without an error, those of running every task in that order.

Code that reaches the state only through its view (`Tstate.ViewProg`) commits such a body
(`commitOf_readsOnly`, `commitOf_writesOnly`), so a block of such transactions executes serially
with no assumption on its code (`programs_execute_serially`).

Two facts of the executor carry it (`Executor.Inv`). While a task's `f` runs, no task that
conflicts with it commits, so what it computed stays what it would compute from the current
changes (`Inv.computed`): when it reads is immaterial. And a task commits before every later
task that conflicts with it has started, so the later tasks already committed are independent
of it and it may be moved in front of them (`serial_insert_append`).
-/

namespace Hypersdk.Executor

set_option linter.dupNamespace false

open Foundations Function State

variable {ε : Type}

/-- The keys task `j` declared. -/
def declared (calls : List Keys) (j : ℕ) : Set Bytes :=
  {k | ((calls.getD j ∅).lookup k).isSome}

/-- The keys task `j` declared with more than `state.Read`. -/
def declaredWrites (calls : List Keys) (j : ℕ) : Set Bytes :=
  {k | ∃ p, (calls.getD j ∅).lookup k = some p ∧ p ≠ Permissions.read}

/-- Tasks with no conflicting key have independent footprints. -/
theorem independent_of_no_conflict {calls : List Keys} {i j : ℕ}
    (h : ∀ k p q, (calls.getD i ∅).lookup k = some p →
      (calls.getD j ∅).lookup k = some q → p = Permissions.read ∧ q = Permissions.read) :
    Independent (declared calls i) (declaredWrites calls i) (declared calls j)
      (declaredWrites calls j) where
  write_read := Set.disjoint_left.mpr fun k ⟨p, hp, hne⟩ hq => by
    obtain ⟨q, hq⟩ := Option.isSome_iff_exists.mp hq
    exact hne (h k p q hp hq).1
  read_write := Set.disjoint_left.mpr fun k hp ⟨q, hq, hne⟩ => by
    obtain ⟨p, hp⟩ := Option.isSome_iff_exists.mp hp
    exact hne (h k p q hp hq).2
  write_write := Set.disjoint_left.mpr fun k ⟨p, hp, hne⟩ ⟨q, hq, _⟩ =>
    hne (h k p q hp hq).1

namespace Executor

section Facts

variable {maxDependencies : ℕ} {calls : List Keys} {e : Executor ε}

theorem Inv.returns_of_running (h : Inv maxDependencies calls e) {t : ℕ}
    (ht : (e.task t).phase = .running) : (e.task t).returns = 0 := by
  rw [h.runs.returns t, if_neg (by simp [ht, Phase.rank])]

theorem Inv.starts_of_returned (h : Inv maxDependencies calls e) {t : ℕ}
    (ht : (e.task t).returns = 1) : (e.task t).starts = 1 := by
  have hr := h.runs.returns t
  split_ifs at hr <;> omega

/-- **A task that started before an earlier one returned does not conflict with it.** -/
theorem Inv.independent_of_started (h : Inv maxDependencies calls e) {i j : ℕ} (hij : i < j)
    (hs : 0 < (e.task j).starts) (hr : (e.task i).returns = 0) :
    Independent (declared calls i) (declaredWrites calls i) (declared calls j)
      (declaredWrites calls j) := by
  refine independent_of_no_conflict fun k p q hp hq => ?_
  by_contra hpq
  have := h.returned_of_conflict hij hp hq (by tauto) hs
  omega

/-- Two tasks whose `f` run at once do not conflict. -/
theorem Inv.independent_of_running (h : Inv maxDependencies calls e) {i j : ℕ} (hij : i ≠ j)
    (hi : (e.task i).phase = .running) (hj : (e.task j).phase = .running) :
    Independent (declared calls i) (declaredWrites calls i) (declared calls j)
      (declaredWrites calls j) := by
  rcases Nat.lt_or_gt_of_ne hij with hlt | hgt
  · exact h.independent_of_started hlt (by rw [h.runs.running j hj]; omega)
      (h.returns_of_running hi)
  · exact (h.independent_of_started hgt (by rw [h.runs.running i hi]; omega)
      (h.returns_of_running hj)).symm

/-- A step other than `check` and `finish` starts no `f`, returns none, and keeps the error. -/
theorem Inv.other_step (h : Inv maxDependencies calls e) {a : Action ε} {e' : Executor ε}
    (hc : ∀ t, a ≠ .check t) (hf : ∀ t r, a ≠ .finish t r)
    (hs : next maxDependencies calls a e = some e') (t : ℕ) :
    ((e'.task t).phase = .running → (e.task t).phase = .running) ∧
      (e'.task t).returns = (e.task t).returns ∧ (e.err.isSome → e'.err.isSome) := by
  cases a with
  | run =>
    obtain ⟨keys, -, -, rfl⟩ := run_eq_some hs
    by_cases ht : t = e.tasks
    · subst ht
      simp [Task.new, h.shape.absent e.tasks le_rfl, Task.absent]
    · simp [update_of_ne ht]
  | record k =>
    obtain ⟨id, keys, v, -, -, he'⟩ := record_eq_some hs
    have hph := record_field he' Task.phase (fun _ _ _ _ _ _ => rfl) t
    have hret := record_field he' Task.returns (fun _ _ _ _ _ _ => rfl) t
    subst he'
    exact ⟨fun hr => hph ▸ hr, hret, by simp⟩
  | enqueue =>
    obtain ⟨id, keys, -, -, rfl⟩ := enqueue_eq_some hs
    by_cases ht : t = id
    · subst ht
      simp
    · simp [modify_task_of_ne ht]
  | receive x =>
    obtain ⟨-, rfl⟩ := receive_eq_some hs
    by_cases ht : t = x
    · subst ht
      simp
    · simp [modify_task_of_ne ht]
  | check x => exact absurd rfl (hc x)
  | finish x r => exact absurd rfl (hf x r)
  | unread x y =>
    obtain ⟨-, -, rfl⟩ := unread_eq_some hs
    simp only [modify_task]
    split_ifs <;> subst_vars <;> simp
  | notify x =>
    obtain ⟨-, -, rfl⟩ := notify_eq_some hs
    by_cases ht : t = x
    · subst ht
      simp
    · by_cases hb : t ∈ (e.task x).blocked <;> simp [ht, hb]
  | stop =>
    cases hs
    simp [stop]
  | wait =>
    obtain ⟨-, -, rfl⟩ := wait_eq_some hs
    simp


/-- What `check` leaves of the tasks: no task returns, and `t` runs if no error is set. -/
theorem check_spec {t : ℕ} {e' : Executor ε} (hs : e.check t = some e') (j : ℕ) :
    (e'.task j).returns = (e.task j).returns ∧ e'.err = e.err ∧
      ((e'.task j).phase = .running ↔
        j = t ∧ e.err = none ∨ j ≠ t ∧ (e.task j).phase = .running) := by
  obtain ⟨hrec, rfl⟩ := check_eq_some hs
  by_cases hj : j = t
  · subst hj
    cases herr : e.err <;> simp [herr, hrec]
  · simp [hj]

/-- What `finish` leaves of the tasks: `t` has returned, and no other task changed. -/
theorem finish_spec {t : ℕ} {r : Option ε} {e' : Executor ε} (hs : e.finish t r = some e') :
    (e.task t).phase = .running ∧ (e'.task t).phase = .finished ∧
      (e'.task t).returns = (e.task t).returns + 1 ∧ (∀ j, j ≠ t → e'.task j = e.task j) ∧
      e'.err = e.err.or (r.map .task) := by
  obtain ⟨hrun, rfl⟩ := finish_eq_some hs
  exact ⟨hrun, by simp, by simp, fun j hj => by simp [modify_task_of_ne hj], rfl⟩

end Facts

end Executor

/-- The executor running a block's transactions, with the block's changes: for each task, the
layer its `f` computed when it was called, and whether it has committed it. -/
structure Processor (ε : Type) where
  exec : Executor ε
  changes : Bytes → Option (Option Bytes)
  computed : ℕ → Option (Except ε (Bytes → Option (Option Bytes)))
  committed : ℕ → Bool

namespace Processor

variable (maxDependencies : ℕ) (calls : List Keys)
  (body : ℕ → (Bytes → Option (Option Bytes)) → Except ε (Bytes → Option (Option Bytes)))

/-- A new executor over the block's changes `init`. -/
def start (init : Bytes → Option (Option Bytes)) : Processor ε :=
  ⟨new, init, fun _ => none, fun _ => false⟩

/-- `check`: unless an error is set, `f` of task `t` is called and computes its layer from the
block's changes. -/
def check (t : ℕ) (s : Processor ε) : Option (Processor ε) :=
  (s.exec.check t).map fun e =>
    { s with
      exec := e
      computed :=
        if s.exec.err.isSome then s.computed else update s.computed t (some (body t s.changes)) }

/-- `finish`: `f` of task `t` returns what it computed, after committing its layer if that is
not an error (`tsv.Commit()`). -/
def finish (t : ℕ) (s : Processor ε) : Option (Processor ε) :=
  match s.computed t with
  | some (.ok δ) => (s.exec.finish t none).map fun e =>
    { s with
      exec := e
      changes := publish δ s.changes
      committed := update s.committed t true }
  | some (.error x) => (s.exec.finish t (some x)).map fun e => { s with exec := e }
  | none => none

/-- One step: the executor's, with the calls of `f` and their commits. -/
def next : Action ε → Processor ε → Option (Processor ε)
  | .check t, s => check body t s
  | .finish t _, s => finish t s
  | a, s => (Executor.next maxDependencies calls a s.exec).map fun e => { s with exec := e }

/-- The processor as a transition system. -/
def system : System (Processor ε) (Action ε) := ⟨next maxDependencies calls body⟩

/-! ## What each step does to the executor -/

variable {maxDependencies calls body}

theorem check_eq_some {t : ℕ} {s s' : Processor ε} (h : check body t s = some s') :
    Executor.check t s.exec = some s'.exec ∧ s'.changes = s.changes ∧
      s'.committed = s.committed ∧
      s'.computed = if s.exec.err.isSome then s.computed
        else update s.computed t (some (body t s.changes)) := by
  obtain ⟨e, he, rfl⟩ := Option.map_eq_some_iff.mp h
  exact ⟨he, rfl, rfl, rfl⟩

theorem finish_eq_some {t : ℕ} {s s' : Processor ε} (h : finish t s = some s') :
    (∃ δ, s.computed t = some (.ok δ) ∧ Executor.finish t none s.exec = some s'.exec ∧
      s'.changes = publish δ s.changes ∧ s'.committed = update s.committed t true ∧
      s'.computed = s.computed) ∨
    (∃ x, s.computed t = some (.error x) ∧ Executor.finish t (some x) s.exec = some s'.exec ∧
      s'.changes = s.changes ∧ s'.committed = s.committed ∧ s'.computed = s.computed) := by
  unfold finish at h
  split at h
  · rename_i δ hδ
    obtain ⟨e, he, rfl⟩ := Option.map_eq_some_iff.mp h
    exact .inl ⟨δ, hδ, he, rfl, rfl, rfl⟩
  · rename_i x hx
    obtain ⟨e, he, rfl⟩ := Option.map_eq_some_iff.mp h
    exact .inr ⟨x, hx, he, rfl, rfl, rfl⟩
  · cases h

/-- The steps other than `check` and `finish` are the executor's. -/
theorem next_of_other {a : Action ε} (hc : ∀ t, a ≠ .check t) (hf : ∀ t r, a ≠ .finish t r)
    (s : Processor ε) :
    next maxDependencies calls body a s =
      (Executor.next maxDependencies calls a s.exec).map fun e => { s with exec := e } := by
  cases a with
  | check t => exact absurd rfl (hc t)
  | finish t r => exact absurd rfl (hf t r)
  | _ => rfl

/-- Each step of the processor is a step of the executor. -/
theorem exec_step {a : Action ε} {s s' : Processor ε}
    (h : next maxDependencies calls body a s = some s') :
    ∃ a', Executor.next maxDependencies calls a' s.exec = some s'.exec := by
  cases a with
  | check t => exact ⟨.check t, (check_eq_some h).1⟩
  | finish t r =>
    rcases finish_eq_some h with ⟨δ, -, he, -⟩ | ⟨x, -, he, -⟩
    · exact ⟨.finish t none, he⟩
    · exact ⟨.finish t (some x), he⟩
  | _ =>
    rw [next_of_other (fun _ => by simp) (fun _ _ => by simp)] at h
    obtain ⟨e, he, rfl⟩ := Option.map_eq_some_iff.mp h
    exact ⟨_, he⟩

theorem exec_reaches {s s' : Processor ε} (h : (system maxDependencies calls body).Reaches s s') :
    (Executor.system maxDependencies calls).Reaches s.exec s'.exec := by
  induction h with
  | refl => exact System.Reaches.refl _
  | tail _ hst ih =>
    obtain ⟨a, ha⟩ := hst
    obtain ⟨a', ha'⟩ := exec_step ha
    exact ih.tail ha'

/-! ## The invariant -/

variable (maxDependencies calls body)

/-- What the processor keeps: the executor's invariant; a running `f` computed what it would
compute now; a committed task returned, and one that returned without committing set an error;
and the block's changes are those of the committed tasks run in order. -/
structure Inv (init : Bytes → Option (Option Bytes)) (s : Processor ε) : Prop where
  exec : Executor.Inv maxDependencies calls s.exec
  computed : ∀ t, (s.exec.task t).phase = .running → s.computed t = some (body t s.changes)
  committed : ∀ t, s.committed t = true → (s.exec.task t).returns = 1
  failed : ∀ t, (s.exec.task t).returns = 1 → s.committed t = false → s.exec.err.isSome
  serial : serial body ((List.range calls.length).filter s.committed) init = .ok s.changes

variable {maxDependencies calls body}

theorem inv_start (init : Bytes → Option (Option Bytes)) :
    Inv maxDependencies calls body init (start init) where
  exec := Executor.inv_new
  computed t ht := by simp [start, new, Task.absent] at ht
  committed t ht := by simp [start] at ht
  failed t ht := by simp [start, new, Task.absent] at ht
  serial := by simp [start]

/-- Committing `t` into the committed tasks `c` splits their list at `t`: the tasks before it,
then `t`, then those after it. -/
theorem filter_update_split {c : ℕ → Bool} {t : ℕ} (hc : c t = false) :
    ∀ (l : List ℕ), l.Pairwise (· < ·) → t ∈ l → ∃ A B, l.filter c = A ++ B ∧
      l.filter (update c t true) = A ++ t :: B ∧ ∀ i ∈ B, t < i
  | [], _, ht => absurd ht (List.not_mem_nil)
  | x :: l, hl, ht => by
    obtain ⟨hx, hl⟩ := List.pairwise_cons.mp hl
    by_cases hxt : x = t
    · -- `t` is the head: every later task comes after it
      subst hxt
      have hrest : l.filter (update c x true) = l.filter c :=
        List.filter_congr fun i hi => update_of_ne (hx i hi).ne' _ _
      refine ⟨[], l.filter c, by simp [hc], by simp [hrest], fun i hi => ?_⟩
      exact hx i (List.mem_of_mem_filter hi)
    · obtain ⟨A, B, h₁, h₂, hB⟩ :=
        filter_update_split hc l hl ((List.mem_cons.mp ht).resolve_left (Ne.symm hxt))
      refine ⟨if c x then x :: A else A, B, ?_, ?_, hB⟩
      · cases hcx : c x <;> simp [hcx, h₁]
      · cases hcx : c x <;> simp [update_of_ne hxt, hcx, h₂]


/-- Tasks `j < n`, in order, are those of `range n` below `m ≤ n`. -/
theorem filter_range_lt {m n : ℕ} (h : m ≤ n) :
    (List.range n).filter (fun j => decide (j < m)) = List.range m := by
  obtain ⟨d, rfl⟩ := Nat.exists_eq_add_of_le h
  rw [List.range_add, List.filter_append,
    List.filter_eq_self.mpr fun j hj => by simpa using List.mem_range.mp hj,
    List.filter_eq_nil_iff.mpr fun j hj => by simp at hj ⊢; omega, List.append_nil]

section Steps

variable {init : Bytes → Option (Option Bytes)} {s s' : Processor ε}

theorem Inv.committed_of_running (h : Inv maxDependencies calls body init s) {t : ℕ}
    (ht : (s.exec.task t).phase = .running) : s.committed t = false := by
  cases hc : s.committed t
  · rfl
  · have := h.committed t hc
    rw [h.exec.returns_of_running ht] at this
    cases this

theorem Inv.lt_length_of_running (h : Inv maxDependencies calls body init s) {t : ℕ}
    (ht : (s.exec.task t).phase = .running) : t < calls.length := by
  have hs := h.exec.runs.running t ht
  exact lt_of_lt_of_le (h.exec.lt_tasks_of_started (by omega)).1 h.exec.shape.tasks_le

theorem Inv.check (h : Inv maxDependencies calls body init s) {t : ℕ}
    (hs : check body t s = some s') : Inv maxDependencies calls body init s' := by
  obtain ⟨he, hch, hco, hcomp⟩ := check_eq_some hs
  have hspec := Executor.check_spec he
  refine ⟨Executor.inv_check h.exec he, fun j hj => ?_, fun j hj => ?_, fun j hj hj' => ?_, ?_⟩
  · -- the task called computes from the changes as they are
    rw [hcomp, hch]
    rcases (hspec j).2.2.mp hj with ⟨rfl, herr⟩ | ⟨hjt, hrun⟩
    · simp [herr]
    · have := h.computed j hrun
      split_ifs <;> simp [update_of_ne hjt, this]
  · rw [hco] at hj
    rw [(hspec j).1]
    exact h.committed j hj
  · rw [(hspec j).2.1]
    exact h.failed j ((hspec j).1 ▸ hj) (hco ▸ hj')
  · rw [hco, hch]
    exact h.serial

variable (hR : ∀ j, ReadsOnly (body j) (declared calls j))
  (hW : ∀ j, WritesOnly (body j) (declaredWrites calls j))
include hR hW

/-- **A commit keeps the order.** `t` commits `δ`: the committed tasks after it are independent
of it, so the changes are those of the committed tasks with `t` in its place. -/
theorem Inv.finish_ok (h : Inv maxDependencies calls body init s) {t : ℕ}
    {δ : Bytes → Option (Option Bytes)} (hδ : s.computed t = some (.ok δ))
    (he : Executor.finish t none s.exec = some s'.exec) (hch : s'.changes = publish δ s.changes)
    (hco : s'.committed = update s.committed t true) (hcomp : s'.computed = s.computed) :
    Inv maxDependencies calls body init s' := by
  obtain ⟨hrun, hfin, hret, hother, herr⟩ := Executor.finish_spec he
  have hbody : body t s.changes = .ok δ := by
    have := h.computed t hrun
    rw [hδ] at this
    exact (Option.some.inj this).symm
  have hret₀ := h.exec.returns_of_running hrun
  refine ⟨Executor.inv_finish h.exec he, fun j hj => ?_, fun j hj => ?_, fun j hj hj' => ?_, ?_⟩
  · -- a task still running does not read what `t` wrote
    have hjt : j ≠ t := by rintro rfl; rw [hfin] at hj; cases hj
    rw [hother j hjt] at hj
    have hind := h.exec.independent_of_running (Ne.symm hjt) hrun hj
    rw [hcomp, hch, h.computed j hj]
    congr 1
    exact hR j _ _ fun k hk =>
      (publish_of_not_mem (hW t _ δ hbody) (Set.disjoint_right.mp hind.write_read hk)).symm
  · by_cases hjt : j = t
    · subst hjt
      rw [hret, hret₀]
    · rw [hco, update_of_ne hjt] at hj
      rw [hother j hjt]
      exact h.committed j hj
  · have hjt : j ≠ t := by rintro rfl; simp [hco] at hj'
    rw [hother j hjt] at hj
    rw [hco, update_of_ne hjt] at hj'
    rw [herr]
    simpa using h.failed j hj hj'
  · -- the committed tasks after `t` started before `t` returned
    obtain ⟨A, B, h₁, h₂, hB⟩ := filter_update_split (h.committed_of_running hrun)
      (List.range calls.length) List.pairwise_lt_range
      (List.mem_range.mpr (h.lt_length_of_running hrun))
    have hind : ∀ i ∈ B, Independent (declared calls t) (declaredWrites calls t)
        (declared calls i) (declaredWrites calls i) := by
      intro i hi
      have hci : s.committed i = true := by
        have : i ∈ (List.range calls.length).filter s.committed := by
          rw [h₁]
          exact List.mem_append_right _ hi
        exact (List.mem_filter.mp this).2
      exact h.exec.independent_of_started (hB i hi)
        (by rw [h.exec.starts_of_returned (h.committed i hci)]; omega) hret₀
    have := h.serial
    rw [h₁] at this
    rw [hco, h₂, hch]
    exact serial_insert_append hR hW hind this hbody

omit hR hW in
/-- A failed `f` commits nothing, and sets the error. -/
theorem Inv.finish_error (h : Inv maxDependencies calls body init s) {t : ℕ} {x : ε}
    (he : Executor.finish t (some x) s.exec = some s'.exec) (hch : s'.changes = s.changes)
    (hco : s'.committed = s.committed) (hcomp : s'.computed = s.computed) :
    Inv maxDependencies calls body init s' := by
  obtain ⟨hrun, hfin, -, hother, herr⟩ := Executor.finish_spec he
  have herr' : s'.exec.err.isSome := by
    rw [herr]
    cases s.exec.err <;> simp
  refine ⟨Executor.inv_finish h.exec he, fun j hj => ?_, fun j hj => ?_, fun _ _ _ => herr', ?_⟩
  · have hjt : j ≠ t := by rintro rfl; rw [hfin] at hj; cases hj
    rw [hother j hjt] at hj
    rw [hcomp, hch]
    exact h.computed j hj
  · have hjt : j ≠ t := by
      rintro rfl
      rw [hco, h.committed_of_running hrun] at hj
      cases hj
    rw [hother j hjt]
    exact h.committed j (hco ▸ hj)
  · rw [hco, hch]
    exact h.serial

omit hR hW in
/-- The other steps are the executor's alone. -/
theorem Inv.other (hD : calls.length ≤ maxDependencies)
    (h : Inv maxDependencies calls body init s)
    {a : Action ε} (hc : ∀ t, a ≠ .check t) (hf : ∀ t r, a ≠ .finish t r)
    (hs : (system maxDependencies calls body).next a s = some s') :
    Inv maxDependencies calls body init s' := by
  change next maxDependencies calls body a s = some s' at hs
  rw [next_of_other hc hf] at hs
  obtain ⟨e, he, rfl⟩ := Option.map_eq_some_iff.mp hs
  have hspec := h.exec.other_step hc hf he
  refine ⟨Executor.inv_stable hD a s.exec e he h.exec, fun j hj => h.computed j ((hspec j).1 hj),
    fun j hj => (hspec j).2.1 ▸ h.committed j hj,
    fun j hj hj' => (hspec j).2.2 (h.failed j ((hspec j).2.1 ▸ hj) hj'), h.serial⟩

theorem inv_stable (hD : calls.length ≤ maxDependencies) :
    (system maxDependencies calls body).Stable (Inv maxDependencies calls body init) := by
  intro a s s' hs h
  cases a with
  | check t => exact h.check hs
  | finish t r =>
    rcases finish_eq_some hs with
      ⟨δ, hδ, he, hch, hco, hcomp⟩ | ⟨x, -, he, hch, hco, hcomp⟩
    · exact h.finish_ok hR hW hδ he hch hco hcomp
    · exact h.finish_error he hch hco hcomp
  | _ => exact h.other hD (fun _ => by simp) (fun _ _ => by simp) hs

end Steps

variable {init : Bytes → Option (Option Bytes)} {s : Processor ε}

/-- Once `Wait` has returned without an error, every task made has committed, and no other. -/
theorem Inv.committed_iff (h : Inv maxDependencies calls body init s)
    (hw : s.exec.WaitedDone) (hc : s.exec.caller = .waited) (herr : s.exec.err = none) (j : ℕ) :
    s.committed j = decide (j < s.exec.tasks) := by
  by_cases hj : j < s.exec.tasks
  · have hret := (h.exec.ran_once_of_done (hw hc j hj)).2 herr
    cases hcj : s.committed j
    · have := h.failed j hret.2 hcj
      simp [herr] at this
    · simp [hj]
  · cases hcj : s.committed j
    · simp [hj]
    · have := h.committed j hcj
      rw [h.exec.shape.absent j (by omega)] at this
      simp [Task.absent] at this

/-- The changes of a reachable state are those of the committed tasks run serially, and once
`Wait` has returned without an error, those of every task. -/
theorem serial_of_reaches {maxDependencies : ℕ} {calls : List Keys}
    {body : ℕ → (Bytes → Option (Option Bytes)) →
      Except ε (Bytes → Option (Option Bytes))}
    (hD : calls.length ≤ maxDependencies) (hR : ∀ j, ReadsOnly (body j) (declared calls j))
    (hW : ∀ j, WritesOnly (body j) (declaredWrites calls j))
    {init : Bytes → Option (Option Bytes)} {s : Processor ε}
    (hs : (system maxDependencies calls body).Reaches (start init) s) :
    serial body ((List.range calls.length).filter s.committed) init = .ok s.changes ∧
      (s.exec.caller = .waited → s.exec.err = none →
        serial body (List.range s.exec.tasks) init = .ok s.changes) := by
  have h := (inv_stable hR hW hD).reaches hs (inv_start init)
  refine ⟨h.serial, fun hc herr => ?_⟩
  -- after `Wait` without an error every task is done, and the done tasks are the committed ones
  have hw := ((Executor.waitedDone_stable hD).reaches (exec_reaches hs)
    ⟨Executor.inv_new, fun hc => by cases hc⟩).2
  have hfilter : (List.range calls.length).filter s.committed = List.range s.exec.tasks := by
    rw [List.filter_congr fun j _ => h.committed_iff hw hc herr j]
    exact filter_range_lt h.exec.shape.tasks_le
  rw [← hfilter]
  exact h.serial

end Processor

/-- **Executing a block is serial.** For bodies that read only the keys their task declared and
change only those declared with more than `state.Read`, and `Run` calls no more than
`maxDependencies`, in every state the processor reaches from the block's changes `init`: the
changes are those of running the committed tasks one after another in the order of their `Run`
calls; and once `Wait` has returned without an error, those of running every task in that
order. -/
theorem block_execution_serial {maxDependencies : ℕ} {calls : List Keys}
    {body : ℕ → (Bytes → Option (Option Bytes)) →
      Except ε (Bytes → Option (Option Bytes))}
    (hD : calls.length ≤ maxDependencies) (hR : ∀ j, ReadsOnly (body j) (declared calls j))
    (hW : ∀ j, WritesOnly (body j) (declaredWrites calls j))
    {init : Bytes → Option (Option Bytes)} {s : Processor ε}
    (hs : (Processor.system maxDependencies calls body).Reaches (Processor.start init) s) :
    serial body ((List.range calls.length).filter s.committed) init = .ok s.changes ∧
      (s.exec.caller = .waited → s.exec.err = none →
        serial body (List.range s.exec.tasks) init = .ok s.changes) :=
  Processor.serial_of_reaches hD hR hW hs

/-- Task 0 writes `[1]` at the key `[0, 0]`; task 1 reads it, and fails unless it is there. -/
def writeThenReadBody :
    ℕ → (Bytes → Option (Option Bytes)) → Except Unit (Bytes → Option (Option Bytes))
  | 0, _ => .ok fun k => if k = [0, 0] then some (some [1]) else none
  | 1, σ => if σ [0, 0] = some (some [1]) then .ok fun _ => none else .error ()
  | _, _ => .ok fun _ => none

theorem writeThenReadBody_readsOnly (j : ℕ) :
    ReadsOnly (writeThenReadBody j) (declared writeThenRead j) := by
  intro σ τ h
  match j with
  | 0 => rfl
  | 1 =>
    have hk : σ [0, 0] = τ [0, 0] :=
      h [0, 0] (show ((writeThenRead.getD 1 ∅).lookup [0, 0]).isSome by decide)
    simp only [writeThenReadBody, hk]
  | _ + 2 => rfl

theorem writeThenReadBody_writesOnly (j : ℕ) :
    WritesOnly (writeThenReadBody j) (declaredWrites writeThenRead j) := by
  intro σ δ h k hk
  match j with
  | 0 =>
    cases h
    have hk0 : k = [0, 0] := by
      by_contra hne
      simp [hne] at hk
    subst hk0
    exact ⟨.write, by decide, by decide⟩
  | 1 =>
    simp only [writeThenReadBody] at h
    split_ifs at h
    cases h
    simp at hk
  | _ + 2 =>
    cases h
    simp at hk

theorem write_then_read_serial :
    ∃ s, (Processor.system 2 writeThenRead writeThenReadBody).run writeThenReadSchedule
        (Processor.start fun _ => none) = some s ∧
      s.exec.caller = .waited ∧ s.exec.err = none ∧ s.exec.tasks = 2 ∧
      serial writeThenReadBody ((List.range writeThenRead.length).filter s.committed)
        (fun _ => none) = .ok s.changes ∧
      (s.exec.caller = .waited → s.exec.err = none →
        serial writeThenReadBody (List.range s.exec.tasks) (fun _ => none) = .ok s.changes) :=
  ⟨_, rfl, rfl, rfl, rfl, @block_execution_serial Unit 2 writeThenRead writeThenReadBody
    (by decide) writeThenReadBody_readsOnly writeThenReadBody_writesOnly _ _
    (@System.reaches_of_run _ _ _ writeThenReadSchedule _ _ rfl)⟩

/-! ## Transactions that reach the state through their views -/

open Tstate

/-- What task `j` commits when its `f` runs the transaction's code `progs j` on a new view with
the keys it declared and the values `storage j` fetched for them. -/
def programBody (calls : List Keys) (storage : ℕ → Bytes → Option Bytes)
    (progs : ℕ → ViewProg ε) (j : ℕ) :
    (Bytes → Option (Option Bytes)) → Except ε (Bytes → Option (Option Bytes)) :=
  ViewProg.commitOf (calls.getD j ∅) (storage j) (progs j)

/-- **A block of transactions that reach the state through their views executes serially.**
Whatever each transaction's code does with `GetValue`, `Insert`, `Remove`, `OpIndex` and
`Rollback`, with `Run` called no more than `maxDependencies` times, in every state the processor
reaches from the block's changes `init`: the changes are those of running the committed
transactions one after another in block order, and once `Wait` has returned without an error,
those of running every transaction in that order. -/
theorem programs_execute_serially {maxDependencies : ℕ} {calls : List Keys}
    (storage : ℕ → Bytes → Option Bytes) (progs : ℕ → ViewProg ε)
    (hD : calls.length ≤ maxDependencies) {init : Bytes → Option (Option Bytes)}
    {s : Processor ε}
    (hs : (Processor.system maxDependencies calls (programBody calls storage progs)).Reaches
      (Processor.start init) s) :
    serial (programBody calls storage progs) ((List.range calls.length).filter s.committed) init =
        .ok s.changes ∧
      (s.exec.caller = .waited → s.exec.err = none →
        serial (programBody calls storage progs) (List.range s.exec.tasks) init =
          .ok s.changes) :=
  -- the view's scope checks give each body its footprint
  Processor.serial_of_reaches hD
    (fun j => ViewProg.commitOf_readsOnly (calls.getD j ∅) (storage j) (progs j))
    (fun j => ViewProg.commitOf_writesOnly (calls.getD j ∅) (storage j) (progs j)) hs

/-- Two transactions on the one-chunk key `[0, 1]`: the first may do anything with it, the
second only read it. -/
def createThenRead : List Keys :=
  [(∅ : Keys).insert [0, 1] .all, (∅ : Keys).insert [0, 1] .read]

/-- The first creates `[0, 1]` with `[1]`; the second reads it, and fails unless it is there. -/
def createThenReadProgs : ℕ → ViewProg Unit
  | 0 => .insert [0, 1] [1] fun r => .done (if r.toOption.isSome then .ok () else .error ())
  | 1 => .getValue [0, 1] fun r => .done (if r.toOption = some [1] then .ok () else .error ())
  | _ => .done (.ok ())

/-- Both `Run` calls, then each transaction in turn on a worker, then `Wait`. -/
def createThenReadSchedule : List (Action Unit) :=
  [.run, .record [0, 1], .enqueue, .run, .record [0, 1], .enqueue, .receive 0, .check 0,
    .finish 0 none, .notify 0, .receive 1, .check 1, .finish 1 none, .unread 1 0, .notify 1,
    .wait]

theorem create_then_read_programs_serial :
    ∃ s, (Processor.system 2 createThenRead
        (programBody createThenRead (fun _ _ => none) createThenReadProgs)).run
        createThenReadSchedule (Processor.start fun _ => none) = some s ∧
      s.exec.caller = .waited ∧ s.exec.err = none ∧ s.exec.tasks = 2 ∧
      s.changes [0, 1] = some (some [1]) ∧
      serial (programBody createThenRead (fun _ _ => none) createThenReadProgs)
        ((List.range createThenRead.length).filter s.committed) (fun _ => none) = .ok s.changes ∧
      (s.exec.caller = .waited → s.exec.err = none →
        serial (programBody createThenRead (fun _ _ => none) createThenReadProgs)
          (List.range s.exec.tasks) (fun _ => none) = .ok s.changes) :=
  ⟨_, rfl, rfl, rfl, rfl, rfl, @programs_execute_serially Unit 2 createThenRead (fun _ _ => none)
    createThenReadProgs (by decide) _ _
    (@System.reaches_of_run _ _ _ createThenReadSchedule _ _ rfl)⟩

end Hypersdk.Executor
