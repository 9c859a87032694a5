import Hypersdk.Chain.Execute
import Hypersdk.Tstate.Rollback

/-!
# A transaction's actions are all or nothing

`Transaction.Execute` charges the fee, takes the view's op index as its restore point and runs
the actions; the first that fails, or returns too many outputs, rolls the view back to it. With
actions and `Deduct` that reach the view only through `state.Mutable` (`ThroughView`: their
runs end on views their `Insert` and `Remove` calls reach), `execute_all_or_nothing`:

* a failed result leaves every key reading as it did right after `Deduct`, so the fee stays
  charged and no action's change survives;
* a successful result leaves the view as running the actions one after another from there;
* either way the result's fee is the fee of the transaction's units.

The rollback part is `snapshot_run` of the view: the calls `state.Mutable` offers do not roll
back, so the point after `Deduct` stays a restore point throughout the actions.
-/

namespace Hypersdk.Chain

open Foundations Tstate TStateView Fees

variable {ε : Type}

/-- The calls `state.Mutable` offers: `Insert` and `Remove`, not `Rollback`. -/
def accessSystem (ts : TState) : System TStateView Call where
  next c v :=
    match c with
    | .rollback _ => none
    | c => some (v.step ts c)

/-- Code that reaches the view only through `state.Mutable`: every run ends on a view that its
`Insert` and `Remove` calls reach. -/
def ThroughView {α : Type} (ts : TState) (m : Mutable ε α) : Prop :=
  ∀ v r v', m.runOn v = some (r, v') → (accessSystem ts).Reaches v v'

section Access

variable {ts : TState}

theorem accessSystem_next {c : Call} {v v' : TStateView}
    (h : (accessSystem ts).next c v = some v') :
    (viewSystem ts).next c v = some v' ∧ ∀ i, Call.Above i c := by
  cases c with
  | rollback => cases h
  | insert => exact ⟨h, fun _ => trivial⟩
  | remove => exact ⟨h, fun _ => trivial⟩

theorem reaches_view_of_access {v w : TStateView} (h : (accessSystem ts).Reaches v w) :
    (viewSystem ts).Reaches v w := by
  induction h with
  | refl => exact System.Reaches.refl _
  | tail _ hst ih =>
    obtain ⟨c, hc⟩ := hst
    exact ih.tail (accessSystem_next hc).1

theorem scope_of_access {v w : TStateView} (h : (accessSystem ts).Reaches v w) :
    w.scope = v.scope ∧ w.scopeStorage = v.scopeStorage := by
  induction h with
  | refl => exact ⟨rfl, rfl⟩
  | tail _ hst ih =>
    obtain ⟨c, hc⟩ := hst
    cases c with
    | rollback => cases hc
    | insert =>
      cases hc
      exact ⟨(step_scope ts _ _).1.trans ih.1, (step_scope ts _ _).2.trans ih.2⟩
    | remove =>
      cases hc
      exact ⟨(step_scope ts _ _).1.trans ih.1, (step_scope ts _ _).2.trans ih.2⟩

theorem snapshot_of_access {s w w' : TStateView} (h : Snapshot s w)
    (hr : (accessSystem ts).Reaches w w') : Snapshot s w' := by
  induction hr with
  | refl => exact h
  | tail _ hst ih =>
    obtain ⟨c, hc⟩ := hst
    obtain ⟨hv, habove⟩ := accessSystem_next hc
    cases hv
    exact ih.step (habove _)

theorem throughView_pure {α : Type} (a : α) : ThroughView (ε := ε) ts (pure a) := by
  intro v r v' h
  cases h
  exact System.Reaches.refl _

theorem throughView_bind {α β : Type} {m : Mutable ε α} {f : α → Mutable ε β}
    (hm : ThroughView ts m) (hf : ∀ a, ThroughView ts (f a)) : ThroughView ts (m >>= f) := by
  intro v r v' h
  rcases Mutable.runOn_bind_eq_some h with ⟨e, he, -⟩ | ⟨a, w, ha, hfa⟩
  · exact hm v _ v' he
  · exact (hm v _ w ha).trans (hf a w r v' hfa)

theorem throughView_insert (key value : Bytes) :
    ThroughView (ε := ε) ts (Mutable.insert ts key value) := by
  intro v r v' h
  cases hi : v.insert ts key value with
  | ok w =>
    rw [Mutable.runOn_insert_of_ok ts hi, Option.some.injEq, Prod.mk.injEq] at h
    obtain ⟨-, rfl⟩ := h
    refine (System.Reaches.refl v).tail (l := .insert key value) ?_
    show some (v.step ts (.insert key value)) = some w
    simp [step, apply, hi]
  | error e =>
    rw [Mutable.runOn_insert_of_error ts hi, Option.some.injEq, Prod.mk.injEq] at h
    obtain ⟨-, rfl⟩ := h
    exact System.Reaches.refl v

end Access

/-! ## The action loop -/

/-- The action loop either rolled back to its restore point from a view the actions reached,
or ran every action in order. -/
theorem executeActions_spec {ts : TState} {maxOutputsPerAction actionStart : ℕ}
    {errBytes : ε ⊕ ChainError → Bytes} {units : Dimensions} {fee : ℕ}
    (actions : List (Mutable ε (List Bytes))) (hactions : ∀ m ∈ actions, ThroughView ts m) :
    ∀ {resultOutputs w result v'},
      executeActions maxOutputsPerAction actionStart errBytes units fee actions resultOutputs w =
        some (result, v') →
      result.units = units ∧ result.fee = fee ∧
      (result.success = false → ∃ w', (accessSystem ts).Reaches w w' ∧
        v' = w'.rollback actionStart) ∧
      (result.success = true → ∃ rest, result.outputs = resultOutputs ++ rest ∧
        (actions.mapM id).runOn w = some (.ok rest, v')) := by
  induction actions with
  | nil =>
    intro resultOutputs w result v' h
    cases h
    exact ⟨rfl, rfl, (fun h => by cases h), fun _ => ⟨[], by simp, rfl⟩⟩
  | cons action rest ih =>
    intro resultOutputs w result v' h
    have hthrough := hactions action (List.mem_cons_self ..)
    unfold executeActions at h
    cases hrun : action.runOn w with
    | none => simp [hrun] at h
    | some res =>
      obtain ⟨x, w₁⟩ := res
      have hreach := hthrough w x w₁ hrun
      cases x with
      | error e =>
        simp only [hrun, Option.some.injEq, Prod.mk.injEq] at h
        obtain ⟨rfl, rfl⟩ := h
        exact ⟨rfl, rfl, fun _ => ⟨w₁, hreach, rfl⟩, fun h => by cases h⟩
      | ok outputs =>
        simp only [hrun] at h
        split_ifs at h with hmany
        · simp only [Option.some.injEq, Prod.mk.injEq] at h
          obtain ⟨rfl, rfl⟩ := h
          exact ⟨rfl, rfl, fun _ => ⟨w₁, hreach, rfl⟩, fun h => by cases h⟩
        · obtain ⟨hu, hf, hfail, hok⟩ :=
            ih (fun m hm => hactions m (List.mem_cons_of_mem _ hm)) h
          refine ⟨hu, hf, fun hs => ?_, fun hs => ?_⟩
          · obtain ⟨w', hw', rfl⟩ := hfail hs
            exact ⟨w', hreach.trans hw', rfl⟩
          · obtain ⟨rest', hout, hmap⟩ := hok hs
            refine ⟨outputs :: rest', by simp [hout], ?_⟩
            simp only [List.mapM_cons, id]
            rw [Mutable.runOn_bind_of_ok hrun, Mutable.runOn_bind_of_ok hmap]
            rfl

/-- The action loop succeeds exactly when every action returns outputs, each within
`maxOutputsPerAction`. -/
theorem executeActions_success {maxOutputsPerAction actionStart : ℕ}
    {errBytes : ε ⊕ ChainError → Bytes} {units : Dimensions} {fee : ℕ} :
    ∀ (actions : List (Mutable ε (List Bytes))) {resultOutputs w result v'},
      executeActions maxOutputsPerAction actionStart errBytes units fee actions resultOutputs w =
        some (result, v') →
      (result.success = true ↔ ∃ outs w', (actions.mapM id).runOn w = some (.ok outs, w') ∧
        ∀ o ∈ outs, o.length ≤ maxOutputsPerAction)
  | [], _, w, _, _, h => by
    cases h
    exact ⟨fun _ => ⟨[], w, rfl, by simp⟩, fun _ => rfl⟩
  | action :: rest, resultOutputs, w, result, v', h => by
    unfold executeActions at h
    simp only [List.mapM_cons, id]
    cases hrun : action.runOn w with
    | none => simp [hrun] at h
    | some res =>
      obtain ⟨x, w₁⟩ := res
      cases x with
      | error e =>
        -- the action fails, and so does the run of all of them
        simp only [hrun, Option.some.injEq, Prod.mk.injEq] at h
        obtain ⟨rfl, rfl⟩ := h
        simp [Mutable.runOn_bind_of_error hrun]
      | ok outputs =>
        simp only [hrun] at h
        rw [Mutable.runOn_bind_of_ok hrun]
        split_ifs at h with hmany
        · -- too many outputs: no run of all the actions keeps within the bound
          simp only [Option.some.injEq, Prod.mk.injEq] at h
          obtain ⟨rfl, rfl⟩ := h
          simp only [Bool.false_eq_true, false_iff, not_exists, not_and]
          intro outs w' hall hbound
          obtain ⟨outs', w₂, -, hpure⟩ := Mutable.runOn_bind_eq_ok hall
          cases hpure
          have := hbound outputs List.mem_cons_self
          omega
        · rw [executeActions_success rest h]
          constructor
          · rintro ⟨outs, w', hall, hbound⟩
            refine ⟨outputs :: outs, w', ?_, ?_⟩
            · rw [Mutable.runOn_bind_of_ok hall]
              rfl
            · simp only [List.mem_cons, forall_eq_or_imp]
              exact ⟨by omega, hbound⟩
          · rintro ⟨outs, w', hall, hbound⟩
            obtain ⟨outs', w₂, hrest, hpure⟩ := Mutable.runOn_bind_eq_ok hall
            cases hpure
            exact ⟨outs', _, hrest, fun o ho => hbound o (List.mem_cons_of_mem _ ho)⟩

/-- Views with the same scope, stored values and changes read alike. -/
theorem getValue_eq_of_changes {ts : TState} {v w : TStateView} (hs : v.scope = w.scope)
    (hst : v.scopeStorage = w.scopeStorage) (hp : v.pendingChangedKeys = w.pendingChangedKeys)
    (key : Bytes) : v.getValue ts key = w.getValue ts key := by
  simp only [getValue, checkScope, getValue?_eq_overlay, hs, hp, parentValue_congr hst]

/-- **`Execute` is all or nothing.** With `Deduct` and the actions reaching the view only
through `state.Mutable`, on a view of the parent `ts`: a failed result reads every key as right
after the fee was deducted, a successful one is the view after every action in order, and the
result's fee is the fee of the units either way. -/
theorem execute_all_or_nothing (t : Transaction) (actions : List (Mutable ε (List Bytes)))
    (feeManager : Manager) (s : StateManager) (deduct : Address → ℕ → Mutable ε Unit)
    (r : Rules) (errBytes : ε ⊕ ChainError → Bytes) {ts : TState} {scope : State.Keys}
    {storage : Bytes → Option Bytes} {v v' : TStateView} {result : Result}
    (hv : (viewSystem ts).Reaches (newView scope storage) v)
    (hdeduct : ∀ a n, ThroughView ts (deduct a n)) (hactions : ∀ m ∈ actions, ThroughView ts m)
    (hexec : t.execute actions feeManager s deduct r errBytes v = some (.ok result, v')) :
    ∃ units v₀, t.units s r = .ok units ∧ feeManager.fee units = some result.fee ∧
      result.units = units ∧ (deduct t.auth.sponsor result.fee).runOn v = some (.ok (), v₀) ∧
      (result.success = true ↔ ∃ outs w, (actions.mapM id).runOn v₀ = some (.ok outs, w) ∧
        ∀ o ∈ outs, o.length ≤ r.maxOutputsPerAction) ∧
      (result.success = false → ∀ key, v'.getValue ts key = v₀.getValue ts key) ∧
      (result.success = true → (actions.mapM id).runOn v₀ = some (.ok result.outputs, v')) := by
  unfold Transaction.execute at hexec
  cases hu : t.units s r with
  | error e => simp [hu] at hexec
  | ok units =>
    cases hf : feeManager.fee units with
    | none => simp [hu, hf] at hexec
    | some fee =>
      cases hd : (deduct t.auth.sponsor fee).runOn v with
      | none => simp [hu, hf, hd] at hexec
      | some res =>
        obtain ⟨x, v₀⟩ := res
        cases x with
        | error e => simp [hu, hf, hd] at hexec
        | ok =>
          simp only [hu, hf, hd, Option.map_eq_some_iff, Prod.exists] at hexec
          obtain ⟨result', v'', hloop, hpair⟩ := hexec
          simp only [Prod.mk.injEq, Except.ok.injEq] at hpair
          obtain ⟨rfl, rfl⟩ := hpair
          obtain ⟨hunits, hfee, hfail, hok⟩ := executeActions_spec actions hactions hloop
          refine ⟨units, v₀, rfl, by rw [hfee]; exact hf, hunits, by rw [hfee]; exact hd,
            executeActions_success actions hloop, fun hs key => ?_, fun hs => ?_⟩
          · -- the deduction leaves a restore point the actions never roll back below
            have h₀ := (hdeduct t.auth.sponsor fee) v _ v₀ hd
            have htracked := (tracked_stable ts).reaches (hv.trans (reaches_view_of_access h₀))
              (tracked_newView scope storage)
            obtain ⟨w', hw', rfl⟩ := hfail hs
            have hsnap := snapshot_of_access (Snapshot.refl htracked) hw'
            obtain ⟨hsc, hst⟩ := scope_of_access hw'
            exact getValue_eq_of_changes (by simp [hsc]) (by simp [hst]) hsnap.changes key
          · obtain ⟨rest, hout, hmap⟩ := hok hs
            simpa [hout] using hmap

/-- A transaction of two actions, with no fee to deduct: the first writes a key in scope, the
second returns two outputs where the rules allow one. The result fails, and the view reads as
before the actions. -/
theorem execute_one_insert_all_or_nothing :
    let t : Transaction :=
      ⟨⟨1000, [1], 1⟩, [⟨0, (-1, -1), 1, [([0, 1], .write)]⟩], ⟨0, (-1, -1), 1, [0], [0]⟩, 100⟩
    let r : Rules := ⟨[1], 60000, 16, 1, fun _ => 1000, fun _ => 2000, 1, 1, 1, 1, 1, 1, 1⟩
    let s : StateManager := ⟨fun _ => [], fun _ _ _ => .ok ()⟩
    let actions : List (Mutable Unit (List Bytes)) :=
      [Mutable.insert TState.new [0, 1] [2] >>= fun _ => pure [], pure [[1], [2]]]
    let deduct : Address → ℕ → Mutable Unit Unit := fun _ _ => pure ()
    let v := newView ((∅ : State.Keys).insert [0, 1] .all) fun _ => none
    ∃ result v', t.execute actions Manager.empty s deduct r (fun _ => []) v =
        some (.ok result, v') ∧ result.success = false ∧
      ∃ units v₀, t.units s r = .ok units ∧ Manager.empty.fee units = some result.fee ∧
        result.units = units ∧ (deduct t.auth.sponsor result.fee).runOn v = some (.ok (), v₀) ∧
        (result.success = true ↔ ∃ outs w, (actions.mapM id).runOn v₀ = some (.ok outs, w) ∧
          ∀ o ∈ outs, o.length ≤ r.maxOutputsPerAction) ∧
        (result.success = false → ∀ key, v'.getValue TState.new key = v₀.getValue TState.new key) ∧
        (result.success = true → (actions.mapM id).runOn v₀ = some (.ok result.outputs, v')) :=
  ⟨_, _, rfl, rfl, execute_all_or_nothing _ _ _ _ _ _ (fun _ => []) (System.Reaches.refl _)
    (fun _ _ => throughView_pure ())
    (fun m hm => by
      rcases List.mem_cons.mp hm with rfl | hm
      · exact throughView_bind (throughView_insert _ _) fun _ => throughView_pure _
      · rw [List.mem_singleton.mp hm]
        exact throughView_pure _) rfl⟩

end Hypersdk.Chain
