import Hypersdk.Tstate.View

/-!
# Code that runs on a view

Actions and storage helpers see a `TStateView` through `state.Mutable`: `GetValue`, `Insert`
and `Remove`, each returning an error value. `Mutable ε` is such code: it threads the view,
stops at an error of its own type `ε` with the view as it was at that point (Go mutates the view
in place, so changes made before the error stay until a rollback), or panics (`none`).
-/

namespace Hypersdk.Tstate

/-- Code running against a view: an error keeps the view it was raised on; `none` is a panic. -/
abbrev Mutable (ε : Type) := ExceptT ε (StateT TStateView Option)

namespace Mutable

variable {ε : Type} (ts : TState)

/-- A Go panic. -/
def goPanic {α : Type} : Mutable ε α := ExceptT.lift (StateT.lift none)

/-- `GetValue` on the view, with its error as a value. -/
def getValue (key : Bytes) : Mutable ε (Except Error Bytes) := do
  return (← get).getValue ts key

/-- `Insert` on the view; on an error the view is unchanged. -/
def insert (key value : Bytes) : Mutable ε (Except Error Unit) := do
  match (← get).insert ts key value with
  | .ok v =>
    set v
    return .ok ()
  | .error e => return .error e

/-- `Remove` on the view; on an error the view is unchanged. -/
def remove (key : Bytes) : Mutable ε (Except Error Unit) := do
  match (← get).remove ts key with
  | .ok v =>
    set v
    return .ok ()
  | .error e => return .error e

/-- Run code on a view: its result (or error) and the view after it, or `none` on a panic. -/
def runOn {α : Type} (m : Mutable ε α) (v : TStateView) : Option (Except ε α × TStateView) :=
  m.run.run v

/-! ## Running code step by step

A run is read off one call at a time: the calls on the view by what the view's operations
return, and a sequence by the run of its first part (`runOn_bind_of_ok`). -/

variable {α β : Type} {v v' : TStateView}

@[simp] theorem runOn_pure (a : α) (v : TStateView) : (pure a : Mutable ε α).runOn v = some (.ok a, v) :=
  rfl

@[simp] theorem runOn_throw (e : ε) (v : TStateView) :
    (throw e : Mutable ε α).runOn v = some (.error e, v) :=
  rfl

@[simp] theorem runOn_goPanic (v : TStateView) : (goPanic : Mutable ε α).runOn v = none := rfl

@[simp] theorem runOn_getValue (key : Bytes) (v : TStateView) :
    (getValue ts key : Mutable ε _).runOn v = some (.ok (v.getValue ts key), v) :=
  rfl

theorem runOn_bind_of_ok {m : Mutable ε α} {f : α → Mutable ε β} {a : α}
    (h : m.runOn v = some (.ok a, v')) : (m >>= f).runOn v = (f a).runOn v' := by
  simp only [runOn] at h ⊢
  simp [ExceptT.run_bind, h]

@[simp] theorem runOn_get (v : TStateView) : (get : Mutable ε TStateView).runOn v = some (.ok v, v) :=
  rfl

theorem runOn_insert_of_ok {key value : Bytes} (h : v.insert ts key value = .ok v') :
    (insert ts key value : Mutable ε _).runOn v = some (.ok (.ok ()), v') := by
  rw [insert, runOn_bind_of_ok (runOn_get v), h]
  rfl

theorem runOn_insert_of_error {key value : Bytes} {e : Error} (h : v.insert ts key value = .error e) :
    (insert ts key value : Mutable ε _).runOn v = some (.ok (.error e), v) := by
  rw [insert, runOn_bind_of_ok (runOn_get v), h]
  rfl

theorem runOn_remove_of_ok {key : Bytes} (h : v.remove ts key = .ok v') :
    (remove ts key : Mutable ε _).runOn v = some (.ok (.ok ()), v') := by
  rw [remove, runOn_bind_of_ok (runOn_get v), h]
  rfl

theorem runOn_bind_of_error {m : Mutable ε α} {f : α → Mutable ε β} {e : ε}
    (h : m.runOn v = some (.error e, v')) : (m >>= f).runOn v = some (.error e, v') := by
  simp only [runOn] at h ⊢
  simp [ExceptT.run_bind, h]

theorem runOn_bind_of_none {m : Mutable ε α} {f : α → Mutable ε β} (h : m.runOn v = none) :
    (m >>= f).runOn v = none := by
  simp only [runOn] at h ⊢
  simp [ExceptT.run_bind, h]

/-- A run of a sequence: the first part failed, or it returned and the second part ran from
where it stopped. -/
theorem runOn_bind_eq_some {m : Mutable ε α} {f : α → Mutable ε β} {r : Except ε β}
    (h : (m >>= f).runOn v = some (r, v')) :
    (∃ e, m.runOn v = some (.error e, v') ∧ r = .error e) ∨
      ∃ a w, m.runOn v = some (.ok a, w) ∧ (f a).runOn w = some (r, v') := by
  cases hm : m.runOn v with
  | none => simp [runOn_bind_of_none hm] at h
  | some res =>
    obtain ⟨x, w⟩ := res
    cases x with
    | error e =>
      rw [runOn_bind_of_error hm] at h
      cases h
      exact .inl ⟨e, rfl, rfl⟩
    | ok a => exact .inr ⟨a, w, rfl, (runOn_bind_of_ok hm).symm.trans h⟩

/-- A run of a sequence that returned: both parts returned, the second from where the first
stopped. -/
theorem runOn_bind_eq_ok {m : Mutable ε α} {f : α → Mutable ε β} {b : β}
    (h : (m >>= f).runOn v = some (.ok b, v')) :
    ∃ a w, m.runOn v = some (.ok a, w) ∧ (f a).runOn w = some (.ok b, v') := by
  rcases runOn_bind_eq_some h with ⟨e, -, he⟩ | hok
  · cases he
  · exact hok

/-- A run past a guard, Go's `if c { return err }`, that returned: the guard was false and the
rest returned. The guarded code `m` (a `throw`, a panic) never returns. -/
theorem runOn_guard_eq_ok {c : Prop} [Decidable c] {m : Mutable ε PUnit} {k : PUnit → Mutable ε β}
    {b : β} (hm : ∀ a w, m.runOn v ≠ some (.ok a, w))
    (h : (if c then m >>= k else k ()).runOn v = some (.ok b, v')) :
    ¬c ∧ (k ()).runOn v = some (.ok b, v') := by
  by_cases hc : c
  · rw [if_pos hc] at h
    obtain ⟨a, w, ha, -⟩ := runOn_bind_eq_ok h
    exact absurd ha (hm a w)
  · rw [if_neg hc] at h
    exact ⟨hc, h⟩

end Mutable

end Hypersdk.Tstate
