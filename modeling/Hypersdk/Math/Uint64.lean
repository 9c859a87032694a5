import Hypersdk.Foundations.Checked

/-!
# Overflow-checked accumulators

`math.Uint64Operator` (`math/uint64.go`): a running 64-bit value that records the first
overflow of an `Add` or `MulAdd` and ignores every later call. Here the operator is its
`Value`: the running value, or `none` once an overflow happened.
-/

namespace Hypersdk.Math

open Checked

/-- `Uint64Operator`. -/
structure Uint64Operator where
  value : Option ℕ

namespace Uint64Operator

/-- `NewUint64Operator`. -/
def new (v : ℕ) : Uint64Operator := ⟨some v⟩

/-- `Add`. -/
def add (o : Uint64Operator) (n : ℕ) : Uint64Operator := ⟨o.value.bind (add64 · n)⟩

/-- `MulAdd`: add `a * b`. -/
def mulAdd (o : Uint64Operator) (a b : ℕ) : Uint64Operator :=
  ⟨o.value.bind fun v => (mul64 a b).bind (add64 v)⟩

@[simp] theorem value_new (v : ℕ) : (new v).value = some v := rfl

theorem value_add_eq_some {o : Uint64Operator} {n c : ℕ} :
    (o.add n).value = some c ↔ ∃ v, o.value = some v ∧ v + n ≤ maxUint64 ∧ v + n = c := by
  simp [add, Option.bind_eq_some_iff]

end Uint64Operator

end Hypersdk.Math
