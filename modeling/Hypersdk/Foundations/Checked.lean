import Mathlib

/-!
# Checked unsigned 64-bit arithmetic

`add64` and `mul64` are the sum and product of two 64-bit values, or nothing when the result
does not fit in 64 bits: the overflow-checked `Add64` and `Mul64` that the Go code takes from
its math utilities, which return an error instead of wrapping.
-/

namespace Hypersdk.Checked

/-- The largest 64-bit value. -/
def maxUint64 : ℕ := 2 ^ 64 - 1

/-- `math.Add64`: the sum, or nothing on overflow. -/
def add64 (a b : ℕ) : Option ℕ := if a + b ≤ maxUint64 then some (a + b) else none

/-- `math.Sub`: the difference, or nothing when it would be negative. -/
def sub (a b : ℕ) : Option ℕ := if b ≤ a then some (a - b) else none

/-- `math.Mul64`: the product, or nothing on overflow. -/
def mul64 (a b : ℕ) : Option ℕ := if a * b ≤ maxUint64 then some (a * b) else none

@[simp] theorem add64_eq_some_iff {a b c : ℕ} :
    add64 a b = some c ↔ a + b ≤ maxUint64 ∧ a + b = c := by
  unfold add64
  split
  · simp_all
  · simp
    omega

@[simp] theorem add64_eq_none_iff {a b : ℕ} : add64 a b = none ↔ maxUint64 < a + b := by
  unfold add64
  split <;> simp_all

theorem add64_of_lt {a b : ℕ} (h : a + b < 2 ^ 64) : add64 a b = some (a + b) := by
  rw [add64_eq_some_iff, maxUint64]
  omega

theorem sub_of_le {a b : ℕ} (h : b ≤ a) : sub a b = some (a - b) := if_pos h

theorem sub_of_lt {a b : ℕ} (h : a < b) : sub a b = none := if_neg (by omega)

@[simp] theorem mul64_eq_some_iff {a b c : ℕ} :
    mul64 a b = some c ↔ a * b ≤ maxUint64 ∧ a * b = c := by
  unfold mul64
  split
  · simp_all
  · simp
    omega

@[simp] theorem mul64_eq_none_iff {a b : ℕ} : mul64 a b = none ↔ maxUint64 < a * b := by
  unfold mul64
  split <;> simp_all

/-- A loop of checked additions fails exactly when the whole sum overflows: the running sums
only grow, so the first overflow is an overflow of the total. -/
theorem foldlM_add64 {α : Type*} (g : α → ℕ) (l : List α) {a : ℕ} (ha : a ≤ maxUint64) :
    l.foldlM (fun s x => add64 s (g x)) a =
      if a + (l.map g).sum ≤ maxUint64 then some (a + (l.map g).sum) else none := by
  induction l generalizing a with
  | nil => simp [ha]
  | cons x xs ih =>
    rw [List.foldlM_cons]
    by_cases hx : a + g x ≤ maxUint64
    · have hstep : add64 a (g x) = some (a + g x) := add64_eq_some_iff.mpr ⟨hx, rfl⟩
      simp only [hstep, Option.bind_eq_bind, Option.bind_some, ih hx, List.map_cons,
        List.sum_cons, Nat.add_assoc]
    · have hstep : add64 a (g x) = none := add64_eq_none_iff.mpr (by omega)
      simp only [hstep, Option.bind_eq_bind, Option.bind_none, List.map_cons, List.sum_cons]
      rw [if_neg (by omega)]

end Hypersdk.Checked
