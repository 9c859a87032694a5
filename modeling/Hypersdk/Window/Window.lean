import Hypersdk.Foundations.BigEndian
import Hypersdk.Foundations.Checked
import Mathlib

/-!
# Consumption windows

`window.Window` (`window/window.go`): ten big-endian `uint64` slots, the units consumed in each
of the last ten seconds, oldest first. `roll` moves the slots towards the front by the seconds
elapsed, `update` adds to one slot and `sum` adds them all, both saturating at `MaxUint64`.

Read slot by slot (`slot`), rolling by `r` moves slot `i + r` to slot `i` (`slot_roll`),
updating changes only the slot it is given (`slot_update_self`, `slot_update_of_ne`), and the sum
is the true sum capped at `MaxUint64` (`sum_eq_min`). `Roll` slices `w[roll*8:]`, which panics in
Go when `roll` is negative: that is `none` here (`roll_of_neg`).
-/

namespace Hypersdk.Window
set_option linter.dupNamespace false

open BigEndian Checked

/-- `WindowSize`: seconds of history. -/
def windowSize : ℕ := 10

/-- `WindowSliceSize`: the bytes of a window. -/
def windowSliceSize : ℕ := windowSize * 8

/-- `Window`, an array of `WindowSliceSize` bytes. -/
@[ext] structure Window where
  bytes : List UInt8
  length_bytes : bytes.length = windowSliceSize

/-- The zeroed array `Roll` starts from. -/
def zero : Window := ⟨List.replicate windowSliceSize 0, List.length_replicate⟩

/-- `BigEndian.Uint64(w[8*i:])`, the `i`-th slot. -/
def slot (w : Window) (i : ℕ) : ℕ := readUint64 w.bytes (8 * i)

/-- `Roll`: the slots moved `roll` places towards the front, zeros behind; `none` for a negative
`roll`, where Go's slice `w[roll*8:]` panics. -/
def roll (w : Window) (roll : ℤ) : Option Window :=
  let bound := roll * 8
  if hb : bound > windowSliceSize then some zero
  else if h : 0 ≤ roll then
    -- `copy(res[:], w[roll*8:])` fills the front of the zeroed array
    some ⟨w.bytes.drop (8 * roll.toNat) ++ List.replicate (8 * roll.toNat) 0, by
      have hw := w.length_bytes
      simp only [windowSliceSize, windowSize] at hw hb
      simp only [List.length_append, List.length_drop, List.length_replicate, windowSliceSize,
        windowSize]
      omega⟩
  else none

/-- `Sum`: the slots added up, `MaxUint64` as soon as the running sum overflows. -/
def sum (w : Window) : ℕ :=
  ((List.range windowSize).foldlM (fun sum i => add64 sum (slot w i)) 0).getD maxUint64

/-- `Update`: add `unitsConsumed` to the slot at byte `start`, `MaxUint64` on overflow; `none` for a
slot past the window, where Go's slice panics. -/
def update (w : Window) (start unitsConsumed : ℕ) : Option Window :=
  if h : start + 8 ≤ windowSliceSize then
    let prevUnitsConsumed := readUint64 w.bytes start
    let totalUnitsConsumed := (add64 prevUnitsConsumed unitsConsumed).getD maxUint64
    some ⟨writeUint64 w.bytes start totalUnitsConsumed, by
      rw [length_writeUint64 _ (w.length_bytes ▸ h), w.length_bytes]⟩
  else none

theorem roll_of_neg (w : Window) {r : ℤ} (hr : r < 0) : roll w r = none := by
  have hb : ¬ r * 8 > windowSliceSize := by
    simp only [windowSliceSize, windowSize]
    omega
  simp only [roll, dif_neg hb, dif_neg (not_le.mpr hr)]

theorem roll_of_nonneg (w : Window) {r : ℤ} (hr : 0 ≤ r) : (roll w r).isSome := by
  unfold roll
  dsimp only
  split_ifs <;> rfl

/-- Rolling by `r` moves slot `i + r` to slot `i`, and empties the last `r` slots. -/
theorem slot_roll {w w' : Window} {r : ℤ} (h : roll w r = some w') (hr : 0 ≤ r) {i : ℕ}
    (hi : i < windowSize) :
    slot w' i = if i + r.toNat < windowSize then slot w (i + r.toNat) else 0 := by
  have hw := w.length_bytes
  have h10 : windowSize = 10 := rfl
  have h80 : windowSliceSize = 80 := rfl
  unfold roll at h
  dsimp only at h
  split_ifs at h with hb
  · -- rolled past the window: every slot is zero
    cases h
    rw [if_neg (by omega), slot, zero, readUint64, List.drop_replicate, List.take_replicate]
    exact toNat_replicate_zero _
  · cases h
    split_ifs with hin
    · -- a slot that comes from the old window
      simp only [slot, readUint64]
      rw [List.drop_append_of_le_length (by simp; omega),
        List.take_append_of_le_length (by simp; omega), List.drop_drop,
        show 8 * r.toNat + 8 * i = 8 * (i + r.toNat) by omega]
    · -- a slot that comes from the zeros behind
      simp only [slot, readUint64]
      rw [List.drop_append, List.drop_eq_nil_of_le (by simp; omega), List.nil_append,
        List.drop_replicate, List.take_replicate]
      exact toNat_replicate_zero _

/-- The running sum of the slots is the true sum, capped at `MaxUint64`. -/
theorem sum_eq_min (w : Window) :
    sum w = min ((List.range windowSize).map (slot w)).sum maxUint64 := by
  rw [sum, foldlM_add64 (slot w) _ (Nat.zero_le _), Nat.zero_add]
  split_ifs with h
  · simp [h]
  · simp only [Option.getD_none]
    omega

section Update

variable {w w' : Window} {start c : ℕ}

theorem update_isSome (hs : start + 8 ≤ windowSliceSize) : (update w start c).isSome := by
  simp [update, hs]

/-- The slot updated holds the saturated sum. -/
theorem slot_update_self {i : ℕ} (h : update w (8 * i) c = some w') :
    slot w' i = min (slot w i + c) maxUint64 := by
  unfold update at h
  split_ifs at h with hs
  cases h
  show readUint64 (writeUint64 w.bytes (8 * i) ((add64 (slot w i) c).getD maxUint64)) (8 * i) = _
  rw [readUint64_writeUint64_self _ (w.length_bytes ▸ hs)]
  by_cases ho : slot w i + c ≤ maxUint64
  · rw [add64_eq_some_iff.mpr ⟨ho, rfl⟩, Option.getD_some, Nat.min_eq_left ho,
      Nat.mod_eq_of_lt (by simp only [maxUint64] at ho; omega)]
  · rw [add64_eq_none_iff.mpr (by omega), Option.getD_none, Nat.min_eq_right (by omega)]
    rfl

/-- Every other slot is left as it was. -/
theorem slot_update_of_ne {i j : ℕ} (h : update w (8 * i) c = some w') (hj : j ≠ i) :
    slot w' j = slot w j := by
  unfold update at h
  split_ifs at h with hs
  cases h
  exact readUint64_writeUint64_of_disjoint _ (w.length_bytes ▸ hs) (by omega)

end Update

end Hypersdk.Window
