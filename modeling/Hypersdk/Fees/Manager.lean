import Hypersdk.Window.Window
import Mathlib

/-!
# The fee manager

`fees.Manager` (`fees/manager.go`) keeps, for each of the five fee dimensions, a unit price, a
window of recent consumption and the units consumed by the block being built or verified, packed
into one byte slice of `FeeDimensions * dimensionStateLen` bytes:

  `price (8) | window (80) | consumed (8)`, dimension after dimension.

The model keeps the byte slice and its length as an invariant of `Manager`, so that every
accessor reads inside it. `consume` is `Consume`: a check loop that finds the first dimension
whose new consumption would overflow or pass its limit, then a commit loop that writes them
all; `fee` is `Fee`, the overflow-checked sum of price times units.

The fields of different dimensions, and the three fields of one, never overlap, so a setter
changes only its own field (`lastConsumed_setLastConsumed_of_ne`, `unitPrice_setLastConsumed`,
`window_setLastConsumed`). With the check loop guarding every failure of the commit loop, this
makes `Consume` all or nothing (`consume_all_or_nothing`).
-/

namespace Hypersdk

namespace Fees

open BigEndian Checked

/-- `FeeDimensions`. -/
abbrev feeDimensions : ℕ := 5

/-- There are dimensions, so that `0` is one: one named proof, which every dimension literal
then shares. -/
instance instNeZeroFeeDimensions : NeZero feeDimensions := ⟨by decide⟩

/-- `Dimension`: `Bandwidth`, `Compute`, `StorageRead`, `StorageAllocate`, `StorageWrite`. -/
abbrev Dimension := Fin feeDimensions

/-- `Dimensions`: a 64-bit value per dimension. -/
abbrev Dimensions := Dimension → ℕ

/-- `dimensionStateLen`. -/
def dimensionStateLen : ℕ := 8 + Window.windowSliceSize + 8

/-- `Manager`, whose bytes hold every dimension's state. -/
structure Manager where
  raw : List UInt8
  length_raw : raw.length = feeDimensions * dimensionStateLen

/-- `NewManager`: empty bytes start every dimension at zero. Bytes of any other length than
the layout's are `none`: every accessor of such a manager panics in Go. -/
def newManager (raw : List UInt8) : Option Manager :=
  if raw.length = 0 then some ⟨List.replicate (feeDimensions * dimensionStateLen) 0, by simp⟩
  else if h' : raw.length = feeDimensions * dimensionStateLen then some ⟨raw, h'⟩ else none

namespace Manager

/-- The offset of a dimension's consumption. -/
def consumedOffset (d : Dimension) : ℕ := dimensionStateLen * d + 8 + Window.windowSliceSize

/-- The manager `NewManager` makes from empty bytes: every price, window and consumption 0. -/
def empty : Manager := ⟨List.replicate (feeDimensions * dimensionStateLen) 0, by simp⟩

theorem newManager_nil : newManager [] = some empty := rfl

/-- The offset of a dimension's price. -/
def priceOffset (d : Dimension) : ℕ := dimensionStateLen * d

/-- `unitPrice`. -/
def unitPrice (f : Manager) (d : Dimension) : ℕ := readUint64 f.raw (priceOffset d)

/-- `lastConsumed`. -/
def lastConsumed (f : Manager) (d : Dimension) : ℕ := readUint64 f.raw (consumedOffset d)

/-- The offset of a dimension's window. -/
def windowOffset (d : Dimension) : ℕ := dimensionStateLen * d + 8

theorem windowOffset_add_le (d : Dimension) :
    windowOffset d + Window.windowSliceSize ≤ feeDimensions * dimensionStateLen := by
  have := d.isLt
  simp only [windowOffset, dimensionStateLen, Window.windowSliceSize, Window.windowSize,
    feeDimensions] at this ⊢
  omega

/-- `window`. -/
def window (f : Manager) (d : Dimension) : Window.Window :=
  ⟨(f.raw.drop (windowOffset d)).take Window.windowSliceSize, by
    have := windowOffset_add_le d
    simp only [List.length_take, List.length_drop, f.length_raw]
    omega⟩

theorem consumedOffset_add_le (d : Dimension) :
    consumedOffset d + 8 ≤ feeDimensions * dimensionStateLen := by
  have := d.isLt
  simp only [consumedOffset, dimensionStateLen, Window.windowSliceSize, Window.windowSize,
    feeDimensions] at this ⊢
  omega

theorem priceOffset_add_le (d : Dimension) :
    priceOffset d + 8 ≤ feeDimensions * dimensionStateLen := by
  have := d.isLt
  simp only [priceOffset, dimensionStateLen, Window.windowSliceSize, Window.windowSize,
    feeDimensions] at this ⊢
  omega

/-- `setUnitPrice`. -/
def setUnitPrice (f : Manager) (d : Dimension) (price : ℕ) : Manager :=
  ⟨writeUint64 f.raw (priceOffset d) price, by
    rw [length_writeUint64 _ (f.length_raw ▸ priceOffset_add_le d), f.length_raw]⟩

/-- `setLastConsumed`. -/
def setLastConsumed (f : Manager) (d : Dimension) (consumed : ℕ) : Manager :=
  ⟨writeUint64 f.raw (consumedOffset d) consumed, by
    rw [length_writeUint64 _ (f.length_raw ▸ consumedOffset_add_le d), f.length_raw]⟩

/-- The window copied into a dimension's bytes, as `ComputeNext` does. -/
def setWindow (f : Manager) (d : Dimension) (w : Window.Window) : Manager :=
  ⟨writeBytes f.raw (windowOffset d) w.bytes, by
    rw [length_writeBytes (by rw [w.length_bytes, f.length_raw]; exact windowOffset_add_le d),
      f.length_raw]⟩

/-- `UnitsConsumed`. -/
def unitsConsumed (f : Manager) : Dimensions := f.lastConsumed

/-- The first dimension whose consumption would overflow or pass its limit: the check loop of
`Consume`. -/
def consumeCheck (f : Manager) (d l : Dimensions) : Option Dimension :=
  (List.finRange feeDimensions).find? fun i =>
    match add64 (f.lastConsumed i) (d i) with
    | none => true
    | some consumed => decide (consumed > l i)

/-- The commit loop of `Consume`, over the dimensions still to write. -/
def consumeCommit (f : Manager) (d : Dimensions) : List Dimension → (Bool × Dimension) × Manager
  | [] => ((true, 0), f)
  | i :: is =>
    match add64 (f.lastConsumed i) (d i) with
    | none => ((false, i), f)
    | some consumed => consumeCommit (f.setLastConsumed i consumed) d is

/-- `Consume`: add `d` to the consumption if every dimension stays within `l`, else report the
first dimension that does not. -/
def consume (f : Manager) (d l : Dimensions) : (Bool × Dimension) × Manager :=
  match f.consumeCheck d l with
  | some i => ((false, i), f)
  | none => f.consumeCommit d (List.finRange feeDimensions)

/-- `Fee`: the overflow-checked sum over the dimensions of price times units. -/
def fee (f : Manager) (d : Dimensions) : Option ℕ :=
  (List.finRange feeDimensions).foldlM
    (fun fee i => (mul64 (f.unitPrice i) (d i)).bind fun contribution => add64 contribution fee) 0

/-- A failed check leaves the manager as it was. -/
theorem consume_of_consumeCheck_eq_some {f : Manager} {d l : Dimensions} {i : Dimension}
    (h : f.consumeCheck d l = some i) : f.consume d l = ((false, i), f) := by
  simp [consume, h]

/-! ## Fields do not overlap -/

section Frame

variable (f : Manager) {i j : Dimension} (c : ℕ)

theorem lastConsumed_setLastConsumed_self (hc : c ≤ maxUint64) :
    (f.setLastConsumed i c).lastConsumed i = c := by
  rw [lastConsumed, setLastConsumed,
    readUint64_writeUint64_self _ (f.length_raw ▸ consumedOffset_add_le i)]
  simp only [maxUint64] at hc
  omega

theorem lastConsumed_setLastConsumed_of_ne (h : j ≠ i) :
    (f.setLastConsumed i c).lastConsumed j = f.lastConsumed j := by
  have hij : i.val ≠ j.val := fun e => h (Fin.ext e).symm
  refine readUint64_writeUint64_of_disjoint _ (f.length_raw ▸ consumedOffset_add_le i) ?_
  simp only [consumedOffset, dimensionStateLen, Window.windowSliceSize, Window.windowSize]
  omega

theorem unitPrice_setLastConsumed : (f.setLastConsumed i c).unitPrice j = f.unitPrice j := by
  refine readUint64_writeUint64_of_disjoint _ (f.length_raw ▸ consumedOffset_add_le i) ?_
  simp only [consumedOffset, priceOffset, dimensionStateLen, Window.windowSliceSize,
    Window.windowSize]
  omega

theorem window_setLastConsumed : (f.setLastConsumed i c).window j = f.window j := by
  have hfits : consumedOffset i + (ofNat 8 c).length ≤ f.raw.length := by
    rw [length_ofNat, f.length_raw]
    exact consumedOffset_add_le i
  ext1
  simp only [window, setLastConsumed, writeUint64_eq_writeBytes]
  refine take_drop_writeBytes_of_disjoint hfits ?_
  simp only [length_ofNat, consumedOffset, windowOffset, dimensionStateLen,
    Window.windowSliceSize, Window.windowSize]
  omega

theorem unitPrice_lt (i : Dimension) : f.unitPrice i < 2 ^ 64 := by
  have h := toNat_lt ((f.raw.drop (priceOffset i)).take 8)
  have hlen : ((f.raw.drop (priceOffset i)).take 8).length ≤ 8 := by simp
  exact lt_of_lt_of_le h (Nat.pow_le_pow_right (by decide) hlen |>.trans_eq (by decide))

theorem unitPrice_setUnitPrice_self : (f.setUnitPrice i c).unitPrice i = c % 2 ^ 64 :=
  readUint64_writeUint64_self _ (f.length_raw ▸ priceOffset_add_le i)

theorem unitPrice_setUnitPrice_of_ne (h : j ≠ i) : (f.setUnitPrice i c).unitPrice j = f.unitPrice j := by
  have hij : i.val ≠ j.val := fun e => h (Fin.ext e).symm
  refine readUint64_writeUint64_of_disjoint _ (f.length_raw ▸ priceOffset_add_le i) ?_
  simp only [priceOffset, dimensionStateLen, Window.windowSliceSize, Window.windowSize]
  omega

theorem lastConsumed_setUnitPrice : (f.setUnitPrice i c).lastConsumed j = f.lastConsumed j := by
  refine readUint64_writeUint64_of_disjoint _ (f.length_raw ▸ priceOffset_add_le i) ?_
  simp only [consumedOffset, priceOffset, dimensionStateLen, Window.windowSliceSize,
    Window.windowSize]
  omega

theorem window_setUnitPrice : (f.setUnitPrice i c).window j = f.window j := by
  have hfits : priceOffset i + (ofNat 8 c).length ≤ f.raw.length := by
    rw [length_ofNat, f.length_raw]
    exact priceOffset_add_le i
  ext1
  simp only [window, setUnitPrice, writeUint64_eq_writeBytes]
  refine take_drop_writeBytes_of_disjoint hfits ?_
  simp only [length_ofNat, priceOffset, windowOffset, dimensionStateLen,
    Window.windowSliceSize, Window.windowSize]
  omega

theorem window_setWindow_self (w : Window.Window) : (f.setWindow i w).window i = w := by
  ext1
  have h := @take_drop_writeBytes_self f.raw w.bytes (windowOffset i)
    (by rw [w.length_bytes, f.length_raw]; exact windowOffset_add_le i)
  rw [w.length_bytes] at h
  exact h

theorem window_setWindow_of_ne (w : Window.Window) (h : j ≠ i) :
    (f.setWindow i w).window j = f.window j := by
  have hij : i.val ≠ j.val := fun e => h (Fin.ext e).symm
  ext1
  refine take_drop_writeBytes_of_disjoint
    (by rw [w.length_bytes, f.length_raw]; exact windowOffset_add_le i) ?_
  simp only [w.length_bytes, windowOffset, dimensionStateLen, Window.windowSliceSize,
    Window.windowSize]
  omega

/-- A read of eight bytes away from a copied window. -/
theorem readUint64_setWindow (w : Window.Window) {o : ℕ}
    (hd : windowOffset i + Window.windowSliceSize ≤ o ∨ o + 8 ≤ windowOffset i) :
    readUint64 (f.setWindow i w).raw o = readUint64 f.raw o := by
  simp only [readUint64, setWindow]
  rw [take_drop_writeBytes_of_disjoint
    (by rw [w.length_bytes, f.length_raw]; exact windowOffset_add_le i) (by rw [w.length_bytes]; exact hd)]

theorem unitPrice_setWindow (w : Window.Window) : (f.setWindow i w).unitPrice j = f.unitPrice j := by
  refine readUint64_setWindow f w ?_
  simp only [priceOffset, windowOffset, dimensionStateLen, Window.windowSliceSize,
    Window.windowSize]
  omega

theorem lastConsumed_setWindow (w : Window.Window) :
    (f.setWindow i w).lastConsumed j = f.lastConsumed j := by
  refine readUint64_setWindow f w ?_
  simp only [consumedOffset, windowOffset, dimensionStateLen, Window.windowSliceSize,
    Window.windowSize]
  omega

end Frame

/-! ## `Consume` is all or nothing -/

section Consume

variable {f : Manager} {d l : Dimensions}

/-- The check loop passes exactly when every dimension's new consumption fits and stays within
its limit. -/
theorem consumeCheck_eq_none_iff :
    f.consumeCheck d l = none ↔
      ∀ i, f.lastConsumed i + d i ≤ maxUint64 ∧ f.lastConsumed i + d i ≤ l i := by
  simp only [consumeCheck, List.find?_eq_none, List.mem_finRange, true_implies]
  refine forall_congr' fun i => ?_
  cases h : add64 (f.lastConsumed i) (d i) with
  | none => simp_all
  | some consumed =>
    obtain ⟨hle, rfl⟩ := add64_eq_some_iff.mp h
    simp [hle]

/-- The dimension the check loop stops at overflows or passes its limit. -/
theorem consumeCheck_eq_some {j : Dimension} (h : f.consumeCheck d l = some j) :
    maxUint64 < f.lastConsumed j + d j ∨ l j < f.lastConsumed j + d j := by
  have hj := List.find?_some h
  cases h' : add64 (f.lastConsumed j) (d j) with
  | none => exact .inl (add64_eq_none_iff.mp h')
  | some consumed =>
    obtain ⟨-, rfl⟩ := add64_eq_some_iff.mp h'
    simp only [h', decide_eq_true_eq] at hj
    exact .inr hj

/-- The commit loop over distinct dimensions that all fit adds `d` to each of them and touches
nothing else. -/
theorem consumeCommit_spec (is : List Dimension) (hnd : is.Nodup) (f : Manager)
    (hfit : ∀ i ∈ is, f.lastConsumed i + d i ≤ maxUint64) :
    ∃ f', f.consumeCommit d is = ((true, 0), f') ∧
      (∀ i, f'.lastConsumed i = if i ∈ is then f.lastConsumed i + d i else f.lastConsumed i) ∧
      ∀ i, f'.unitPrice i = f.unitPrice i ∧ f'.window i = f.window i := by
  induction is generalizing f with
  | nil => exact ⟨f, rfl, fun i => by simp, fun i => ⟨rfl, rfl⟩⟩
  | cons i is ih =>
    obtain ⟨hi, hnd⟩ := List.nodup_cons.mp hnd
    have hadd : add64 (f.lastConsumed i) (d i) = some (f.lastConsumed i + d i) :=
      add64_eq_some_iff.mpr ⟨hfit i (List.mem_cons_self ..), rfl⟩
    -- the dimensions still to write read as before the write to `i`
    have hrest : ∀ j ∈ is, (f.setLastConsumed i (f.lastConsumed i + d i)).lastConsumed j =
        f.lastConsumed j := fun j hj =>
      lastConsumed_setLastConsumed_of_ne f _ (fun e => hi (e ▸ hj))
    obtain ⟨f', hrun, hcons, hkeep⟩ := ih hnd (f.setLastConsumed i (f.lastConsumed i + d i))
      (fun j hj => hrest j hj ▸ hfit j (List.mem_cons_of_mem _ hj))
    refine ⟨f', by rw [consumeCommit, hadd]; exact hrun, fun j => ?_, fun j => ?_⟩
    · rw [hcons j]
      by_cases hj : j ∈ is
      · rw [if_pos hj, if_pos (List.mem_cons_of_mem _ hj), hrest j hj]
      · rw [if_neg hj]
        by_cases hji : j = i
        · subst hji
          rw [if_pos (List.mem_cons_self ..),
            lastConsumed_setLastConsumed_self f _ (hfit j (List.mem_cons_self ..))]
        · rw [if_neg (by simp [hji, hj]), lastConsumed_setLastConsumed_of_ne f _ hji]
    · rw [(hkeep j).1, (hkeep j).2, unitPrice_setLastConsumed, window_setLastConsumed]
      exact ⟨rfl, rfl⟩

/-- `Consume` either adds `d` to every dimension's consumption, each within its limit and with no
overflow, or reports a dimension that would overflow or pass its limit and changes nothing.
Prices and windows are never written. -/
theorem consume_all_or_nothing (f : Manager) (d l : Dimensions) :
    (∃ f', f.consume d l = ((true, 0), f') ∧
      (∀ i, f'.lastConsumed i = f.lastConsumed i + d i ∧
        f.lastConsumed i + d i ≤ maxUint64 ∧ f.lastConsumed i + d i ≤ l i) ∧
      ∀ i, f'.unitPrice i = f.unitPrice i ∧ f'.window i = f.window i) ∨
    ∃ j, f.consume d l = ((false, j), f) ∧
      (maxUint64 < f.lastConsumed j + d j ∨ l j < f.lastConsumed j + d j) := by
  cases hc : f.consumeCheck d l with
  | some j => exact .inr ⟨j, consume_of_consumeCheck_eq_some hc, consumeCheck_eq_some hc⟩
  | none =>
    have hok := consumeCheck_eq_none_iff.mp hc
    obtain ⟨f', hrun, hcons, hkeep⟩ := consumeCommit_spec (List.finRange feeDimensions)
      (List.nodup_finRange _) f (fun i _ => (hok i).1)
    refine .inl ⟨f', by rw [consume, hc]; exact hrun, fun i => ⟨?_, hok i⟩, hkeep⟩
    rw [hcons i, if_pos (List.mem_finRange i)]

end Consume

end Manager

/-! ## Dimensions on the wire -/

/-- `DimensionsLen`. -/
def dimensionsLen : ℕ := 8 * feeDimensions

/-- `Dimensions.Bytes`: each dimension's value big-endian, in order. -/
def Dimensions.bytes (d : Dimensions) : List UInt8 :=
  (List.finRange feeDimensions).flatMap fun i => ofNat 8 (d i)

/-- `UnpackDimensions`: `none` for a slice of another length (`ErrWrongDimensionSize`). -/
def unpackDimensions (raw : List UInt8) : Option Dimensions :=
  if raw.length = dimensionsLen then some fun i => readUint64 raw (8 * i) else none

theorem length_bytes (d : Dimensions) : (Dimensions.bytes d).length = dimensionsLen := by
  simp [Dimensions.bytes, dimensionsLen, List.finRange_succ, feeDimensions]

/-- Dimensions read back as `Bytes` wrote them. -/
theorem unpackDimensions_bytes {d : Dimensions} (hd : ∀ i, d i < 2 ^ 64) :
    unpackDimensions (Dimensions.bytes d) = some d := by
  rw [unpackDimensions, if_pos (length_bytes d), Option.some.injEq]
  funext i
  have h := readUint64_flatMap (List.finRange feeDimensions) d (k := i) (by simp)
  simp only [List.getElem_finRange, Fin.cast_mk, Fin.eta] at h
  rw [Dimensions.bytes, h, Nat.mod_eq_of_lt (lt_of_lt_of_eq (hd i) (by decide))]

end Fees

end Hypersdk
