import Hypersdk.Fees.Manager

/-!
# Unit prices of the next block

`Manager.ComputeNext` (`fees/manager.go`) derives the fee manager of a child block from its
parent's: for each dimension, `computeNextPriceWindow` rolls the consumption window forward by
the whole seconds between the two blocks, adds the parent's consumption in the slot of its
second, and moves the price towards the window's target.

The Go code has two ways to fail that are not errors. Slicing `w[roll*8:]` in `window.Roll`
panics when `since` is negative, that is when `currTime` lies a second or more before
`lastTime`; and the quotients by the target and by the change denominator panic when these are
zero. Both are `none` here. The products `previousPrice * delta` and `baseDelta * (since /
WindowSize)` are `uint64` products, which wrap: they are taken modulo `2⁶⁴`.

`computeNext_eq_none_of_clock_behind`: a current time a second or more behind the parent's
timestamp makes `ComputeNext` panic, whatever the manager and the rules.
`computeNext_isSome`: with positive targets and denominators and a current time less than a
second behind, it returns.
-/

namespace Hypersdk

namespace Consts

/-- `consts.MillisecondsPerSecond`. -/
def millisecondsPerSecond : ℤ := 1000

end Consts

namespace Fees

open BigEndian Checked Window

/-- `fees.Rules`, by the three values `ComputeNext` reads. -/
structure Rules where
  minUnitPrice : Dimensions
  unitPriceChangeDenominator : Dimensions
  windowTargetUnits : Dimensions

/-- Go's unsigned `/`: `none` for a zero divisor, where Go panics. -/
def div64 (a b : ℕ) : Option ℕ := if b = 0 then none else some (a / b)

/-- The price step of `computeNextPriceWindow`, the same in both directions: `x := previousPrice *
delta` (a wrapping `uint64` product), `y := x / target`, `baseDelta := y / changeDenom`, at
least 1. -/
def baseDelta (previousPrice delta target changeDenom : ℕ) : Option ℕ := do
  let x := previousPrice * delta % 2 ^ 64
  let y ← div64 x target
  let baseDelta ← div64 y changeDenom
  pure (if baseDelta < 1 then 1 else baseDelta)

/-- The first half of `computeNextPriceWindow`: the window rolled by `since`, the parent's units
added in the slot of the second it was built in. -/
def nextWindow (previous : Window) (previousConsumed : ℕ) (since : ℤ) : Option Window := do
  let newRollupWindow ← roll previous since
  if since < windowSize then
    let slot := windowSize - 1 - since
    let start := slot * 8
    update newRollupWindow start.toNat previousConsumed
  else pure newRollupWindow

/-- The second half of `computeNextPriceWindow`: the price moved towards the target by the
window's total, and raised to `minPrice`. -/
def nextPrice (previousPrice target changeDenom minPrice : ℕ) (since : ℤ) (total : ℕ) :
    Option ℕ :=
  let nextPrice :=
    if total > target then
      (baseDelta previousPrice (total - target) target changeDenom).map fun baseDelta =>
        (add64 previousPrice baseDelta).getD maxUint64
    else if total < target then
      (baseDelta previousPrice (target - total) target changeDenom).map fun baseDelta =>
        -- one decrease for every full window with no block
        let baseDelta :=
          if since > windowSize then baseDelta * (since / windowSize).toNat % 2 ^ 64
          else baseDelta
        (sub previousPrice baseDelta).getD 0
    else some previousPrice
  nextPrice.map fun nextPrice => if nextPrice < minPrice then minPrice else nextPrice

/-- `computeNextPriceWindow`: the next price and window of one dimension; `none` where the Go
code panics. -/
def computeNextPriceWindow (previous : Window) (previousConsumed previousPrice target changeDenom
    minPrice : ℕ) (since : ℤ) : Option (ℕ × Window) := do
  let newRollupWindow ← nextWindow previous previousConsumed since
  let total := sum newRollupWindow
  let nextPrice ← nextPrice previousPrice target changeDenom minPrice since total
  pure (nextPrice, newRollupWindow)

namespace Manager

/-- `ComputeNext`: the prices and windows of the next block, its consumption zero; `none` where
the Go code panics. `since` is the `int64` difference of the timestamps, which wraps, divided
by 1000 towards zero. -/
def computeNext (f : Manager) (lastTime currTime : ℤ) (r : Rules) : Option Manager :=
  let since := Int.tdiv ((currTime - lastTime).bmod (2 ^ 64)) Consts.millisecondsPerSecond
  (List.finRange feeDimensions).foldlM (fun bytes i => do
    let (nextUnitPrice, nextUnitWindow) ← computeNextPriceWindow (f.window i) (f.lastConsumed i)
      (f.unitPrice i) (r.windowTargetUnits i) (r.unitPriceChangeDenominator i)
      (r.minUnitPrice i) since
    pure ((bytes.setUnitPrice i nextUnitPrice).setWindow i nextUnitWindow)) empty

end Manager

/-! ## When the price update returns -/

section Total

variable {previous : Window} {previousConsumed previousPrice target changeDenom minPrice : ℕ}
  {since : ℤ}

theorem div64_isSome {a b : ℕ} (hb : 0 < b) : (div64 a b).isSome := by
  simp [div64, Nat.pos_iff_ne_zero.mp hb]

theorem baseDelta_isSome {p delta : ℕ} (ht : 0 < target) (hd : 0 < changeDenom) :
    (baseDelta p delta target changeDenom).isSome := by
  obtain ⟨y, hy⟩ := Option.isSome_iff_exists.mp (div64_isSome (a := p * delta % 2 ^ 64) ht)
  obtain ⟨b, hb⟩ := Option.isSome_iff_exists.mp (div64_isSome (a := y) hd)
  simp only [baseDelta, hy, hb, Option.bind_eq_bind, Option.bind_some]
  rfl

/-- The product `previousPrice * delta` wraps: when it is a multiple of `2⁶⁴` the price moves
by 1, however far the window is from its target. -/
theorem baseDelta_of_wraps_to_zero {p delta : ℕ} (ht : 0 < target) (hd : 0 < changeDenom)
    (hwrap : 2 ^ 64 ∣ p * delta) : baseDelta p delta target changeDenom = some 1 := by
  have hx : p * delta % 2 ^ 64 = 0 := Nat.mod_eq_zero_of_dvd hwrap
  have hy : div64 0 target = some 0 := by simp [div64, Nat.pos_iff_ne_zero.mp ht]
  have hb : div64 0 changeDenom = some 0 := by simp [div64, Nat.pos_iff_ne_zero.mp hd]
  simp only [baseDelta, hx, hy, hb, Option.bind_eq_bind, Option.bind_some]
  rfl

/-- A negative `since` makes `Roll` panic. -/
theorem computeNextPriceWindow_of_neg (hs : since < 0) :
    computeNextPriceWindow previous previousConsumed previousPrice target changeDenom minPrice
      since = none := by
  simp [computeNextPriceWindow, nextWindow, roll_of_neg previous hs]

theorem nextWindow_isSome (hs : 0 ≤ since) : (nextWindow previous previousConsumed since).isSome := by
  obtain ⟨rolled, hroll⟩ := Option.isSome_iff_exists.mp (roll_of_nonneg previous hs)
  simp only [nextWindow, hroll, Option.bind_eq_bind, Option.bind_some]
  split_ifs with hlt
  · -- the slot of the parent's units lies inside the window
    refine update_isSome ?_
    simp only [windowSize, windowSliceSize] at hlt ⊢
    omega
  · rfl

theorem nextPrice_isSome {total : ℕ} (ht : 0 < target) (hd : 0 < changeDenom) :
    (nextPrice previousPrice target changeDenom minPrice since total).isSome := by
  simp only [nextPrice, Option.isSome_map]
  -- a step in either direction maps over `baseDelta`; no step is `some previousPrice`
  split_ifs <;> simp only [Option.isSome_map, Option.isSome_some, baseDelta_isSome ht hd]

/-- With a positive target and denominator and a non-negative `since`, nothing panics. -/
theorem computeNextPriceWindow_isSome (hs : 0 ≤ since) (ht : 0 < target)
    (hd : 0 < changeDenom) :
    (computeNextPriceWindow previous previousConsumed previousPrice target changeDenom minPrice
      since).isSome := by
  obtain ⟨w, hw⟩ := Option.isSome_iff_exists.mp
    (@nextWindow_isSome previous previousConsumed since hs)
  obtain ⟨p, hp⟩ := Option.isSome_iff_exists.mp
    (@nextPrice_isSome previousPrice target changeDenom minPrice since (sum w) ht hd)
  simp only [computeNextPriceWindow, hw, hp, Option.bind_eq_bind, Option.bind_some]
  rfl

end Total

/-! ## Which way the price moves -/

section Direction

variable {previousPrice target changeDenom minPrice : ℕ} {since : ℤ} {total p : ℕ}

/-- A saturating `uint64` sum is at least its first term, and a `uint64`. -/
theorem le_add64_getD {a b : ℕ} (ha : a ≤ maxUint64) :
    a ≤ (add64 a b).getD maxUint64 ∧ (add64 a b).getD maxUint64 ≤ maxUint64 := by
  unfold add64
  split_ifs <;> simp <;> omega

theorem sub_getD_le (a b : ℕ) : (sub a b).getD 0 ≤ a := by
  unfold sub
  split_ifs <;> simp

/-- The price `nextPrice` returns is the minimum or more, and a `uint64`. It is not below the
previous price when the window's total passed the target, not above the previous price or the
minimum when it fell short, and the previous price raised to the minimum when on target. -/
theorem nextPrice_spec
    (h : nextPrice previousPrice target changeDenom minPrice since total = some p)
    (hprev : previousPrice < 2 ^ 64) (hmin : minPrice < 2 ^ 64) :
    minPrice ≤ p ∧ p < 2 ^ 64 ∧ (target < total → previousPrice ≤ p) ∧
      (total < target → p ≤ max previousPrice minPrice) ∧
      (total = target → p = max previousPrice minPrice) := by
  unfold nextPrice at h
  obtain ⟨q, hq, rfl⟩ := Option.map_eq_some_iff.mp h
  -- the price before it is raised to the minimum
  have hraise : (if q < minPrice then minPrice else q) = max q minPrice := by
    split_ifs <;> omega
  rw [hraise]
  have hmax : maxUint64 = 2 ^ 64 - 1 := rfl
  by_cases h₁ : total > target
  · rw [if_pos h₁] at hq
    obtain ⟨bd, -, rfl⟩ := Option.map_eq_some_iff.mp hq
    obtain ⟨hle, hlt⟩ := le_add64_getD (b := bd) (show previousPrice ≤ maxUint64 by omega)
    omega
  by_cases h₂ : total < target
  · rw [if_neg h₁, if_pos h₂] at hq
    obtain ⟨bd, -, rfl⟩ := Option.map_eq_some_iff.mp hq
    have := sub_getD_le previousPrice
      (if since > windowSize then bd * (since / windowSize).toNat % 2 ^ 64 else bd)
    dsimp only
    omega
  · rw [if_neg h₁, if_neg h₂] at hq
    cases hq
    omega

/-- The price `computeNextPriceWindow` returns is `nextPrice` of the window it returns. -/
theorem nextPrice_of_computeNextPriceWindow {w : Window}
    (h : computeNextPriceWindow previous previousConsumed previousPrice target changeDenom minPrice
      since = some (p, w)) :
    nextPrice previousPrice target changeDenom minPrice since (sum w) = some p := by
  unfold computeNextPriceWindow at h
  obtain ⟨w', hw', h⟩ := Option.bind_eq_some_iff.mp h
  obtain ⟨p', hp', h⟩ := Option.bind_eq_some_iff.mp h
  cases h
  exact hp'

end Direction

namespace Manager

/-- A loop over a non-empty list whose every step fails fails. -/
theorem foldlM_eq_none_of_forall {α β : Type*} {g : β → α → Option β} {l : List α} (hl : l ≠ [])
    (hg : ∀ b a, g b a = none) (b : β) : l.foldlM g b = none := by
  obtain ⟨a, l, rfl⟩ := List.exists_cons_of_ne_nil hl
  simp [List.foldlM_cons, hg]

/-- A loop whose every step returns returns. -/
theorem foldlM_isSome_of_forall {α β : Type*} {g : β → α → Option β} (l : List α)
    (hg : ∀ b a, (g b a).isSome) (b : β) : (l.foldlM g b).isSome := by
  induction l generalizing b with
  | nil => rfl
  | cons a l ih =>
    obtain ⟨b', hb'⟩ := Option.isSome_iff_exists.mp (hg b a)
    simpa [List.foldlM_cons, hb'] using ih b'

/-- `since` for timestamps whose difference fits in an `int64`. -/
theorem since_eq {lastTime currTime : ℤ} (hlo : -2 ^ 63 ≤ currTime - lastTime)
    (hhi : currTime - lastTime < 2 ^ 63) :
    Int.tdiv ((currTime - lastTime).bmod (2 ^ 64)) Consts.millisecondsPerSecond =
      Int.tdiv (currTime - lastTime) 1000 := by
  rw [Int.bmod_eq_of_le (by omega) (by omega)]
  rfl

/-- A current time a second or more before the parent's timestamp makes `ComputeNext` panic,
for every manager and every rules. -/
theorem computeNext_eq_none_of_clock_behind (f : Manager) (r : Rules) {lastTime currTime : ℤ}
    (hlo : -2 ^ 63 ≤ currTime - lastTime) (hbehind : currTime + 1000 ≤ lastTime) :
    f.computeNext lastTime currTime r = none := by
  have hsince : Int.tdiv (currTime - lastTime) 1000 < 0 := by
    have hneg : currTime - lastTime = -(lastTime - currTime) := by omega
    rw [hneg, Int.neg_tdiv, Int.tdiv_eq_ediv_of_nonneg (by omega)]
    omega
  rw [computeNext, since_eq hlo (by omega)]
  refine foldlM_eq_none_of_forall (List.ne_nil_of_length_pos (by simp)) (fun _ _ => ?_) _
  simp [computeNextPriceWindow_of_neg hsince]

/-- The preferred block of `VM.Submit` is two seconds ahead of the local clock. -/
theorem computeNext_panics_two_seconds_behind :
    -2 ^ 63 ≤ (0 : ℤ) - 2000 ∧ (0 : ℤ) + 1000 ≤ 2000 ∧
      empty.computeNext 2000 0 ⟨fun _ => 1, fun _ => 1, fun _ => 1⟩ = none :=
  ⟨by decide, by decide, computeNext_eq_none_of_clock_behind empty _ (by decide) (by decide)⟩

/-- With positive targets and denominators, `ComputeNext` returns when the current time is less
than a second before the parent's timestamp. -/
theorem computeNext_isSome (f : Manager) (r : Rules) {lastTime currTime : ℤ}
    (hclock : lastTime < currTime + 1000) (hhi : currTime - lastTime < 2 ^ 63)
    (ht : ∀ i, 0 < r.windowTargetUnits i) (hd : ∀ i, 0 < r.unitPriceChangeDenominator i) :
    (f.computeNext lastTime currTime r).isSome := by
  have hsince : 0 ≤ Int.tdiv (currTime - lastTime) 1000 := by
    by_cases hsign : 0 ≤ currTime - lastTime
    · rw [Int.tdiv_eq_ediv_of_nonneg hsign]
      omega
    · have hneg : currTime - lastTime = -(lastTime - currTime) := by omega
      rw [hneg, Int.neg_tdiv, Int.tdiv_eq_ediv_of_nonneg (by omega)]
      omega
  rw [computeNext, since_eq (by omega) hhi]
  refine foldlM_isSome_of_forall _ (fun bytes i => ?_) _
  obtain ⟨next, hnext⟩ := Option.isSome_iff_exists.mp
    (@computeNextPriceWindow_isSome (f.window i) (f.lastConsumed i) (f.unitPrice i) _ _
      (r.minUnitPrice i) _ hsince (ht i) (hd i))
  simp [hnext]


/-! ## What `ComputeNext` writes -/

section Next

variable {f bytes bytes' f' : Manager} {r : Rules} {since : ℤ} {i : Dimension}

/-- One step of the loop of `ComputeNext`: the next price and window of dimension `i`. -/
def nextStep (f : Manager) (r : Rules) (since : ℤ) (bytes : Manager) (i : Dimension) :
    Option Manager := do
  let (nextUnitPrice, nextUnitWindow) ← computeNextPriceWindow (f.window i) (f.lastConsumed i)
    (f.unitPrice i) (r.windowTargetUnits i) (r.unitPriceChangeDenominator i)
    (r.minUnitPrice i) since
  pure ((bytes.setUnitPrice i nextUnitPrice).setWindow i nextUnitWindow)

theorem computeNext_eq (f : Manager) (lastTime currTime : ℤ) (r : Rules) :
    f.computeNext lastTime currTime r = (List.finRange feeDimensions).foldlM
      (nextStep f r (Int.tdiv ((currTime - lastTime).bmod (2 ^ 64)) Consts.millisecondsPerSecond))
      empty := rfl

theorem nextStep_eq_some (h : nextStep f r since bytes i = some bytes') :
    ∃ p w, computeNextPriceWindow (f.window i) (f.lastConsumed i) (f.unitPrice i)
        (r.windowTargetUnits i) (r.unitPriceChangeDenominator i) (r.minUnitPrice i) since =
          some (p, w) ∧ bytes' = (bytes.setUnitPrice i p).setWindow i w := by
  unfold nextStep at h
  obtain ⟨⟨p, w⟩, hpw, h⟩ := Option.bind_eq_some_iff.mp h
  exact ⟨p, w, hpw, (Option.some.inj h).symm⟩

/-- The loop over distinct dimensions writes the next price and window of each of them, and
nothing else. -/
theorem foldlM_nextStep : ∀ (is : List Dimension) (bytes : Manager), is.Nodup →
    is.foldlM (nextStep f r since) bytes = some f' → ∀ i,
      f'.lastConsumed i = bytes.lastConsumed i ∧
      (i ∈ is → ∃ p, computeNextPriceWindow (f.window i) (f.lastConsumed i) (f.unitPrice i)
        (r.windowTargetUnits i) (r.unitPriceChangeDenominator i) (r.minUnitPrice i) since =
          some (p, f'.window i) ∧ f'.unitPrice i = p % 2 ^ 64) ∧
      (i ∉ is → f'.unitPrice i = bytes.unitPrice i ∧ f'.window i = bytes.window i)
  | [], bytes, _, h => by
    cases h
    intro i
    simp
  | j :: is, bytes, hnd, h => by
    obtain ⟨hj, hnd⟩ := List.nodup_cons.mp hnd
    rw [List.foldlM_cons] at h
    obtain ⟨b₁, h₁, h₂⟩ := Option.bind_eq_some_iff.mp h
    obtain ⟨p, w, hpw, rfl⟩ := nextStep_eq_some h₁
    intro i
    obtain ⟨hc, hin, hout⟩ := foldlM_nextStep is _ hnd h₂ i
    refine ⟨by rw [hc, lastConsumed_setWindow, lastConsumed_setUnitPrice], fun hi => ?_,
      fun hi => ?_⟩
    · by_cases hij : i = j
      · -- `j` itself, which the rest of the loop leaves alone
        subst hij
        obtain ⟨hu, hw⟩ := hout hj
        refine ⟨p, by rw [hw, window_setWindow_self]; exact hpw, ?_⟩
        rw [hu, unitPrice_setWindow, unitPrice_setUnitPrice_self]
      · exact hin ((List.mem_cons.mp hi).resolve_left hij)
    · have hij : i ≠ j := fun e => hi (e ▸ List.mem_cons_self)
      obtain ⟨hu, hw⟩ := hout fun h => hi (List.mem_cons_of_mem j h)
      exact ⟨by rw [hu, unitPrice_setWindow, unitPrice_setUnitPrice_of_ne _ _ hij],
        by rw [hw, window_setWindow_of_ne _ _ hij, window_setUnitPrice]⟩

theorem lastConsumed_empty (i : Dimension) : empty.lastConsumed i = 0 := by
  simp [lastConsumed, empty, readUint64, List.drop_replicate, List.take_replicate,
    toNat_replicate_zero]

/-- **`ComputeNext` moves every price towards its target and never below its minimum**: each
dimension of the next block starts with no consumption and a price of at least its minimum;
the price does not fall when the rolled window used more than the target, does not rise past
the previous price or the minimum when it used less, and is the previous price raised to the
minimum when it used exactly the target. -/
theorem computeNext_moves_prices (f : Manager) (r : Rules) (hmin : ∀ i, r.minUnitPrice i < 2 ^ 64)
    {lastTime currTime : ℤ} (h : f.computeNext lastTime currTime r = some f') (i : Dimension) :
    r.minUnitPrice i ≤ f'.unitPrice i ∧ f'.lastConsumed i = 0 ∧
      (r.windowTargetUnits i < Window.sum (f'.window i) → f.unitPrice i ≤ f'.unitPrice i) ∧
      (Window.sum (f'.window i) < r.windowTargetUnits i →
        f'.unitPrice i ≤ max (f.unitPrice i) (r.minUnitPrice i)) ∧
      (Window.sum (f'.window i) = r.windowTargetUnits i →
        f'.unitPrice i = max (f.unitPrice i) (r.minUnitPrice i)) := by
  rw [computeNext_eq] at h
  obtain ⟨hc, hin, -⟩ := foldlM_nextStep _ empty (List.nodup_finRange _) h i
  obtain ⟨p, hpw, hu⟩ := hin (List.mem_finRange i)
  obtain ⟨h₁, h₂, h₃, h₄, h₅⟩ :=
    nextPrice_spec (nextPrice_of_computeNextPriceWindow hpw) (unitPrice_lt f i) (hmin i)
  -- the price written is the `uint64` returned
  rw [hu, Nat.mod_eq_of_lt h₂]
  exact ⟨h₁, by rw [hc, lastConsumed_empty], h₃, h₄, h₅⟩

end Next

end Manager

end Fees

end Hypersdk
