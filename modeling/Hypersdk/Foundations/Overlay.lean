import Mathlib

/-!
# Layered partial maps and a journal of snapshots

Two general pieces the state layers of the model are built from.

* A *layer* `K → Option (Option V)` over a base partial map `K → Option V`: a key the layer
  does not mention reads from the base, `some none` deletes it and `some (some v)` sets it.
  Layers stack: publishing a layer into the one below it and reading through the result is
  reading through both (`overlay_publish`).
* A *journal*: a partial map together with the maps it had before each effective write,
  oldest first. A write that leaves the map as it is is not recorded, and `rollback i`
  returns to the map recorded at depth `i`. This is what a transactional view with
  restore points is meant to implement.
-/

namespace Hypersdk.Foundations

open Function

variable {K V : Type*}

/-! ## Layers -/

/-- Read `k` through a layer of changes over a base map. -/
def overlay (top : K → Option (Option V)) (base : K → Option V) (k : K) : Option V :=
  (top k).getD (base k)

@[simp] theorem overlay_of_eq_none {top : K → Option (Option V)} {base : K → Option V} {k : K}
    (h : top k = none) : overlay top base k = base k := by
  simp [overlay, h]

@[simp] theorem overlay_of_eq_some {top : K → Option (Option V)} {base : K → Option V} {k : K}
    {v : Option V} (h : top k = some v) : overlay top base k = v := by
  simp [overlay, h]

/-- Publish the layer `top` into the layer `below`: every key that `top` mentions takes
`top`'s entry. -/
def publish (top below : K → Option (Option V)) (k : K) : Option (Option V) :=
  (top k).or (below k)

theorem overlay_publish (top below : K → Option (Option V)) (base : K → Option V) :
    overlay (publish top below) base = overlay top (overlay below base) := by
  funext k
  cases h : top k <;> simp [overlay, publish, h]

/-- Publishing a layer that mentions no key changes nothing. -/
theorem publish_empty (below : K → Option (Option V)) : publish (fun _ => none) below = below := by
  funext k
  simp [publish]

/-! ## Journals -/

/-- A partial map with the maps it had before each recorded write, oldest first. -/
structure Journal (K V : Type*) where
  current : K → Option V
  past : List (K → Option V)

namespace Journal

variable [DecidableEq K]

/-- A journal with nothing recorded yet. -/
def init (m : K → Option V) : Journal K V := ⟨m, []⟩

/-- The number of recorded writes. -/
def depth (j : Journal K V) : ℕ := j.past.length

/-- Set `k` to `v`; recorded only when it changes the map. -/
def set [DecidableEq V] (j : Journal K V) (k : K) (v : V) : Journal K V :=
  if j.current k = some v then j else ⟨update j.current k (some v), j.past ++ [j.current]⟩

/-- Delete `k`; recorded only when `k` is present. -/
def erase (j : Journal K V) (k : K) : Journal K V :=
  if (j.current k).isNone then j else ⟨update j.current k none, j.past ++ [j.current]⟩

/-- Return to the map recorded at depth `i` (no change when `i` is the depth or beyond). -/
def rollback (j : Journal K V) (i : ℕ) : Journal K V :=
  if h : i < j.past.length then ⟨j.past[i], j.past.take i⟩ else j

@[simp] theorem current_set_self [DecidableEq V] (j : Journal K V) (k : K) (v : V) :
    (j.set k v).current k = some v := by
  unfold set
  split <;> simp_all

@[simp] theorem current_erase_self (j : Journal K V) (k : K) : (j.erase k).current k = none := by
  unfold erase
  split <;> simp_all

theorem current_set_of_ne [DecidableEq V] (j : Journal K V) {k k' : K} (v : V) (h : k' ≠ k) :
    (j.set k v).current k' = j.current k' := by
  unfold set
  split <;> simp [update_of_ne h]

theorem current_erase_of_ne (j : Journal K V) {k k' : K} (h : k' ≠ k) :
    (j.erase k).current k' = j.current k' := by
  unfold erase
  split <;> simp [update_of_ne h]

end Journal

end Hypersdk.Foundations
