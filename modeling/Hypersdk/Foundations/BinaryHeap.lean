import Mathlib

/-!
# Binary heaps, as Go's `container/heap` keeps them

Go's `container/heap` orders a slice through an interface: `Less(i, j)`, `Swap(i, j)`, and a
`Push` and a `Pop` that append an element and take the last one off. `up(h, j)` swaps the
element at `j` with its parent while it is less; `down(h, i, n)` swaps the element at `i` with
its lesser child below `n` while that child is less, and says whether it moved. `Push` appends
and runs `up` from the last position; `Pop` swaps the root with the last element, runs `down`
on the others and takes the last off; `Remove(i)` does the same for position `i`, and runs `up`
where `down` did not move.

Here the slice is an `Array`, `Less` compares a key (a min-heap), and `Swap` may stamp each
moved element with its new position (`stamp`), as a heap whose entries record their index
does. What holds of every call:

* the elements are permuted, up to their stamps (`up_perm`, `downLoop_perm`, `pop_perm`,
  `remove_perm`), and `Pop` and `Remove` return the element they were asked for
  (`pop_root`, `remove_at`);
* the heap order is kept (`Ordered.upLast`, `Ordered.pop`, `Ordered.remove`), so the root has
  the least key (`Ordered.root_le`);
* elements that record their index keep it right (`Stamped`).

The order proofs follow the two sifts' invariants: `UpReady` (every edge is in order but the
one into the moving element, whose parent is at or before its children) and `DownReady`
(every edge is in order but those out of it). `Remove` starts from `FixReady`, which allows
both, and `down` either moves (and then `DownReady` holds after the first swap) or not (and
then `UpReady` holds).
-/

namespace Hypersdk.Foundations

namespace BinaryHeap

/-- The position of `j`'s parent. For `j = 0` it is `0`, as Go's `(j - 1) / 2` is. -/
def parent (j : ℕ) : ℕ := (j - 1) / 2

theorem parent_lt {j : ℕ} (h : 0 < j) : parent j < j := by
  unfold parent
  omega

theorem parent_eq_self_iff {j : ℕ} : parent j = j ↔ j = 0 := by
  unfold parent
  omega

/-- What `container/heap` is given: `Less` by a key, and a `Swap` that may stamp each moved
element with its new position without changing its key. -/
structure Interface (α β : Type*) [LinearOrder β] where
  key : α → β
  stamp : ℕ → α → α
  key_stamp : ∀ i x, key (stamp i x) = key x

/-- Every element records its own position. -/
def Stamped {α : Type*} (idx : α → ℕ) (a : Array α) : Prop := ∀ k x, a[k]? = some x → idx x = k

namespace Interface

variable {α β : Type*} [LinearOrder β] (I : Interface α β)

/-- The key at position `k`, if there is one. -/
def keyAt (a : Array α) (k : ℕ) : Option β := a[k]?.map I.key

/-- `Less(i, j)`. Out of range it is false; `container/heap` never asks there. -/
def less (a : Array α) (i j : ℕ) : Bool :=
  match I.keyAt a i, I.keyAt a j with
  | some x, some y => decide (x < y)
  | _, _ => false

/-- `Swap(i, j)`: exchange the two elements, then stamp each with its position. Out of range
it does nothing; Go's would panic, and `container/heap` never asks there. -/
def swap (a : Array α) (i j : ℕ) : Array α :=
  if h : i < a.size ∧ j < a.size then ((a.swap i j h.1 h.2).modify i (I.stamp i)).modify j (I.stamp j)
  else a

/-- `up(h, j)`. -/
def up (a : Array α) (j : ℕ) : Array α :=
  if _ : parent j = j then a
  else if I.less a j (parent j) then up (I.swap a (parent j) j) (parent j)
  else a
termination_by j
decreasing_by exact parent_lt (Nat.pos_of_ne_zero (mt parent_eq_self_iff.mpr ‹_›))

/-- The child of `i` that `down(h, i, n)` compares with `i`: the right one where it is below
`n` and less than the left one. -/
def child (a : Array α) (i n : ℕ) : ℕ :=
  if 2 * i + 2 < n ∧ I.less a (2 * i + 2) (2 * i + 1) then 2 * i + 2 else 2 * i + 1

theorem child_bounds (a : Array α) (i n : ℕ) :
    2 * i + 1 ≤ I.child a i n ∧ I.child a i n ≤ 2 * i + 2 := by
  unfold child
  split_ifs <;> omega

theorem child_lt {a : Array α} {i n : ℕ} (h : 2 * i + 1 < n) : I.child a i n < n := by
  unfold child
  split_ifs with hc
  · exact hc.1
  · exact h

/-- The loop of `down(h, i, n)`, with the position it stops at. -/
def downLoop (a : Array α) (i n : ℕ) : Array α × ℕ :=
  if n ≤ 2 * i + 1 then (a, i)
  else if I.less a (I.child a i n) i then downLoop (I.swap a i (I.child a i n)) (I.child a i n) n
  else (a, i)
termination_by n - i
decreasing_by have := I.child_bounds a i n; omega

/-- `down(h, i0, n)`: the sifted slice, and whether the element moved. -/
def down (a : Array α) (i0 n : ℕ) : Array α × Bool :=
  ((I.downLoop a i0 n).1, decide (i0 < (I.downLoop a i0 n).2))

/-- `heap.Push` after the interface's `Push`: `up` from the last position. -/
def upLast (a : Array α) : Array α := I.up a (a.size - 1)

/-- The sifting of `heap.Pop`: the root swapped with the last element, and `down` on the
others. -/
def popSift (a : Array α) : Array α := (I.down (I.swap a 0 (a.size - 1)) 0 (a.size - 1)).1

/-- The sifting of `heap.Remove(h, i)`: unless `i` is the last position, the element there
swapped with the last, `down` on the others, and `up` where `down` did not move it. -/
def removeSift (a : Array α) (i : ℕ) : Array α :=
  if a.size - 1 = i then a
  else
    let r := I.down (I.swap a i (a.size - 1)) i (a.size - 1)
    if r.2 then r.1 else I.up r.1 i

end Interface

/-- The interface's `Pop`: the last element, and the slice without it. -/
def takeLast {α : Type*} (b : Array α) : Option (α × Array α) := b.back?.map fun x => (x, b.pop)

theorem pop_push_of_back? {α : Type*} {b : Array α} {x : α} (h : b.back? = some x) :
    b.pop.push x = b := by
  rw [Array.back?_eq_getElem?] at h
  have hb : b.size - 1 < b.size := by
    by_contra hn
    rw [Array.getElem?_eq_none (Nat.le_of_not_lt hn)] at h
    cases h
  apply Array.ext_getElem?
  intro k
  rw [Array.getElem?_push, Array.size_pop, Array.getElem?_pop]
  split_ifs with hk hk'
  · rw [hk, h]
  · rfl
  · rw [Array.getElem?_eq_none (by omega)]

/-- What the interface's `Pop` returns: the last element, and the slice it ends. -/
theorem takeLast_eq_some {α : Type*} {b c : Array α} {x : α} (h : takeLast b = some (x, c)) :
    b[b.size - 1]? = some x ∧ c = b.pop ∧ b.toList = c.toList ++ [x] := by
  simp only [takeLast, Option.map_eq_some_iff, Prod.mk.injEq] at h
  obtain ⟨y, hy, rfl, rfl⟩ := h
  refine ⟨Array.back?_eq_getElem? ▸ hy, rfl, ?_⟩
  rw [← Array.toList_push, pop_push_of_back? hy]

theorem takeLast_isSome {α : Type*} {b : Array α} : (takeLast b).isSome ↔ 0 < b.size := by
  simp only [takeLast, Option.isSome_map, Array.back?_eq_getElem?, isSome_getElem?]
  omega

/-- What a sift followed by the interface's `Pop` keeps, read through a projection. -/
theorem takeLast_perm {α γ : Type*} (f : α → γ) {a b c : Array α} {x : α}
    (hb : (b.toList.map f).Perm (a.toList.map f)) (h : takeLast b = some (x, c)) :
    (a.toList.map f).Perm (c.toList.map f ++ [f x]) := by
  obtain ⟨-, -, hl⟩ := takeLast_eq_some h
  rw [hl, List.map_append, List.map_singleton] at hb
  exact hb.symm

theorem Stamped.pop {α : Type*} {idx : α → ℕ} {b : Array α} (h : Stamped idx b) :
    Stamped idx b.pop := by
  intro k x hx
  rw [Array.getElem?_pop] at hx
  split_ifs at hx
  exact h k x hx

theorem Stamped.push {α : Type*} {idx : α → ℕ} {a : Array α} (h : Stamped idx a) {x : α}
    (hx : idx x = a.size) : Stamped idx (a.push x) := by
  intro k y hy
  rw [Array.getElem?_push] at hy
  split_ifs at hy with hk
  · cases hy
    rw [hx, hk]
  · exact h k y hy

namespace Interface

variable {α β : Type*} [LinearOrder β] (I : Interface α β)

/-- `heap.Pop`. -/
def pop (a : Array α) : Option (α × Array α) := takeLast (I.popSift a)

/-- `heap.Remove(h, i)`. -/
def remove (a : Array α) (i : ℕ) : Option (α × Array α) := takeLast (I.removeSift a i)

/-! ## Positions -/

@[simp] theorem size_swap (a : Array α) (i j : ℕ) : (I.swap a i j).size = a.size := by
  unfold swap
  split_ifs <;> simp

theorem getElem?_swap_of_ne {a : Array α} {i j k : ℕ} (hki : k ≠ i) (hkj : k ≠ j) :
    (I.swap a i j)[k]? = a[k]? := by
  unfold swap
  split_ifs
  · simp [Array.getElem?_modify, Array.getElem?_swap, Ne.symm hki, Ne.symm hkj]
  · rfl

section Project

variable {γ : Type*} (f : α → γ) (hf : ∀ i x, f (I.stamp i x) = f x)
include hf

/-- Read through a projection that stamps do not change, a swap in range exchanges the two
positions. -/
theorem map_getElem?_swap {a : Array α} {i j : ℕ} (hi : i < a.size) (hj : j < a.size) (k : ℕ) :
    (I.swap a i j)[k]?.map f = a[Equiv.swap i j k]?.map f := by
  have hs : I.swap a i j = ((a.swap i j hi hj).modify i (I.stamp i)).modify j (I.stamp j) :=
    dif_pos ⟨hi, hj⟩
  rw [hs]
  simp only [Array.getElem?_modify, Array.getElem?_swap, Equiv.swap_apply_def]
  by_cases hkj : k = j
  · subst hkj
    by_cases hki : k = i
    · subst hki
      simp [hf, hi]
    · simp [hki, Ne.symm hki, hf, hi]
  · by_cases hki : k = i
    · subst hki
      simp [Ne.symm hkj, hf, hj]
    · simp [hki, hkj, Ne.symm hki, Ne.symm hkj]

theorem map_swap_perm (a : Array α) (i j : ℕ) :
    ((I.swap a i j).toList.map f).Perm (a.toList.map f) := by
  by_cases hij : i < a.size ∧ j < a.size
  · obtain ⟨hi, hj⟩ := hij
    have hmap : (I.swap a i j).map f = (a.map f).swap i j (by simpa) (by simpa) := by
      apply Array.ext_getElem?
      intro k
      rw [Array.getElem?_map, I.map_getElem?_swap f hf hi hj, Array.getElem?_swap,
        Equiv.swap_apply_def]
      by_cases hki : k = i
      · subst hki
        by_cases hkj : k = j
        · subst hkj
          simp [hi]
        · simp [Ne.symm hkj, hj]
      · by_cases hkj : k = j
        · subst hkj
          simp [hki, hi]
        · simp [hki, hkj, Ne.symm hki, Ne.symm hkj]
    rw [← Array.toList_map, ← Array.toList_map, hmap]
    exact (Array.swap_perm _ _).toList
  · simp only [swap, dif_neg hij, List.Perm.refl]

theorem up_perm (a : Array α) (j : ℕ) :
    ((I.up a j).toList.map f).Perm (a.toList.map f) := by
  induction a, j using up.induct (I := I) with
  | case1 a j h => rw [up, dif_pos h]
  | case2 a j h hl ih =>
    rw [up, dif_neg h, if_pos hl]
    exact ih.trans (I.map_swap_perm f hf a _ _)
  | case3 a j h hl =>
    rw [up, dif_neg h, if_neg hl]

theorem downLoop_perm (a : Array α) (i n : ℕ) :
    ((I.downLoop a i n).1.toList.map f).Perm (a.toList.map f) := by
  induction a, i using downLoop.induct (I := I) (n := n) with
  | case1 a i h => rw [downLoop, if_pos h]
  | case2 a i h hl ih =>
    rw [downLoop, if_neg h, if_pos hl]
    exact ih.trans (I.map_swap_perm f hf a _ _)
  | case3 a i h hl =>
    rw [downLoop, if_neg h, if_neg hl]

end Project

/-! ## Sizes, and the positions a sift leaves alone -/

@[simp] theorem size_up (a : Array α) (j : ℕ) : (I.up a j).size = a.size := by
  induction a, j using up.induct (I := I) with
  | case1 a j h => rw [up, dif_pos h]
  | case2 a j h hl ih => rw [up, dif_neg h, if_pos hl, ih, size_swap]
  | case3 a j h hl => rw [up, dif_neg h, if_neg hl]

@[simp] theorem size_downLoop (a : Array α) (i n : ℕ) : (I.downLoop a i n).1.size = a.size := by
  induction a, i using downLoop.induct (I := I) (n := n) with
  | case1 a i h => rw [downLoop, if_pos h]
  | case2 a i h hl ih => rw [downLoop, if_neg h, if_pos hl, ih, size_swap]
  | case3 a i h hl => rw [downLoop, if_neg h, if_neg hl]

/-- `up` from `j` swaps only positions up to `j`. -/
theorem getElem?_up_of_lt {a : Array α} {j k : ℕ} (hk : j < k) : (I.up a j)[k]? = a[k]? := by
  induction a, j using up.induct (I := I) with
  | case1 a j h => rw [up, dif_pos h]
  | case2 a j h hl ih =>
    have hp : parent j < j := parent_lt (Nat.pos_of_ne_zero (mt parent_eq_self_iff.mpr h))
    rw [up, dif_neg h, if_pos hl, ih (by omega), I.getElem?_swap_of_ne (by omega) (by omega)]
  | case3 a j h hl => rw [up, dif_neg h, if_neg hl]

/-- `down` below `n` swaps only positions below `n`. -/
theorem getElem?_downLoop_of_le {a : Array α} {i n k : ℕ} (hk : n ≤ k) :
    (I.downLoop a i n).1[k]? = a[k]? := by
  induction a, i using downLoop.induct (I := I) (n := n) with
  | case1 a i h => rw [downLoop, if_pos h]
  | case2 a i h hl ih =>
    have hc := I.child_bounds a i n
    have hcn := I.child_lt (a := a) (Nat.lt_of_not_le h)
    rw [downLoop, if_neg h, if_pos hl, ih, I.getElem?_swap_of_ne (by omega) (by omega)]
  | case3 a i h hl => rw [downLoop, if_neg h, if_neg hl]

theorem le_downLoop_snd (a : Array α) (i n : ℕ) : i ≤ (I.downLoop a i n).2 := by
  induction a, i using downLoop.induct (I := I) (n := n) with
  | case1 a i h =>
    rewrite [downLoop, if_pos h]
    exact Nat.le_refl i
  | case2 a i h hl ih =>
    have hc := I.child_bounds a i n
    rw [downLoop, if_neg h, if_pos hl]
    omega
  | case3 a i h hl =>
    rewrite [downLoop, if_neg h, if_neg hl]
    exact Nat.le_refl i

/-- One turn of `down`'s loop: it stops where `i` has no child below `n` or its child is not
less, and swaps and goes on otherwise. -/
theorem downLoop_cases (a : Array α) (i n : ℕ) :
    (I.downLoop a i n = (a, i) ∧ (n ≤ 2 * i + 1 ∨ I.less a (I.child a i n) i = false)) ∨
      (2 * i + 1 < n ∧ I.less a (I.child a i n) i = true ∧
        I.downLoop a i n = I.downLoop (I.swap a i (I.child a i n)) (I.child a i n) n) := by
  by_cases h : n ≤ 2 * i + 1
  · exact .inl ⟨by rw [downLoop, if_pos h], .inl h⟩
  · cases hl : I.less a (I.child a i n) i
    · exact .inl ⟨by rw [downLoop, if_neg h, hl]; rfl, .inr rfl⟩
    · exact .inr ⟨by omega, rfl, by rw [downLoop, if_neg h, if_pos hl]⟩

/-! ## Keys -/

theorem lt_size_of_keyAt {a : Array α} {k : ℕ} {x : β} (h : I.keyAt a k = some x) :
    k < a.size := by
  by_contra hk
  simp [keyAt, Array.getElem?_eq_none (Nat.le_of_not_lt hk)] at h

theorem keyAt_isSome {a : Array α} {k : ℕ} (h : k < a.size) : (I.keyAt a k).isSome := by
  simp [keyAt, h]

theorem keyAt_swap {a : Array α} {i j : ℕ} (hi : i < a.size) (hj : j < a.size) (k : ℕ) :
    I.keyAt (I.swap a i j) k = I.keyAt a (Equiv.swap i j k) :=
  I.map_getElem?_swap I.key I.key_stamp hi hj k

theorem keyAt_swap_of_ne {a : Array α} {i j k : ℕ} (hki : k ≠ i) (hkj : k ≠ j) :
    I.keyAt (I.swap a i j) k = I.keyAt a k := by
  rw [keyAt, I.getElem?_swap_of_ne hki hkj, keyAt]

theorem less_eq_true {a : Array α} {i j : ℕ} :
    I.less a i j = true ↔ ∃ x y, I.keyAt a i = some x ∧ I.keyAt a j = some y ∧ x < y := by
  unfold less
  cases I.keyAt a i <;> cases I.keyAt a j <;> simp

theorem le_of_less_eq_false {a : Array α} {i j : ℕ} {x y : β} (h : I.less a i j = false)
    (hx : I.keyAt a i = some x) (hy : I.keyAt a j = some y) : y ≤ x := by
  simpa [less, hx, hy] using h

/-! ## The heap order -/

/-- The edges below `n` are in order: no position `0 < k < n` holds a key less than its
parent's. -/
def OrderedBelow (a : Array α) (n : ℕ) : Prop :=
  ∀ k x y, 0 < k → k < n → I.keyAt a k = some x → I.keyAt a (parent k) = some y → y ≤ x

/-- The heap order. -/
def Ordered (a : Array α) : Prop := I.OrderedBelow a a.size

/-- What `up` needs at `j`: every edge below `n` but the one into `j` is in order, and `j`'s
parent is at or before `j`'s children. -/
structure UpReady (a : Array α) (j n : ℕ) : Prop where
  except : ∀ k x y, 0 < k → k < n → k ≠ j → I.keyAt a k = some x →
    I.keyAt a (parent k) = some y → y ≤ x
  grand : 0 < j → ∀ c x y, 0 < c → c < n → parent c = j → I.keyAt a c = some x →
    I.keyAt a (parent j) = some y → y ≤ x

/-- What `down` needs at `i`: every edge below `n` but those out of `i` is in order, and `i`'s
parent is at or before `i`'s children. -/
structure DownReady (a : Array α) (i n : ℕ) : Prop where
  except : ∀ k x y, 0 < k → k < n → parent k ≠ i → I.keyAt a k = some x →
    I.keyAt a (parent k) = some y → y ≤ x
  grand : 0 < i → ∀ c x y, 0 < c → c < n → parent c = i → I.keyAt a c = some x →
    I.keyAt a (parent i) = some y → y ≤ x

/-- What `Remove` leaves at `i`: every edge below `n` that does not touch `i` is in order, and
`i`'s parent is at or before `i`'s children. -/
structure FixReady (a : Array α) (i n : ℕ) : Prop where
  except : ∀ k x y, 0 < k → k < n → k ≠ i → parent k ≠ i → I.keyAt a k = some x →
    I.keyAt a (parent k) = some y → y ≤ x
  grand : 0 < i → ∀ c x y, 0 < c → c < n → parent c = i → I.keyAt a c = some x →
    I.keyAt a (parent i) = some y → y ≤ x

/-- Taking the last element off keeps the order of the others. -/
theorem ordered_pop_of_orderedBelow {a : Array α} (h : I.OrderedBelow a (a.size - 1)) :
    I.Ordered a.pop := by
  intro k x y hk0 hkn hx hy
  simp only [Array.size_pop] at hkn
  have hp : parent k < a.size - 1 := Nat.lt_trans (parent_lt hk0) hkn
  simp only [keyAt, Array.getElem?_pop, if_pos hkn, if_pos hp] at hx hy
  exact h k x y hk0 hkn hx hy

theorem parent_child (a : Array α) (i n : ℕ) : parent (I.child a i n) = i := by
  have := I.child_bounds a i n
  unfold parent
  omega

theorem eq_of_parent_eq {c i : ℕ} (hc : 0 < c) (h : parent c = i) :
    c = 2 * i + 1 ∨ c = 2 * i + 2 := by
  unfold parent at h
  omega

/-- The child `down` picks has the least key of `i`'s children below `n`. -/
theorem child_le {a : Array α} {i n c : ℕ} {x y : β} (hc0 : 0 < c) (hcn : c < n)
    (hci : parent c = i) (hx : I.keyAt a c = some x) (hy : I.keyAt a (I.child a i n) = some y) :
    y ≤ x := by
  unfold child at hy
  split_ifs at hy with hr
  · -- the right child, less than the left one
    obtain ⟨z, w, hz, hw, hzw⟩ := I.less_eq_true.mp hr.2
    rw [hz] at hy
    cases hy
    rcases eq_of_parent_eq hc0 hci with rfl | rfl
    · rw [hw] at hx
      cases hx
      exact hzw.le
    · rw [hz] at hx
      cases hx
      exact le_rfl
  · rcases eq_of_parent_eq hc0 hci with rfl | rfl
    · rw [hy] at hx
      cases hx
      exact le_rfl
    · -- the right child is below `n` but not less than the left one
      have hl : I.less a (2 * i + 2) (2 * i + 1) = false := by simpa [hcn] using hr
      exact I.le_of_less_eq_false hl hx hy

/-- The child `down` picks is in range wherever `i` has a child in range. -/
theorem child_lt_size {a : Array α} {i n k : ℕ} (hk0 : 0 < k) (hpk : parent k = i)
    (hka : k < a.size) : I.child a i n < a.size := by
  have hk := eq_of_parent_eq hk0 hpk
  unfold child
  split_ifs with hr
  · obtain ⟨z, w, hz, -, -⟩ := I.less_eq_true.mp hr.2
    exact I.lt_size_of_keyAt hz
  · omega

/-- Where `down` stops at `i`, `i` is at or before its children below `n`. -/
theorem le_children_of_stop {a : Array α} {i n : ℕ}
    (hs : n ≤ 2 * i + 1 ∨ I.less a (I.child a i n) i = false) {k : ℕ} {x y : β} (hk0 : 0 < k)
    (hkn : k < n) (hpk : parent k = i) (hx : I.keyAt a k = some x) (hy : I.keyAt a i = some y) :
    y ≤ x := by
  have hk := eq_of_parent_eq hk0 hpk
  rcases hs with hs | hs
  · omega
  · obtain ⟨z, hz⟩ := Option.isSome_iff_exists.mp
      (I.keyAt_isSome (I.child_lt_size hk0 hpk (I.lt_size_of_keyAt hx) (n := n)))
    exact (I.le_of_less_eq_false hs hz hy).trans (I.child_le hk0 hkn hpk hx hz)

@[simp] theorem size_popSift (a : Array α) : (I.popSift a).size = a.size := by
  simp [popSift, down]

@[simp] theorem size_removeSift (a : Array α) (i : ℕ) : (I.removeSift a i).size = a.size := by
  unfold removeSift down
  split_ifs
  · rfl
  · dsimp only
    split <;> simp only [size_downLoop, size_up, size_swap]

variable {I}

/-- **The root has the least key**, by induction on the position through its parents. -/
theorem Ordered.root_le {a : Array α} (ha : I.Ordered a) {x : β} (h0 : I.keyAt a 0 = some x) :
    ∀ k y, I.keyAt a k = some y → x ≤ y := by
  intro k
  induction k using Nat.strongRecOn with
  | ind k ih =>
    intro y hy
    rcases Nat.eq_zero_or_pos k with rfl | hk
    · rw [h0] at hy
      exact (Option.some.inj hy).le
    · have hka := I.lt_size_of_keyAt hy
      obtain ⟨z, hz⟩ := Option.isSome_iff_exists.mp
        (I.keyAt_isSome (Nat.lt_trans (parent_lt hk) hka))
      exact (ih _ (parent_lt hk) z hz).trans (ha k y z hk hka hy hz)

theorem Ordered.up_eq {a : Array α} (ha : I.Ordered a) (j : ℕ) : I.up a j = a := by
  rw [up]
  split_ifs with h hl
  · rfl
  · exfalso
    obtain ⟨x, y, hx, hy, hxy⟩ := I.less_eq_true.mp hl
    exact absurd (ha j x y (Nat.pos_of_ne_zero (mt parent_eq_self_iff.mpr h))
      (I.lt_size_of_keyAt hx) hx hy) (not_le.mpr hxy)
  · rfl

theorem OrderedBelow.mono {a : Array α} {n m : ℕ} (h : I.OrderedBelow a n) (hm : m ≤ n) :
    I.OrderedBelow a m :=
  fun k x y hk0 hkm => h k x y hk0 (Nat.lt_of_lt_of_le hkm hm)

/-! ## `up` -/

/-- One swap of `up` takes what it needs to the parent. -/
theorem UpReady.swap {a : Array α} {j n : ℕ} (h : I.UpReady a j n) (hj : 0 < j) (hjn : j < n)
    (hl : I.less a j (parent j) = true) : I.UpReady (I.swap a (parent j) j) (parent j) n := by
  obtain ⟨x, y, hx, hy, hxy⟩ := I.less_eq_true.mp hl
  have hpj := parent_lt hj
  have hk := I.keyAt_swap (I.lt_size_of_keyAt hy) (I.lt_size_of_keyAt hx)
  constructor
  · intro k x' y' hk0 hkn hkp hx' hy'
    rw [hk] at hx' hy'
    by_cases hkj : k = j
    · -- the element moved down, below the one moved up
      rw [hkj, Equiv.swap_apply_right, hy] at hx'
      rw [hkj, Equiv.swap_apply_left, hx] at hy'
      cases hx'
      cases hy'
      exact hxy.le
    rw [Equiv.swap_apply_of_ne_of_ne hkp hkj] at hx'
    by_cases hpk : parent k = j
    · -- a child of `j`, now below the old parent
      rw [hpk, Equiv.swap_apply_right] at hy'
      exact h.grand hj k x' y' hk0 hkn hpk hx' hy'
    by_cases hpp : parent k = parent j
    · -- a sibling of `j`, now below the element moved up
      rw [hpp, Equiv.swap_apply_left, hx] at hy'
      cases hy'
      exact hxy.le.trans (h.except k x' y hk0 hkn hkj hx' (by rw [hpp]; exact hy))
    · rw [Equiv.swap_apply_of_ne_of_ne hpp hpk] at hy'
      exact h.except k x' y' hk0 hkn hkj hx' hy'
  · intro hp0 c x' y' hc0 hcn hcp hx' hy'
    have hpp := parent_lt hp0
    have hcp' := parent_lt hc0
    rw [hk, Equiv.swap_apply_of_ne_of_ne (by omega) (by omega)] at hy'
    -- the old parent's own parent is at or before it
    have hyy : y' ≤ y := h.except (parent j) y y' hp0 (by omega) (by omega) hy hy'
    rw [hk] at hx'
    by_cases hcj : c = j
    · rw [hcj, Equiv.swap_apply_right, hy] at hx'
      cases hx'
      exact hyy
    · rw [Equiv.swap_apply_of_ne_of_ne (by omega) hcj] at hx'
      exact hyy.trans (h.except c x' y hc0 hcn hcj hx' (by rw [hcp]; exact hy))

/-- Where `up` stops, every edge below `n` is in order. -/
theorem UpReady.ordered {a : Array α} {j n : ℕ} (h : I.UpReady a j n)
    (hs : parent j = j ∨ I.less a j (parent j) = false) : I.OrderedBelow a n := by
  intro k x y hk0 hkn hx hy
  by_cases hkj : k = j
  · rw [hkj] at hx hy hk0
    rcases hs with hs | hs
    · exact absurd (parent_eq_self_iff.mp hs) (Nat.pos_iff_ne_zero.mp hk0)
    · exact I.le_of_less_eq_false hs hx hy
  · exact h.except k x y hk0 hkn hkj hx hy

/-- **`up`** ends with every edge below `n` in order. -/
theorem UpReady.orderedBelow_up {a : Array α} {j n : ℕ} (h : I.UpReady a j n) (hjn : j < n) :
    I.OrderedBelow (I.up a j) n := by
  induction a, j using up.induct (I := I) with
  | case1 a j hp =>
    rw [Interface.up, dif_pos hp]
    exact h.ordered (.inl hp)
  | case2 a j hp hl ih =>
    have hj := Nat.pos_of_ne_zero (mt parent_eq_self_iff.mpr hp)
    rw [Interface.up, dif_neg hp, if_pos hl]
    exact ih (h.swap hj hjn hl) (Nat.lt_trans (parent_lt hj) hjn)
  | case3 a j hp hl =>
    rw [Interface.up, dif_neg hp, if_neg hl]
    exact h.ordered (.inr (Bool.eq_false_iff.mpr hl))

/-- An element appended to a heap is ready for `up`. -/
theorem Ordered.upReady_push {a : Array α} (ha : I.Ordered a) (x : α) :
    I.UpReady (a.push x) a.size (a.size + 1) where
  except k x' y hk0 hkn hka hx hy := by
    have hk : k < a.size := by omega
    have hp : parent k < a.size := Nat.lt_trans (parent_lt hk0) hk
    rw [keyAt, Array.getElem?_push, if_neg (Nat.ne_of_lt hk)] at hx
    rw [keyAt, Array.getElem?_push, if_neg (Nat.ne_of_lt hp)] at hy
    exact ha k x' y hk0 hk hx hy
  grand _ c _ _ hc0 hcn hcp _ _ := absurd (parent_lt hc0) (by omega)

/-- **`Push`** keeps the heap order. -/
theorem Ordered.upLast {a : Array α} (ha : I.Ordered a) (x : α) : I.Ordered (I.upLast (a.push x)) := by
  have h := (ha.upReady_push x).orderedBelow_up (Nat.lt_succ_self a.size)
  rw [Interface.upLast, Array.size_push, Nat.add_sub_cancel]
  rwa [Ordered, size_up, Array.size_push]

/-! ## `down` -/

theorem DownReady.fixReady {a : Array α} {i n : ℕ} (h : I.DownReady a i n) : I.FixReady a i n :=
  ⟨fun k x y hk0 hkn _ hpk => h.except k x y hk0 hkn hpk, h.grand⟩

/-- At the root there is no edge into `i`, so the two agree. -/
theorem FixReady.downReady_zero {a : Array α} {n : ℕ} (h : I.FixReady a 0 n) :
    I.DownReady a 0 n :=
  ⟨fun k x y hk0 hkn hpk => h.except k x y hk0 hkn (Nat.pos_iff_ne_zero.mp hk0) hpk, h.grand⟩

/-- One swap of `down` takes what it needs to the child. -/
theorem FixReady.swap {a : Array α} {i n : ℕ} (h : I.FixReady a i n) (hin : 2 * i + 1 < n)
    (hl : I.less a (I.child a i n) i = true) :
    I.DownReady (I.swap a i (I.child a i n)) (I.child a i n) n := by
  obtain ⟨x, y, hx, hy, hxy⟩ := I.less_eq_true.mp hl
  have hmin : ∀ k x', 0 < k → k < n → parent k = i → I.keyAt a k = some x' → x ≤ x' :=
    fun k x' hk0 hkn hpk hx' => I.child_le hk0 hkn hpk hx' hx
  have hc := I.child_bounds a i n
  have hcn := I.child_lt (a := a) hin
  have hpc := I.parent_child a i n
  have hk := I.keyAt_swap (I.lt_size_of_keyAt hy) (I.lt_size_of_keyAt hx)
  generalize I.child a i n = c at *
  constructor
  · intro k x' y' hk0 hkn hkc hx' hy'
    rw [hk] at hx' hy'
    by_cases hkc' : k = c
    · -- the element moved down, below the child moved up
      rw [hkc', Equiv.swap_apply_right, hy] at hx'
      rw [hkc', hpc, Equiv.swap_apply_left, hx] at hy'
      cases hx'
      cases hy'
      exact hxy.le
    by_cases hki : k = i
    · -- `i`, now holding the child, below its parent
      have hpi := parent_lt hk0
      rw [hki, Equiv.swap_apply_left, hx] at hx'
      rw [Equiv.swap_apply_of_ne_of_ne (by omega) (by omega), hki] at hy'
      cases hx'
      exact h.grand (hki ▸ hk0) c x y' (by omega) hcn hpc hx hy'
    rw [Equiv.swap_apply_of_ne_of_ne hki hkc'] at hx'
    by_cases hpk : parent k = i
    · -- a sibling of the child, now below it
      rw [hpk, Equiv.swap_apply_left, hx] at hy'
      cases hy'
      exact hmin k x' hk0 hkn hpk hx'
    · rw [Equiv.swap_apply_of_ne_of_ne hpk hkc] at hy'
      exact h.except k x' y' hk0 hkn hki hpk hx' hy'
  · intro _ d x' y' hd0 hdn hdc hx' hy'
    have hcd := parent_lt hd0
    rw [hk, Equiv.swap_apply_of_ne_of_ne (by omega) (by omega)] at hx'
    rw [hk, hpc, Equiv.swap_apply_left, hx] at hy'
    cases hy'
    exact h.except d x' x hd0 hdn (by omega) (by omega) hx' (by rw [hdc]; exact hx)

theorem DownReady.swap {a : Array α} {i n : ℕ} (h : I.DownReady a i n) (hin : 2 * i + 1 < n)
    (hl : I.less a (I.child a i n) i = true) :
    I.DownReady (I.swap a i (I.child a i n)) (I.child a i n) n :=
  h.fixReady.swap hin hl

/-- Where `down` stops, every edge below `n` is in order. -/
theorem DownReady.ordered {a : Array α} {i n : ℕ} (h : I.DownReady a i n)
    (hs : n ≤ 2 * i + 1 ∨ I.less a (I.child a i n) i = false) : I.OrderedBelow a n := by
  intro k x y hk0 hkn hx hy
  by_cases hpk : parent k = i
  · rw [hpk] at hy
    exact I.le_children_of_stop hs hk0 hkn hpk hx hy
  · exact h.except k x y hk0 hkn hpk hx hy

/-- Where `down` does not move from `i`, `up` may start there. -/
theorem FixReady.upReady {a : Array α} {i n : ℕ} (h : I.FixReady a i n)
    (hs : n ≤ 2 * i + 1 ∨ I.less a (I.child a i n) i = false) : I.UpReady a i n := by
  refine ⟨fun k x y hk0 hkn hki hx hy => ?_, h.grand⟩
  by_cases hpk : parent k = i
  · rw [hpk] at hy
    exact I.le_children_of_stop hs hk0 hkn hpk hx hy
  · exact h.except k x y hk0 hkn hki hpk hx hy

/-- **`down`** ends with every edge below `n` in order. -/
theorem DownReady.orderedBelow_downLoop {a : Array α} {i n : ℕ} (h : I.DownReady a i n) :
    I.OrderedBelow (I.downLoop a i n).1 n := by
  induction a, i using downLoop.induct (I := I) (n := n) with
  | case1 a i hs =>
    rw [downLoop, if_pos hs]
    exact h.ordered (.inl hs)
  | case2 a i hs hl ih =>
    rw [downLoop, if_neg hs, if_pos hl]
    exact ih (h.swap (by omega) hl)
  | case3 a i hs hl =>
    rw [downLoop, if_neg hs, if_neg hl]
    exact h.ordered (.inr (Bool.eq_false_iff.mpr hl))

/-! ## `Pop` and `Remove` -/

/-- The last element moved to `i` leaves `Remove` ready to sift there. -/
theorem Ordered.fixReady_swap {a : Array α} (ha : I.Ordered a) {i : ℕ} (hi : i < a.size - 1) :
    I.FixReady (I.swap a i (a.size - 1)) i (a.size - 1) where
  except k x y hk0 hkn hki hpk hx hy := by
    have hp := parent_lt hk0
    rw [I.keyAt_swap_of_ne hki (by omega)] at hx
    rw [I.keyAt_swap_of_ne hpk (by omega)] at hy
    exact ha k x y hk0 (by omega) hx hy
  grand hi0 c x y hc0 hcn hci hx hy := by
    have hc := parent_lt hc0
    have hp := parent_lt hi0
    rw [I.keyAt_swap_of_ne (by omega) (by omega)] at hx hy
    -- through the element that was at `i`
    obtain ⟨z, hz⟩ := Option.isSome_iff_exists.mp (I.keyAt_isSome (show i < a.size by omega))
    exact (ha i z y hi0 (by omega) hz hy).trans (ha c x z hc0 (by omega) hx (by rw [hci]; exact hz))

theorem Ordered.downReady_swap_root {a : Array α} (ha : I.Ordered a) :
    I.DownReady (I.swap a 0 (a.size - 1)) 0 (a.size - 1) := by
  rcases Nat.eq_zero_or_pos (a.size - 1) with hn | hn
  · rw [hn]
    exact ⟨fun k _ _ _ hk => absurd hk (Nat.not_lt_zero k), fun h0 => absurd h0 (Nat.lt_irrefl 0)⟩
  · exact (ha.fixReady_swap hn).downReady_zero

theorem Ordered.popSift {a : Array α} (ha : I.Ordered a) :
    I.OrderedBelow (I.popSift a) ((I.popSift a).size - 1) := by
  rw [size_popSift]
  exact ha.downReady_swap_root.orderedBelow_downLoop

/-- The two ways `Remove` sifts: `down` moves, and the order holds after its first swap; or it
does not, and `up` may start. -/
theorem Ordered.removeSift {a : Array α} (ha : I.Ordered a) {i : ℕ} (hi : i < a.size) :
    I.OrderedBelow (I.removeSift a i) ((I.removeSift a i).size - 1) := by
  rw [size_removeSift]
  unfold Interface.removeSift down
  by_cases hn : a.size - 1 = i
  · rw [if_pos hn]
    exact OrderedBelow.mono ha (Nat.sub_le _ _)
  rw [if_neg hn]
  have hf := ha.fixReady_swap (show i < a.size - 1 by omega)
  rcases I.downLoop_cases (I.swap a i (a.size - 1)) i (a.size - 1) with ⟨he, hs⟩ | ⟨hin, hl, he⟩
  · simp only [he, Nat.lt_irrefl, decide_false, Bool.false_eq_true, if_false]
    exact (hf.upReady hs).orderedBelow_up (by omega)
  · have hmoved := I.le_downLoop_snd (I.swap (I.swap a i (a.size - 1)) i
      (I.child (I.swap a i (a.size - 1)) i (a.size - 1))) (I.child (I.swap a i (a.size - 1)) i
      (a.size - 1)) (a.size - 1)
    have hc := I.child_bounds (I.swap a i (a.size - 1)) i (a.size - 1)
    rw [he, if_pos (decide_eq_true (by omega))]
    exact (hf.swap hin hl).orderedBelow_downLoop

theorem Ordered.pop {a : Array α} (ha : I.Ordered a) {x : α} {b : Array α}
    (h : I.pop a = some (x, b)) : I.Ordered b := by
  obtain ⟨-, rfl, -⟩ := takeLast_eq_some h
  exact I.ordered_pop_of_orderedBelow ha.popSift

theorem Ordered.remove {a : Array α} (ha : I.Ordered a) {i : ℕ} (hi : i < a.size) {x : α}
    {b : Array α} (h : I.remove a i = some (x, b)) : I.Ordered b := by
  obtain ⟨-, rfl, -⟩ := takeLast_eq_some h
  exact I.ordered_pop_of_orderedBelow (ha.removeSift hi)

/-! ## What `Pop` and `Remove` return -/

variable (I)

theorem pop_isSome (a : Array α) : (I.pop a).isSome ↔ 0 < a.size := by
  rw [pop, takeLast_isSome, size_popSift]

theorem remove_isSome (a : Array α) (i : ℕ) : (I.remove a i).isSome ↔ 0 < a.size := by
  rw [remove, takeLast_isSome, size_removeSift]

section Project

variable {γ : Type*} (f : α → γ) (hf : ∀ i x, f (I.stamp i x) = f x)
include hf

theorem popSift_perm (a : Array α) : ((I.popSift a).toList.map f).Perm (a.toList.map f) :=
  (I.downLoop_perm f hf _ _ _).trans (I.map_swap_perm f hf _ _ _)

theorem removeSift_perm (a : Array α) (i : ℕ) :
    ((I.removeSift a i).toList.map f).Perm (a.toList.map f) := by
  unfold removeSift down
  split_ifs
  · exact List.Perm.refl _
  · dsimp only
    split
    · exact (I.downLoop_perm f hf _ _ _).trans (I.map_swap_perm f hf _ _ _)
    · exact ((I.up_perm f hf _ _).trans (I.downLoop_perm f hf _ _ _)).trans
        (I.map_swap_perm f hf _ _ _)

theorem pop_perm {a b : Array α} {x : α} (h : I.pop a = some (x, b)) :
    (a.toList.map f).Perm (b.toList.map f ++ [f x]) :=
  takeLast_perm f (I.popSift_perm f hf a) h

theorem remove_perm {a b : Array α} {i : ℕ} {x : α} (h : I.remove a i = some (x, b)) :
    (a.toList.map f).Perm (b.toList.map f ++ [f x]) :=
  takeLast_perm f (I.removeSift_perm f hf a i) h

/-- `Pop` returns the root. -/
theorem pop_root {a b : Array α} {x : α} (h : I.pop a = some (x, b)) :
    a[0]?.map f = some (f x) := by
  obtain ⟨hx, -, -⟩ := takeLast_eq_some h
  rw [size_popSift] at hx
  have hn : a.size - 1 < a.size := by
    simpa using (Array.getElem?_eq_some_iff.mp hx).1
  unfold popSift down at hx
  rw [I.getElem?_downLoop_of_le (Nat.le_refl _)] at hx
  have hs := I.map_getElem?_swap f hf (Nat.lt_of_le_of_lt (Nat.zero_le _) hn) hn (a.size - 1)
  rw [hx, Equiv.swap_apply_right] at hs
  exact hs.symm

/-- `Remove(h, i)` returns the element at `i`. -/
theorem remove_at {a b : Array α} {i : ℕ} (hi : i < a.size) {x : α}
    (h : I.remove a i = some (x, b)) : a[i]?.map f = some (f x) := by
  obtain ⟨hx, -, -⟩ := takeLast_eq_some h
  rw [size_removeSift] at hx
  unfold removeSift down at hx
  by_cases hn : a.size - 1 = i
  · rw [if_pos hn, hn] at hx
    rw [hx, Option.map_some]
  rw [if_neg hn] at hx
  -- the last position is below neither sift's reach
  have hlast : (I.downLoop (I.swap a i (a.size - 1)) i (a.size - 1)).1[a.size - 1]? = some x := by
    dsimp only at hx
    split at hx
    · exact hx
    · rwa [I.getElem?_up_of_lt (by omega)] at hx
  rw [I.getElem?_downLoop_of_le (Nat.le_refl _)] at hlast
  have hs := I.map_getElem?_swap f hf hi (show a.size - 1 < a.size by omega) (a.size - 1)
  rw [hlast, Equiv.swap_apply_right] at hs
  exact hs.symm

end Project

section Stamp

variable (idx : α → ℕ) (hidx : ∀ i x, idx (I.stamp i x) = i)
include hidx

theorem stamped_swap {a : Array α} (h : Stamped idx a) (i j : ℕ) : Stamped idx (I.swap a i j) := by
  intro k x hx
  unfold swap at hx
  split_ifs at hx with hb
  · rw [Array.getElem?_modify, Array.getElem?_modify] at hx
    by_cases hjk : j = k
    · rw [if_pos hjk] at hx
      obtain ⟨y, -, rfl⟩ := Option.map_eq_some_iff.mp hx
      rw [hidx, hjk]
    rw [if_neg hjk] at hx
    by_cases hik : i = k
    · rw [if_pos hik] at hx
      obtain ⟨y, -, rfl⟩ := Option.map_eq_some_iff.mp hx
      rw [hidx, hik]
    · rw [if_neg hik, Array.getElem?_swap, if_neg hjk, if_neg hik] at hx
      exact h k x hx
  · exact h k x hx

theorem stamped_up {a : Array α} (h : Stamped idx a) (j : ℕ) : Stamped idx (I.up a j) := by
  induction a, j using up.induct (I := I) with
  | case1 a j hp => rwa [up, dif_pos hp]
  | case2 a j hp hl ih =>
    rw [up, dif_neg hp, if_pos hl]
    exact ih (I.stamped_swap idx hidx h _ _)
  | case3 a j hp hl => rwa [up, dif_neg hp, if_neg hl]

theorem stamped_downLoop {a : Array α} (h : Stamped idx a) (i n : ℕ) :
    Stamped idx (I.downLoop a i n).1 := by
  induction a, i using downLoop.induct (I := I) (n := n) with
  | case1 a i hs => rwa [downLoop, if_pos hs]
  | case2 a i hs hl ih =>
    rw [downLoop, if_neg hs, if_pos hl]
    exact ih (I.stamped_swap idx hidx h _ _)
  | case3 a i hs hl => rwa [downLoop, if_neg hs, if_neg hl]

theorem stamped_pop {a b : Array α} (h : Stamped idx a) {x : α} (hp : I.pop a = some (x, b)) :
    Stamped idx b := by
  obtain ⟨-, rfl, -⟩ := takeLast_eq_some hp
  exact (I.stamped_downLoop idx hidx (I.stamped_swap idx hidx h _ _) _ _).pop

theorem stamped_remove {a b : Array α} (h : Stamped idx a) {i : ℕ} {x : α}
    (hp : I.remove a i = some (x, b)) : Stamped idx b := by
  obtain ⟨-, rfl, -⟩ := takeLast_eq_some hp
  apply Stamped.pop
  unfold removeSift down
  split_ifs
  · exact h
  · dsimp only
    have hd := I.stamped_downLoop idx hidx (I.stamped_swap idx hidx h i (a.size - 1)) i (a.size - 1)
    split
    · exact hd
    · exact I.stamped_up idx hidx hd i

end Stamp

end Interface

end BinaryHeap

end Hypersdk.Foundations
