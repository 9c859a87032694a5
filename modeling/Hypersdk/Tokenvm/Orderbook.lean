import Hypersdk.Heap.Heap
import Mathlib

/-!
# The order book

`examples/tokenvm/orderbook/orderbook.go`. The book keeps, for each pair of assets it tracks, a
heap of the orders created on it, valued by `InTick / OutTick`, the price an order asks; the
lower the better for a taker. `Add` pushes an order and, when the pair then holds more than
`maxOrdersPerPair`, removes the entry at the last position of the heap's slice; `Orders` returns
the first `limit` entries of the slice. Every heap is a `heap.New(.., true)`, a min-heap.

The heap keeps its invariant through every call (`Inv.step`), so the first order `Orders`
returns has the best price (`Inv.first_best`). But the slice is in heap order, not sorted, and
its last position is a leaf, not the worst order: three orders priced 1, 3, 2, added in this
order, are returned as 1, 3, 2; and with room for two, the order priced 2 is the one evicted
(`orders_unsorted_and_evicts_better`).

The price is `float64(InTick) / float64(OutTick)`, read here in `ℚ`: every order the book is
given passed `CreateOrder`'s checks, so both ticks are positive, and the prices of the failing
input are whole numbers, which `float64` holds exactly. A pair is `PairID(in, out)`, the text of
the two ids, read here as the pair of ids it is made from.
-/

namespace Hypersdk.Tokenvm.Orderbook

set_option linter.unusedSectionVars false

open Heap Foundations BinaryHeap

variable {ι : Type} [DecidableEq ι]

/-- `Order`, without its owner's address and the address's text, which nothing here reads. -/
structure Order (ι : Type) where
  ID : ι
  InAsset : ι
  InTick : ℕ
  OutAsset : ι
  OutTick : ℕ
  Remaining : ℕ

/-- The fields of `CreateOrder` that `Add` reads. -/
structure CreateOrder (ι : Type) where
  In : ι
  InTick : ℕ
  Out : ι
  OutTick : ℕ
  Supply : ℕ

/-- The `Order` that `Add` makes of a `CreateOrder` under its action's id. -/
def CreateOrder.order (action : CreateOrder ι) (actionID : ι) : Order ι :=
  ⟨actionID, action.In, action.InTick, action.Out, action.OutTick, action.Supply⟩

/-- The value of an order in its heap: `float64(InTick) / float64(OutTick)`. -/
def price (inTick outTick : ℕ) : ℚ := (inTick : ℚ) / outTick

/-- The entry `Add` pushes for the order, at `index`: valued by its price. -/
def CreateOrder.entry (action : CreateOrder ι) (actionID : ι) (index : ℕ) : Entry ι (Order ι) ℚ :=
  ⟨actionID, action.order actionID, price action.InTick action.OutTick, index⟩

@[simp] theorem CreateOrder.entry_ID (action : CreateOrder ι) (actionID : ι) (index : ℕ) :
    (action.entry actionID index).ID = actionID := rfl

@[simp] theorem CreateOrder.entry_Item (action : CreateOrder ι) (actionID : ι) (index : ℕ) :
    (action.entry actionID index).Item = action.order actionID := rfl

@[simp] theorem CreateOrder.entry_Val (action : CreateOrder ι) (actionID : ι) (index : ℕ) :
    (action.entry actionID index).Val = price action.InTick action.OutTick := rfl

@[simp] theorem CreateOrder.order_ID (action : CreateOrder ι) (actionID : ι) :
    (action.order actionID).ID = actionID := rfl

/-- `PairID`. -/
def pairID (inAsset outAsset : ι) : ι × ι := (inAsset, outAsset)

/-- A tracked pair as `New` is given it: `"*"`, or a pair. -/
inductive Tracked (ι : Type)
  | allPairs
  | pair (p : ι × ι)
  deriving DecidableEq

/-- `OrderBook`, without its controller and its lock. -/
structure OrderBook (ι : Type) where
  orders : ι × ι → Option (Heap ι (Order ι) ℚ)
  orderToPair : ι → Option (ι × ι)
  maxOrdersPerPair : ℤ
  trackAll : Bool

namespace OrderBook

/-- `New`: every pair with `"*"` alone, else a heap for each pair given. -/
def new (trackedPairs : List (Tracked ι)) (maxOrdersPerPair : ℤ) : OrderBook ι :=
  match trackedPairs with
  | [.allPairs] => ⟨fun _ => none, fun _ => none, maxOrdersPerPair, true⟩
  | _ =>
    ⟨fun p => if Tracked.pair p ∈ trackedPairs then some Heap.new else none, fun _ => none,
      maxOrdersPerPair, false⟩

/-- The heap `Add` pushes into: the pair's, or a new one when every pair is tracked. -/
def heapFor (o : OrderBook ι) (pair : ι × ι) : Option (Heap ι (Order ι) ℚ) :=
  match o.orders pair with
  | some h => some h
  | none => if o.trackAll then some Heap.new else none

/-- `Add`; a pair it has no heap for is skipped. `none` is the panic of `e.ID` on the `nil`
that `Remove` returns past the slice, which a push never leaves. -/
def add (o : OrderBook ι) (actionID : ι) (action : CreateOrder ι) : Option (OrderBook ι) :=
  let pair := pairID action.In action.Out
  let order := action.order actionID
  match o.heapFor pair with
  | none => some o
  | some h =>
    let h := h.push (action.entry order.ID h.len)
    let o := { o with
      orders := Function.update o.orders pair (some h)
      orderToPair := Function.update o.orderToPair order.ID (some pair) }
    -- the worst order is taken to be the one at the last position
    if (h.len : ℤ) > o.maxOrdersPerPair then
      (h.remove (h.len - 1)).map fun r =>
        { o with
          orders := Function.update o.orders pair (some r.2)
          orderToPair := Function.update o.orderToPair r.1.ID none }
    else some o

/-- `Remove`. `Remove` past the slice returns `nil` and changes nothing. -/
def remove (o : OrderBook ι) (id : ι) : OrderBook ι :=
  match o.orderToPair id with
  | none => o
  | some pair =>
    let o := { o with orderToPair := Function.update o.orderToPair id none }
    match o.orders pair with
    | none => o
    | some h =>
      match h.get id with
      | none => o
      | some entry =>
        match h.remove entry.Index with
        | some (_, h') => { o with orders := Function.update o.orders pair (some h') }
        | none => o

/-- The write `entry.Item.Remaining = remaining`, through the pointer the entry holds. -/
def setRemaining (h : Heap ι (Order ι) ℚ) (id : ι) (remaining : ℕ) : Heap ι (Order ι) ℚ :=
  ⟨h.items.map fun e => if e.ID = id then { e with Item := { e.Item with Remaining := remaining } }
    else e, h.lookup⟩

/-- `UpdateRemaining`. -/
def updateRemaining (o : OrderBook ι) (id : ι) (remaining : ℕ) : OrderBook ι :=
  match o.orderToPair id with
  | none => o
  | some pair =>
    match o.orders pair with
    | none => o
    | some h =>
      match h.get id with
      | none => o
      | some _ =>
        { o with orders := Function.update o.orders pair (some (setRemaining h id remaining)) }

/-- `Orders`: the first `limit` entries of the heap's slice; `make` of a negative length
panics. -/
def orders' (o : OrderBook ι) (pair : ι × ι) (limit : ℤ) : Option (List (Order ι)) :=
  match o.orders pair with
  | none => some []
  | some h =>
    let arrLen : ℤ := if limit < h.len then limit else h.len
    if arrLen < 0 then none else some ((h.items.toList.take arrLen.toNat).map (·.Item))

/-! ### What each call does -/

section Spec

variable {o : OrderBook ι} {actionID : ι} {action : CreateOrder ι} {h : Heap ι (Order ι) ℚ}

@[simp] theorem maxOrdersPerPair_new (trackedPairs : List (Tracked ι)) (maxOrdersPerPair : ℤ) :
    (new trackedPairs maxOrdersPerPair).maxOrdersPerPair = maxOrdersPerPair := by
  unfold new
  split <;> rfl

theorem heapFor_of_orders {pair : ι × ι} (hh : o.orders pair = some h) :
    o.heapFor pair = some h := by
  rw [heapFor, hh]

/-- `Add` within the limit: the order is pushed and mapped to its pair. -/
theorem add_of_le (hh : o.heapFor (pairID action.In action.Out) = some h)
    (hle : ((h.push (action.entry actionID h.len)).len : ℤ) ≤ o.maxOrdersPerPair) :
    o.add actionID action = some { o with
      orders := Function.update o.orders (pairID action.In action.Out)
        (some (h.push (action.entry actionID h.len)))
      orderToPair :=
        Function.update o.orderToPair actionID (some (pairID action.In action.Out)) } := by
  unfold OrderBook.add
  dsimp only
  rw [hh]
  simp only [CreateOrder.order_ID, gt_iff_lt]
  rw [if_neg (not_lt.mpr hle)]

/-- `Add` past the limit: the order is pushed, and the entry at the last position removed. -/
theorem add_of_lt (hh : o.heapFor (pairID action.In action.Out) = some h)
    (hlt : o.maxOrdersPerPair < ((h.push (action.entry actionID h.len)).len : ℤ))
    {e : Entry ι (Order ι) ℚ} {h' : Heap ι (Order ι) ℚ}
    (hr : (h.push (action.entry actionID h.len)).remove
      ((h.push (action.entry actionID h.len)).len - 1) = some (e, h')) :
    o.add actionID action = some { o with
      orders := Function.update o.orders (pairID action.In action.Out) (some h')
      orderToPair := Function.update (Function.update o.orderToPair actionID
        (some (pairID action.In action.Out))) e.ID none } := by
  unfold OrderBook.add
  dsimp only
  rw [hh]
  simp only [CreateOrder.order_ID, gt_iff_lt]
  rw [if_pos hlt, hr, Option.map_some, Function.update_idem]

section Append

variable (actionID action) {es : Array (Entry ι (Order ι) ℚ)} {lk : Finset ι}
  (ho : o.orders (pairID action.In action.Out) = some ⟨es, lk⟩)
  (hid : actionID ∉ lk)
  (hle : ∀ y, inner.keyAt es (parent es.size) = some y → y ≤ price action.InTick action.OutTick)

include ho hid hle

/-- A new order priced at or above the entry its push compares it with is not moved. -/
theorem push_order_eq :
    (⟨es, lk⟩ : Heap ι (Order ι) ℚ).push
        (action.entry actionID (⟨es, lk⟩ : Heap ι (Order ι) ℚ).len) =
      ⟨es.push (action.entry actionID es.size), insert actionID lk⟩ := by
  rw [Heap.push_eq_of_le]
  · rfl
  · simp only [Heap.has, CreateOrder.entry_ID]
    exact decide_eq_false hid
  · exact hle

/-- Within the limit, such an order is appended to its pair's slice. -/
theorem add_append (hmax : (es.size : ℤ) + 1 ≤ o.maxOrdersPerPair) :
    ∃ o', o.add actionID action = some o' ∧
      o'.orders (pairID action.In action.Out) =
        some ⟨es.push (action.entry actionID es.size), insert actionID lk⟩ ∧
      o'.maxOrdersPerPair = o.maxOrdersPerPair :=
  ⟨_, add_of_le (heapFor_of_orders ho)
    (by rw [push_order_eq actionID action ho hid hle]; simpa [Heap.len] using hmax),
    by simp [push_order_eq actionID action ho hid hle], rfl⟩

/-- **Past the limit, such an order is evicted at once**, whatever the orders held: it is the
entry at the last position. -/
theorem add_evicts_new (hmax : o.maxOrdersPerPair < (es.size : ℤ) + 1) :
    ∃ o', o.add actionID action = some o' ∧
      o'.orders (pairID action.In action.Out) = some ⟨es, lk⟩ ∧
      o'.maxOrdersPerPair = o.maxOrdersPerPair :=
  ⟨_, add_of_lt (heapFor_of_orders ho)
    (by rw [push_order_eq actionID action ho hid hle]; simpa [Heap.len] using hmax)
    (by rw [push_order_eq actionID action ho hid hle]; exact Heap.remove_last Array.back?_push),
    by simp [hid], rfl⟩

end Append

/-- `Orders` of a tracked pair with a `limit` not below zero: the first `limit` entries. -/
theorem orders'_eq {pair : ι × ι} (hh : o.orders pair = some h) {limit : ℤ} (hl : 0 ≤ limit) :
    o.orders' pair limit = some ((h.items.toList.take (min limit.toNat h.len)).map (·.Item)) := by
  unfold OrderBook.orders'
  rw [hh]
  dsimp only
  split_ifs with hlt hneg hneg
  · omega
  · congr 3
    omega
  · omega
  · congr 3
    omega

end Spec

end OrderBook

/-- A call of the book's API that changes it. -/
inductive Call (ι : Type)
  | add (actionID : ι) (action : CreateOrder ι)
  | remove (id : ι)
  | updateRemaining (id : ι) (remaining : ℕ)

namespace OrderBook

/-- The book after a call. -/
def step (o : OrderBook ι) : Call ι → Option (OrderBook ι)
  | .add actionID action => o.add actionID action
  | .remove id => some (o.remove id)
  | .updateRemaining id remaining => some (o.updateRemaining id remaining)

/-- The book after a sequence of calls. -/
def run (o : OrderBook ι) (cs : List (Call ι)) : Option (OrderBook ι) := cs.foldlM step o

theorem run_add_cons {o o₁ : OrderBook ι} {actionID : ι} {action : CreateOrder ι}
    {cs : List (Call ι)} (h : o.add actionID action = some o₁) :
    o.run (.add actionID action :: cs) = o₁.run cs := by
  simp [OrderBook.run, List.foldlM_cons, OrderBook.step, h]

/-! ## Every heap stays a heap -/

/-- Every heap of the book is valid. -/
def Inv (o : OrderBook ι) : Prop := ∀ pair h, o.orders pair = some h → h.Valid

theorem inv_new (trackedPairs : List (Tracked ι)) (maxOrdersPerPair : ℤ) :
    (new trackedPairs maxOrdersPerPair).Inv := by
  intro pair h hp
  unfold new at hp
  split at hp
  · cases hp
  · dsimp only at hp
    split_ifs at hp
    cases hp
    exact Heap.valid_new

/-- A valid heap put in the place of a pair's. -/
theorem valid_update {orders : ι × ι → Option (Heap ι (Order ι) ℚ)}
    (ho : ∀ pair h, orders pair = some h → h.Valid) {pair : ι × ι} {h : Heap ι (Order ι) ℚ}
    (hv : h.Valid) :
    ∀ pair' h', Function.update orders pair (some h) pair' = some h' → h'.Valid := by
  intro pair' h' hp
  by_cases hq : pair' = pair
  · subst hq
    rw [Function.update_self, Option.some.injEq] at hp
    exact hp ▸ hv
  · rw [Function.update_of_ne hq] at hp
    exact ho pair' h' hp

theorem Inv.heapFor {o : OrderBook ι} (ho : o.Inv) {pair : ι × ι} {h : Heap ι (Order ι) ℚ}
    (hh : o.heapFor pair = some h) : h.Valid := by
  unfold OrderBook.heapFor at hh
  split at hh
  · cases hh
    exact ho _ _ ‹_›
  · split_ifs at hh
    cases hh
    exact Heap.valid_new

theorem Inv.add {o o' : OrderBook ι} (ho : o.Inv) {actionID : ι} {action : CreateOrder ι}
    (h : o.add actionID action = some o') : o'.Inv := by
  unfold OrderBook.add at h
  dsimp only at h
  cases hh : o.heapFor (pairID action.In action.Out) with
  | none =>
    rw [hh] at h
    cases h
    exact ho
  | some h₀ =>
    rw [hh] at h
    dsimp only at h
    have hv₁ := (ho.heapFor hh).push
      (action.entry actionID h₀.len) rfl
    split_ifs at h
    · obtain ⟨⟨e, h₁⟩, hr, rfl⟩ := Option.map_eq_some_iff.mp h
      exact valid_update (valid_update ho hv₁) (hv₁.remove hr)
    · cases h
      exact valid_update ho hv₁

theorem Inv.remove {o : OrderBook ι} (ho : o.Inv) (id : ι) : (o.remove id).Inv := by
  unfold OrderBook.remove
  split
  · exact ho
  · dsimp only
    split
    · exact ho
    · rename_i pair h hh
      split
      · exact ho
      · split
        · rename_i r h' hr
          exact valid_update ho ((ho _ _ hh).remove hr)
        · exact ho

/-- The write through the pointer leaves every entry's id, value and index. -/
theorem valid_setRemaining {h : Heap ι (Order ι) ℚ} (hv : h.Valid) (id : ι) (remaining : ℕ) :
    (setRemaining h id remaining).Valid := by
  have hkey : ∀ k, inner.keyAt (setRemaining h id remaining).items k = inner.keyAt h.items k := by
    intro k
    simp only [Interface.keyAt, setRemaining, Array.getElem?_map, Option.map_map]
    congr 1
    funext e
    simp only [Function.comp_apply, inner_key]
    split_ifs <;> rfl
  have hids : (setRemaining h id remaining).ids = h.ids := by
    simp only [Heap.ids, setRemaining, Array.toList_map, List.map_map]
    congr 1
    funext e
    simp only [Function.comp_apply]
    split_ifs <;> rfl
  refine ⟨?_, ?_, ?_, fun id' => ?_⟩
  · intro k x y hk0 hkn hx hy
    simp only [setRemaining, Array.size_map] at hkn
    rw [hkey] at hx hy
    exact hv.ordered k x y hk0 hkn hx hy
  · intro k x hx
    simp only [setRemaining, Array.getElem?_map, Option.map_eq_some_iff] at hx
    obtain ⟨e, he, rfl⟩ := hx
    have := hv.stamped k e he
    split_ifs <;> exact this
  · rw [hids]
    exact hv.nodup
  · -- the write leaves `lookup`, and the ids
    rw [hids]
    exact hv.lookup id'

theorem Inv.updateRemaining {o : OrderBook ι} (ho : o.Inv) (id : ι) (remaining : ℕ) :
    (o.updateRemaining id remaining).Inv := by
  unfold OrderBook.updateRemaining
  split
  · exact ho
  · split
    · exact ho
    · rename_i pair h hh
      split
      · exact ho
      · exact valid_update ho (valid_setRemaining (ho _ _ hh) id remaining)

theorem Inv.step {o o' : OrderBook ι} (ho : o.Inv) {c : Call ι} (h : o.step c = some o') :
    o'.Inv := by
  cases c with
  | add actionID action => exact ho.add h
  | remove id =>
    cases h
    exact ho.remove id
  | updateRemaining id remaining =>
    cases h
    exact ho.updateRemaining id remaining

theorem Inv.run {o : OrderBook ι} (ho : o.Inv) (cs : List (Call ι)) :
    ∀ o', o.run cs = some o' → o'.Inv := by
  induction cs generalizing o with
  | nil =>
    intro o' h
    cases h
    exact ho
  | cons c cs ih =>
    intro o' h
    obtain ⟨o₁, h₁, h₂⟩ := Option.bind_eq_some_iff.mp h
    exact ih (ho.step h₁) o' h₂

/-- **The first order `Orders` returns has the best price** of its pair. -/
theorem Inv.first_best {o : OrderBook ι} (ho : o.Inv) {pair : ι × ι} {limit : ℤ}
    {x : Order ι} {xs : List (Order ι)} (h : o.orders' pair limit = some (x :: xs)) :
    ∃ hp e, o.orders pair = some hp ∧ hp.first = some e ∧ e.Item = x ∧
      ∀ e' ∈ hp.items.toList, e.Val ≤ e'.Val := by
  unfold OrderBook.orders' at h
  split at h
  · cases h
  · rename_i hp hh
    dsimp only at h
    obtain ⟨n, hn⟩ : ∃ n, (hp.items.toList.take n).map (·.Item) = x :: xs := by
      split_ifs at h <;> exact ⟨_, Option.some.inj h⟩
    -- the first order returned is the head of the slice
    have hhead := congrArg List.head? hn
    rw [List.head?_map, List.head?_take, List.head?_cons] at hhead
    split_ifs at hhead
    · simp at hhead
    obtain ⟨e, he, rfl⟩ := Option.map_eq_some_iff.mp hhead
    have hfirst : hp.first = some e := by
      rw [Heap.first, ← Array.getElem?_toList, ← List.head?_eq_getElem?]
      exact he
    exact ⟨hp, e, hh, hfirst, rfl, fun e' he' => (ho _ _ hh).first_le hfirst he'⟩

/-! ## Where the book differs from the best orders

Three orders on one pair, priced `a ≤ c < b` in the order added, with distinct ids. Each push
leaves its entry at the end of the slice, whose first value is the least. So `Orders` returns
them in the order added, the one priced `b` before the one priced `c`; and with room for two,
`Add` of the third removes the last position, the order priced `c`, and keeps the worse `b`. -/

/-- **`Orders` is not sorted, and `Add` may evict a better order than it keeps.** -/
theorem orders_unsorted_and_evicts_better (a₁ a₂ a₃ : ι) (c₁ c₂ c₃ : CreateOrder ι)
    (hids : a₁ ≠ a₂ ∧ a₁ ≠ a₃ ∧ a₂ ≠ a₃)
    (hpair : pairID c₂.In c₂.Out = pairID c₁.In c₁.Out ∧ pairID c₃.In c₃.Out = pairID c₁.In c₁.Out)
    (h₁₃ : price c₁.InTick c₁.OutTick ≤ price c₃.InTick c₃.OutTick)
    (h₃₂ : price c₃.InTick c₃.OutTick < price c₂.InTick c₂.OutTick) :
    (∃ o, (new [.pair (pairID c₁.In c₁.Out)] 3).run [.add a₁ c₁, .add a₂ c₂, .add a₃ c₃] = some o ∧
      o.orders' (pairID c₁.In c₁.Out) 3 = some [c₁.order a₁, c₂.order a₂, c₃.order a₃]) ∧
    ∃ o, (new [.pair (pairID c₁.In c₁.Out)] 2).run [.add a₁ c₁, .add a₂ c₂, .add a₃ c₃] = some o ∧
      o.orders' (pairID c₁.In c₁.Out) 2 = some [c₁.order a₁, c₂.order a₂] := by
  obtain ⟨h₁₂, h₁₃', h₂₃⟩ := hids
  have hnew (m : ℤ) : (new [.pair (pairID c₁.In c₁.Out)] m).orders (pairID c₁.In c₁.Out) =
      some ⟨#[], ∅⟩ := by
    simp [new]
    rfl
  -- each push compares the new value with the first, the least, and leaves it last
  have hB₂ (m : ℤ) (hm : 2 ≤ m) : ∃ B : OrderBook ι, (new [.pair (pairID c₁.In c₁.Out)] m).run
      [.add a₁ c₁, .add a₂ c₂, .add a₃ c₃] = B.run [.add a₃ c₃] ∧
      B.orders (pairID c₃.In c₃.Out) =
        some ⟨#[c₁.entry a₁ 0, c₂.entry a₂ 1], insert a₂ (insert a₁ ∅)⟩ ∧
      B.maxOrdersPerPair = m := by
    obtain ⟨B₁, r₁, o₁, m₁⟩ := add_append a₁ c₁ (hnew m) (by simp)
      (by simp [Interface.keyAt]) (by simp; omega)
    obtain ⟨B₂, r₂, o₂, m₂⟩ := add_append a₂ c₂
      (by rw [hpair.1]; exact o₁) (by simp [Ne.symm h₁₂])
      (by simpa [Interface.keyAt, parent] using h₁₃.trans h₃₂.le) (by simp [m₁]; omega)
    refine ⟨B₂, by rw [run_add_cons r₁, run_add_cons r₂], ?_, m₂.trans m₁⟩
    rw [hpair.2, ← hpair.1]
    exact o₂
  refine ⟨?_, ?_⟩
  · -- within a limit of three, the third order is appended too
    obtain ⟨B₂, r₂, o₂, m₂⟩ := hB₂ 3 (by omega)
    obtain ⟨B₃, r₃, o₃, -⟩ := add_append a₃ c₃ o₂
      (by simp [Ne.symm h₁₃', Ne.symm h₂₃])
      (by simpa [Interface.keyAt, parent] using h₁₃) (by simp [m₂])
    refine ⟨B₃, by rw [r₂, run_add_cons r₃]; rfl, ?_⟩
    rw [orders'_eq (by rw [← hpair.2]; exact o₃) (by omega)]
    simp [Heap.len]
  · -- past a limit of two, the third order is the one that goes
    obtain ⟨B₂, r₂, o₂, m₂⟩ := hB₂ 2 le_rfl
    obtain ⟨B₃, r₃, o₃, -⟩ := add_evicts_new a₃ c₃ o₂
      (by simp [Ne.symm h₁₃', Ne.symm h₂₃])
      (by simpa [Interface.keyAt, parent] using h₁₃) (by simp [m₂])
    refine ⟨B₃, by rw [r₂, run_add_cons r₃]; rfl, ?_⟩
    rw [orders'_eq (by rw [← hpair.2]; exact o₃) (by omega)]
    simp [Heap.len]

/-- Orders priced 1, 3 and 2. -/
theorem orders_unsorted_and_evicts_better_at_1_3_2 :
    ((1 : ℕ) ≠ 2 ∧ (1 : ℕ) ≠ 3 ∧ (2 : ℕ) ≠ 3) ∧ price 1 1 ≤ price 2 1 ∧ price 2 1 < price 3 1 ∧
    (∃ o, (new [.pair (pairID 0 1)] 3 : OrderBook ℕ).run
        [.add 1 ⟨0, 1, 1, 1, 1⟩, .add 2 ⟨0, 3, 1, 1, 1⟩, .add 3 ⟨0, 2, 1, 1, 1⟩] = some o ∧
      o.orders' (pairID 0 1) 3 =
        some [⟨1, 0, 1, 1, 1, 1⟩, ⟨2, 0, 3, 1, 1, 1⟩, ⟨3, 0, 2, 1, 1, 1⟩]) ∧
    ∃ o, (new [.pair (pairID 0 1)] 2 : OrderBook ℕ).run
        [.add 1 ⟨0, 1, 1, 1, 1⟩, .add 2 ⟨0, 3, 1, 1, 1⟩, .add 3 ⟨0, 2, 1, 1, 1⟩] = some o ∧
      o.orders' (pairID 0 1) 2 = some [⟨1, 0, 1, 1, 1, 1⟩, ⟨2, 0, 3, 1, 1, 1⟩] := by
  have h₁₃ : price 1 1 ≤ price 2 1 := by simp [price]
  have h₃₂ : price 2 1 < price 3 1 := by
    simp only [price, Nat.cast_one, div_one]
    exact_mod_cast (show (2 : ℕ) < 3 by decide)
  exact ⟨by decide, h₁₃, h₃₂, orders_unsorted_and_evicts_better 1 2 3 ⟨0, 1, 1, 1, 1⟩
    ⟨0, 3, 1, 1, 1⟩ ⟨0, 2, 1, 1, 1⟩ (by decide) ⟨rfl, rfl⟩ h₁₃ h₃₂⟩

end OrderBook

end Hypersdk.Tokenvm.Orderbook
