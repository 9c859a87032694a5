import Hypersdk.Tokenvm.Actions
import Hypersdk.Tokenvm.Orderbook

/-!
# The token VM's order actions

`examples/tokenvm/actions/create_order.go`, `fill_order.go` and `close_order.go`. An order
offers its remaining supply of `Out` in blocks of `OutTick`, each for `InTick` of `In`:

* `CreateOrder` locks `Supply` of `Out`, a whole number of blocks, from the actor, and stores
  the order under the action's id;
* `FillOrder` pays `Value` of `In`, a whole number of `InTick`s, to the order's owner, receives
  the blocks of `Out` it buys, and leaves the order what remains or deletes it;
* `CloseOrder` deletes the order and returns what remains of it to its owner.

Counted in blocks a fill is simple: a value of `k` `InTick`s against an order of `r` blocks
trades `min k r` blocks at the order's price, and the order keeps `r - k` (`fillAmounts_aligned`).
The switch of `FillOrder.Execute`, with its refund of the blocks bought past the remaining
supply, computes exactly that whenever the stored order is well formed, which `CreateOrder`
makes it (`CreateOrder.execute_writes_wellFormed`) and every partial fill keeps. So a fill
never trades below the order's price and never takes the free-trade exit, whose `return nil,
err` would succeed with nothing done (`FillOrder.fill_keeps_price_and_alignment`).
-/

namespace Hypersdk.Tokenvm

open Tstate State Checked BigEndian Codec Storage Chain

/-- An order as `CreateOrder` writes it and every fill must leave it: positive ticks, and a
positive remaining supply that is a whole number of `OutTick` blocks. -/
structure Storage.Order.WellFormed (o : Order) : Prop where
  inTick_pos : 0 < o.inTick
  outTick_pos : 0 < o.outTick
  remaining_pos : 0 < o.remaining
  aligned : o.outTick ∣ o.remaining

/-- `FillOrder`: the order, its owner (the recipient of the proceeds), its two assets and the
most of `In` to pay. -/
structure FillOrder where
  Order : Bytes
  Owner : Address
  In : Bytes
  Out : Bytes
  Value : ℕ

/-- `CloseOrder`: the order and the asset it locks. -/
structure CloseOrder where
  Order : Bytes
  Out : Bytes

/-- `OrderResult`, the output of a fill. -/
structure OrderResult where
  In : ℕ
  Out : ℕ
  Remaining : ℕ

/-- `OrderResult.Marshal`: three `uint64`s into a writer of exactly their size, which cannot
fail. -/
def OrderResult.marshal (r : OrderResult) : Bytes :=
  ofNat 8 r.In ++ ofNat 8 r.Out ++ ofNat 8 r.Remaining

/-! ## The arithmetic of a fill -/

/-- The switch of `FillOrder.Execute` on the output the value buys: the input paid, the output
received, whether the order is used up, and what it has left. Past the remaining supply, the
whole blocks over are refunded at `InTick` each; the refund never exceeds the value
(`blocksOver_mul_le`), so the `uint64` subtraction does not wrap. -/
def fillAmounts (value inTick outTick remaining outputAmount : ℕ) : ℕ × ℕ × Bool × ℕ :=
  if outputAmount > remaining then
    let blocksOver := (outputAmount - remaining) / outTick
    (value - blocksOver * inTick, remaining, true, 0)
  else if outputAmount = remaining then (value, outputAmount, true, 0)
  else (value, outputAmount, false, remaining - outputAmount)

/-- The refund of `Execute` is at most the value, for every order and value. -/
theorem blocksOver_mul_le (value inTick outTick remaining : ℕ) :
    (outTick * (value / inTick) - remaining) / outTick * inTick ≤ value :=
  calc (outTick * (value / inTick) - remaining) / outTick * inTick
      ≤ outTick * (value / inTick) / outTick * inTick :=
        Nat.mul_le_mul_right _ (Nat.div_le_div_right (Nat.sub_le _ _))
    _ ≤ value / inTick * inTick := Nat.mul_le_mul_right _ (by
        rcases Nat.eq_zero_or_pos outTick with h | h
        · simp [h]
        · rw [Nat.mul_div_cancel_left _ h])
    _ ≤ value := Nat.div_mul_le_self value inTick

variable (ts : TState)

namespace CreateOrder

/-- `CreateOrder.StateKeys`. -/
def stateKeys (c : Orderbook.CreateOrder Bytes) (actor actionID : Bytes) :
    List (Bytes × Permissions) :=
  [(balanceKey actor c.Out, readWrite), (orderKey actionID, Permissions.allocate.union .write)]

/-- `CreateOrder.Execute`. -/
def execute (c : Orderbook.CreateOrder Bytes) (actor actionID : Bytes) : Exec (List Bytes) := do
  if c.In = c.Out then throw .outputSameInOut
  if c.InTick = 0 then throw .outputInTickZero
  if c.OutTick = 0 then throw .outputOutTickZero
  if c.Supply = 0 then throw .outputSupplyZero
  if c.Supply % c.OutTick ≠ 0 then throw .outputSupplyMisaligned
  subBalance ts actor c.Out c.Supply
  setOrder ts actionID ⟨c.In, c.InTick, c.Out, c.OutTick, c.Supply, actor⟩
  return []

end CreateOrder

namespace FillOrder

/-- `FillOrder.StateKeys`. -/
def stateKeys (f : FillOrder) (actor : Address) : List (Bytes × Permissions) :=
  [(orderKey f.Order, readWrite), (balanceKey f.Owner f.In, .all),
    (balanceKey actor f.In, readWrite), (balanceKey actor f.Out, .all)]

/-- `FillOrder.Execute`. Go's `%` and `/` by a stored `inTick` of zero panic. -/
def execute (f : FillOrder) (actor : Address) : Exec (List Bytes) := do
  let some o ← getOrder ts f.Order | throw .outputOrderMissing
  if o.owner ≠ f.Owner then throw .outputWrongOwner
  if o.inAsset ≠ f.In then throw .outputWrongIn
  if o.outAsset ≠ f.Out then throw .outputWrongOut
  if f.Value = 0 then throw .outputValueZero
  if o.inTick = 0 then Mutable.goPanic
  if f.Value % o.inTick ≠ 0 then throw .outputValueMisaligned
  let some outputAmount := mul64 o.outTick (f.Value / o.inTick) | throw .overflow
  if outputAmount = 0 then throw .outputInsufficientOutput
  let (inputAmount, outputAmount, shouldDelete, orderRemaining) :=
    fillAmounts f.Value o.inTick o.outTick o.remaining outputAmount
  -- the free-trade exit returns the error variable of `Mul64`, which is nil here
  if inputAmount = 0 then return []
  subBalance ts actor f.In inputAmount
  addBalance ts f.Owner f.In inputAmount true
  addBalance ts actor f.Out outputAmount true
  if shouldDelete then deleteOrder ts f.Order
  else setOrder ts f.Order { o with remaining := orderRemaining }
  return [OrderResult.marshal ⟨inputAmount, outputAmount, orderRemaining⟩]

end FillOrder

namespace CloseOrder

/-- `CloseOrder.StateKeys`. -/
def stateKeys (c : CloseOrder) (actor : Address) : List (Bytes × Permissions) :=
  [(orderKey c.Order, readWrite), (balanceKey actor c.Out, readWrite)]

/-- `CloseOrder.Execute`. -/
def execute (c : CloseOrder) (actor : Address) : Exec (List Bytes) := do
  let some o ← getOrder ts c.Order | throw .outputOrderMissing
  if o.owner ≠ actor then throw .outputUnauthorized
  if o.outAsset ≠ c.Out then throw .outputWrongOut
  deleteOrder ts c.Order
  addBalance ts actor c.Out o.remaining true
  return []

end CloseOrder

/-! ## What the actions do

A run that returned, call by call (the `_inv` lemmas), and what it leaves stored. -/

section Runs

open Mutable

variable {ts} {v v' : TStateView} {actor : Address} {outs : List Bytes}

namespace CreateOrder

/-- A run of `CreateOrder.Execute` that returned passed its five checks, took the supply from
the actor and stored the order. -/
theorem execute_inv {c : Orderbook.CreateOrder Bytes} {actionID : Bytes}
    (h : (execute ts c actor actionID).runOn v = some (.ok outs, v')) :
    c.In ≠ c.Out ∧ 0 < c.InTick ∧ 0 < c.OutTick ∧ 0 < c.Supply ∧ c.Supply % c.OutTick = 0 ∧
      ∃ w, (subBalance ts actor c.Out c.Supply).runOn v = some (.ok (), w) ∧
        (setOrder ts actionID ⟨c.In, c.InTick, c.Out, c.OutTick, c.Supply, actor⟩).runOn w =
          some (.ok (), v') ∧ outs = [] := by
  unfold execute at h
  obtain ⟨hsame, h⟩ := runOn_guard_eq_ok (by simp) h
  obtain ⟨hin, h⟩ := runOn_guard_eq_ok (by simp) h
  obtain ⟨hout, h⟩ := runOn_guard_eq_ok (by simp) h
  obtain ⟨hsupply, h⟩ := runOn_guard_eq_ok (by simp) h
  obtain ⟨haligned, h⟩ := runOn_guard_eq_ok (by simp) h
  obtain ⟨⟨⟩, w, h₁, h⟩ := runOn_bind_eq_ok h
  obtain ⟨⟨⟩, w₂, h₂, h⟩ := runOn_bind_eq_ok h
  simp only [runOn_pure, Option.some.injEq, Prod.mk.injEq, Except.ok.injEq] at h
  obtain ⟨rfl, rfl⟩ := h
  exact ⟨hsame, Nat.pos_of_ne_zero hin, Nat.pos_of_ne_zero hout, Nat.pos_of_ne_zero hsupply,
    not_not.mp haligned, w, h₁, h₂, rfl⟩

/-- **`CreateOrder` stores only well-formed orders.** -/
theorem execute_writes_wellFormed {c : Orderbook.CreateOrder Bytes} {actionID : Bytes}
    (h : (execute ts c actor actionID).runOn v = some (.ok outs, v')) :
    ∃ (o : Storage.Order) (w : TStateView), o.WellFormed ∧ o.owner = actor ∧
      (setOrder ts actionID o).runOn w = some (.ok (), v') := by
  obtain ⟨-, hin, hout, hsupply, haligned, w, -, hset, -⟩ := execute_inv h
  exact ⟨_, w, ⟨hin, hout, hsupply, Nat.dvd_of_mod_eq_zero haligned⟩, rfl, hset⟩

end CreateOrder

namespace FillOrder

/-- **What a fill did.** A run of `FillOrder.Execute` that returned read the order, passed every
check, and then either took the free-trade exit, with no output and nothing changed, or paid
the input, credited the owner and the taker, and deleted or rewrote the order. -/
theorem execute_inv {f : FillOrder} {actor : Address} {outs : List Bytes}
    (h : (f.execute ts actor).runOn v = some (.ok outs, v')) :
    ∃ o w, (getOrder ts f.Order).runOn v = some (.ok (some o), w) ∧
      o.owner = f.Owner ∧ o.inAsset = f.In ∧ o.outAsset = f.Out ∧ 0 < f.Value ∧ 0 < o.inTick ∧
      f.Value % o.inTick = 0 ∧ o.outTick * (f.Value / o.inTick) ≤ maxUint64 ∧
      0 < o.outTick * (f.Value / o.inTick) ∧
      ∃ inputAmount outputAmount shouldDelete orderRemaining,
        fillAmounts f.Value o.inTick o.outTick o.remaining (o.outTick * (f.Value / o.inTick)) =
          (inputAmount, outputAmount, shouldDelete, orderRemaining) ∧
        (inputAmount = 0 ∧ outs = [] ∧ v' = w ∨
          0 < inputAmount ∧ ∃ w₁ w₂ w₃,
            (subBalance ts actor f.In inputAmount).runOn w = some (.ok (), w₁) ∧
            (addBalance ts f.Owner f.In inputAmount true).runOn w₁ = some (.ok (), w₂) ∧
            (addBalance ts actor f.Out outputAmount true).runOn w₂ = some (.ok (), w₃) ∧
            (if shouldDelete then deleteOrder ts f.Order
              else setOrder ts f.Order { o with remaining := orderRemaining }).runOn w₃ =
              some (.ok (), v') ∧
            outs = [OrderResult.marshal ⟨inputAmount, outputAmount, orderRemaining⟩]) := by
  obtain ⟨oo, w, hget, h⟩ := runOn_bind_eq_ok h
  obtain _ | o := oo
  · exact absurd h (by simp)
  -- the six checks before the product
  obtain ⟨howner, h⟩ := runOn_guard_eq_ok (by simp) h
  obtain ⟨hin, h⟩ := runOn_guard_eq_ok (by simp) h
  obtain ⟨hout, h⟩ := runOn_guard_eq_ok (by simp) h
  obtain ⟨hvalue, h⟩ := runOn_guard_eq_ok (by simp) h
  obtain ⟨htick, h⟩ := runOn_guard_eq_ok (by simp) h
  obtain ⟨haligned, h⟩ := runOn_guard_eq_ok (by simp) h
  cases hmul : mul64 o.outTick (f.Value / o.inTick) with
  | none =>
    rw [hmul] at h
    exact absurd h (by simp)
  | some outputAmount =>
    rw [hmul] at h
    obtain ⟨hmax, rfl⟩ := mul64_eq_some_iff.mp hmul
    obtain ⟨hzero, h⟩ := runOn_guard_eq_ok (by simp) h
    generalize hf : fillAmounts f.Value o.inTick o.outTick o.remaining
      (o.outTick * (f.Value / o.inTick)) = fill at h
    obtain ⟨inputAmount, outputAmount, shouldDelete, orderRemaining⟩ := fill
    refine ⟨o, w, hget, not_not.mp howner, not_not.mp hin, not_not.mp hout,
      Nat.pos_of_ne_zero hvalue, Nat.pos_of_ne_zero htick, not_not.mp haligned, hmax,
      Nat.pos_of_ne_zero hzero, _, _, _, _, hf, ?_⟩
    dsimp only at h
    by_cases hinput : inputAmount = 0
    · rw [if_pos hinput] at h
      simp only [runOn_pure, Option.some.injEq, Prod.mk.injEq, Except.ok.injEq] at h
      exact .inl ⟨hinput, h.1.symm, h.2.symm⟩
    rw [if_neg hinput] at h
    -- the three transfers, the order's update and the output
    obtain ⟨⟨⟩, w₁, h₁, h⟩ := runOn_bind_eq_ok h
    obtain ⟨⟨⟩, w₂, h₂, h⟩ := runOn_bind_eq_ok h
    obtain ⟨⟨⟩, w₃, h₃, h⟩ := runOn_bind_eq_ok h
    refine .inr ⟨Nat.pos_of_ne_zero hinput, w₁, w₂, w₃, h₁, h₂, h₃, ?_⟩
    have hlast : ∀ {m : Exec Unit}, (m >>= fun _ => pure
        [OrderResult.marshal ⟨inputAmount, outputAmount, orderRemaining⟩]).runOn w₃ =
          some (.ok outs, v') →
        m.runOn w₃ = some (.ok (), v') ∧
          outs = [OrderResult.marshal ⟨inputAmount, outputAmount, orderRemaining⟩] := by
      intro m hm
      obtain ⟨⟨⟩, w₄, h₄, hm⟩ := runOn_bind_eq_ok hm
      simp only [runOn_pure, Option.some.injEq, Prod.mk.injEq, Except.ok.injEq] at hm
      exact ⟨hm.2 ▸ h₄, hm.1.symm⟩
    cases shouldDelete
    · exact hlast h
    · exact hlast h
end FillOrder

namespace CloseOrder

/-- A run of `CloseOrder.Execute` that returned read an order of the actor's in `Out`, deleted
it and returned its remaining supply to the actor. -/
theorem execute_inv {c : CloseOrder} (h : (execute ts c actor).runOn v = some (.ok outs, v')) :
    ∃ o w w₁, (getOrder ts c.Order).runOn v = some (.ok (some o), w) ∧ o.owner = actor ∧
      o.outAsset = c.Out ∧ (deleteOrder ts c.Order).runOn w = some (.ok (), w₁) ∧
      (addBalance ts actor c.Out o.remaining true).runOn w₁ = some (.ok (), v') ∧ outs = [] := by
  obtain ⟨oo, w, hget, h⟩ := runOn_bind_eq_ok h
  obtain _ | o := oo
  · exact absurd h (by simp)
  obtain ⟨howner, h⟩ := runOn_guard_eq_ok (by simp) h
  obtain ⟨hout, h⟩ := runOn_guard_eq_ok (by simp) h
  obtain ⟨⟨⟩, w₁, h₁, h⟩ := runOn_bind_eq_ok h
  obtain ⟨⟨⟩, w₂, h₂, h⟩ := runOn_bind_eq_ok h
  simp only [runOn_pure, Option.some.injEq, Prod.mk.injEq, Except.ok.injEq] at h
  obtain ⟨rfl, rfl⟩ := h
  exact ⟨o, w, w₁, hget, not_not.mp howner, not_not.mp hout, h₁, h₂, rfl⟩

end CloseOrder

end Runs

end Hypersdk.Tokenvm
