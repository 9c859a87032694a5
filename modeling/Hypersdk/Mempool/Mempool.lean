import Hypersdk.Eheap.Eheap
import Hypersdk.List.List
import Mathlib

/-!
# The mempool

`mempool/mempool.go`. A `Mempool` keeps its items twice: in `queue`, a linked list in the order
they are served, and in `eh`, an expiry heap of the list's elements; beside them `owned` counts
the items of each sponsor and `pendingSize` their bytes. `add` skips an item streamed already,
one whose id is held, one whose sponsor has `maxSponsorSize` items and is not exempt, and every
item once `maxSize` are held. `popNext`, `Remove` and `SetMinTimestamp` take items out, `Top`
pops items for a callback and puts back at the front those it asks to restore, and streaming
pops items for a block builder, which gives back those it did not use in `FinishStreaming`.

`Invariant.lean` states what the mempool keeps of itself and proves it along every run. `Remove`
takes an item out by the id of the item it is given, and then takes that item's sponsor and size
off the counts: the counts stay right for items whose id fixes their sponsor and size, as a
transaction's id, the hash of its bytes, does.
-/

namespace Hypersdk.Mempool

set_option linter.dupNamespace false

open Eheap Linked

/-- `Item`: an `eheap.Item` with its sponsor and its size in bytes. -/
structure Item (α ι σ : Type) extends Eheap.Item α ι where
  Sponsor : α → σ
  Size : α → ℤ

variable {α ι σ ε : Type} [DecidableEq ι] [DecidableEq σ]

/-- A list element as the expiry heap reads it: `Element.ID` and `Element.Expiry` are its
value's. -/
def Item.element (I : Item α ι σ) : Eheap.Item (Element α) ι :=
  ⟨fun e => I.ID e.value, fun e => I.Expiry e.value⟩

/-- The fields `New` sets and nothing writes after it. -/
structure Limits (σ : Type) where
  maxSize : ℤ
  maxSponsorSize : ℤ
  exemptSponsors : Finset σ

/-- `Mempool`, with its limits `c`, without its tracer and its locks but `streamLock`, held when
`streaming`. A nil `streamedItems` holds nothing and is `∅` here. `next` is the first address no
element has. -/
structure Mempool (I : Item α ι σ) (c : Limits σ) where
  pendingSize : ℤ
  queue : List (Element α)
  eh : ExpiryHeap I.element
  owned : σ → Option ℤ
  streamedItems : Finset ι
  nextStream : List α
  nextStreamFetched : Bool
  streaming : Bool
  next : ℕ

namespace Mempool

variable {I : Item α ι σ} {c : Limits σ}

/-- The limits `New` is given. -/
def limits (maxSize maxSponsorSize : ℤ) (exemptSponsors : List σ) : Limits σ :=
  ⟨maxSize, maxSponsorSize, exemptSponsors.toFinset⟩

variable (I) in
/-- `New`. -/
def new (maxSize maxSponsorSize : ℤ) (exemptSponsors : List σ) :
    Mempool I (limits maxSize maxSponsorSize exemptSponsors) where
  pendingSize := 0
  queue := []
  eh := ExpiryHeap.new I.element
  owned := fun _ => none
  streamedItems := ∅
  nextStream := []
  nextStreamFetched := false
  streaming := false
  next := 0

/-- `removeFromOwned`, on the map `owned` and the item's sponsor. -/
def removeFromOwned (owned : σ → Option ℤ) (sender : σ) : σ → Option ℤ :=
  match owned sender with
  | none => owned
  | some items =>
    if items = 1 then Function.update owned sender none
    else Function.update owned sender (some (items - 1))

/-- `Has`. -/
def has (m : Mempool I c) (itemID : ι) : Bool := m.eh.has itemID

/-- `Len`. -/
def len (m : Mempool I c) : ℕ := m.eh.len

/-- `Size`. -/
def size (m : Mempool I c) : ℤ := m.pendingSize

/-- `PeekNext`. -/
def peekNext (m : Mempool I c) : Option α := (first m.queue).map (·.value)

/-- One item of `add`'s loop. -/
def addItem (front : Bool) (m : Mempool I c) (item : α) : Mempool I c :=
  let sender := I.Sponsor item
  let itemID := I.ID item
  if itemID ∈ m.streamedItems then m
  else if m.eh.has itemID then m
  else
    let senderItems := (m.owned sender).getD 0
    if sender ∉ c.exemptSponsors ∧ senderItems = c.maxSponsorSize then m
    else if (Linked.size m.queue : ℤ) = c.maxSize then m
    else
      let elem : Element α := ⟨m.next, item⟩
      { m with
        queue := if !front then pushBack m.queue elem else pushFront m.queue elem
        eh := m.eh.add elem
        owned := Function.update m.owned sender (some (senderItems + 1))
        pendingSize := m.pendingSize + I.Size item
        next := m.next + 1 }

/-- `add`. -/
def add (m : Mempool I c) (items : List α) (front : Bool) : Mempool I c :=
  items.foldl (addItem front) m

/-- What `popNext`, `Remove` and `SetMinTimestamp` do with an element once the expiry heap has
let it go: `queue.Remove` it, and take `item`'s sponsor and size off the counts. -/
def unlink (m : Mempool I c) (elem : Element α) (item : α) : Mempool I c :=
  { m with
    queue := Linked.remove m.queue elem
    owned := removeFromOwned m.owned (I.Sponsor item)
    pendingSize := m.pendingSize - I.Size item }

/-- `popNext`: the first element of the queue, out of the queue and of the heap. -/
def popNext (m : Mempool I c) : Mempool I c × Option α :=
  match first m.queue with
  | none => (m, none)
  | some first =>
    let v := first.value
    ({ m with eh := (m.eh.remove (I.ID v)).1 }.unlink first v, some v)

/-- One item of `Remove`'s loop: the expiry heap gives up the element of the item's id, and the
counts lose the sponsor and the size of the item given. -/
def removeItem (m : Mempool I c) (item : α) : Mempool I c :=
  match m.eh.remove (I.ID item) with
  | (_, none) => m
  | (eh, some elem) => { m with eh := eh }.unlink elem item

/-- `Remove`. -/
def remove (m : Mempool I c) (items : List α) : Mempool I c := items.foldl removeItem m

theorem removeItem_of_remove {m : Mempool I c} {item : α} {elem : Element α}
    (h : (m.eh.remove (I.ID item)).2 = some elem) :
    m.removeItem item =
      ({ m with eh := (m.eh.remove (I.ID item)).1 } : Mempool I c).unlink elem item := by
  rw [removeItem, show m.eh.remove (I.ID item) = ((m.eh.remove (I.ID item)).1, some elem) from
    Prod.ext rfl h]

/-- `SetMinTimestamp`: the heap's `SetMin`, then each element it returns out of the queue. -/
def setMinTimestamp (m : Mempool I c) (t : ℤ) : Mempool I c × List α :=
  let r := m.eh.setMin t
  (r.2.foldl (fun m remove => m.unlink remove remove.value) { m with eh := r.1 },
    r.2.map (·.value))

theorem length_popNext {m m' : Mempool I c} {v : α} (h : m.popNext = (m', some v)) :
    m'.queue.length < m.queue.length := by
  unfold popNext at h
  split at h
  · cases h
  · rename_i e he
    cases h
    simp only [unlink, remove_of_first he, List.length_tail]
    have := List.length_pos_of_mem (mem_of_first he)
    omega

/-- The loop of `Top`: the `i`-th item popped goes to `f`, which says whether to go on, whether
to restore the item and what error to return; `timedOut i` is whether `targetDuration` has
passed at the `i`-th check. The loop runs while the heap is not empty; where the queue is
(never, by `Inv`) Go hands `f` the zero item, and the model returns `none`. -/
def topLoop (f : ℕ → α → Bool × Bool × Option ε) (timedOut : ℕ → Bool) (i : ℕ)
    (m : Mempool I c) (restorableItems : List α) : Option (Mempool I c × List α × Option ε) :=
  if 0 < m.eh.len then
    match _ : m.popNext with
    | (_, none) => none
    | (m', some next) =>
      let (cont, restore, fErr) := f i next
      let restorableItems := if restore then restorableItems ++ [next] else restorableItems
      if !cont || timedOut i || fErr.isSome then some (m', restorableItems, fErr)
      else topLoop f timedOut (i + 1) m' restorableItems
  else some (m, restorableItems, none)
termination_by m.queue.length
decreasing_by exact length_popNext ‹_›

/-- `Top`: the loop, then the items to restore back at the front. -/
def top (m : Mempool I c) (f : ℕ → α → Bool × Bool × Option ε) (timedOut : ℕ → Bool) :
    Option (Mempool I c × Option ε) :=
  (topLoop f timedOut 0 m []).map fun r => (r.1.add r.2.1 true, r.2.2)

/-- `StartStreaming`: a second one before `FinishStreaming` waits on `streamLock` forever. -/
def startStreaming (m : Mempool I c) : Option (Mempool I c) :=
  if m.streaming then none else some { m with streaming := true, streamedItems := ∅ }

/-- `streamItems`: pop up to `count` items, recording their ids as streamed. -/
def streamItems (count : ℤ) (m : Mempool I c) (txs : List α) : Mempool I c × List α :=
  if (txs.length : ℤ) < count then
    match _ : m.popNext with
    | (m', none) => (m', txs)
    | (m', some item) =>
      streamItems count { m' with streamedItems := insert (I.ID item) m'.streamedItems }
        (txs ++ [item])
  else (m, txs)
termination_by m.queue.length
decreasing_by exact length_popNext ‹_›

/-- `PrepareStream`. -/
def prepareStream (m : Mempool I c) (count : ℤ) : Mempool I c :=
  let r := streamItems count m []
  { r.1 with nextStream := r.2, nextStreamFetched := true }

/-- `Stream`. -/
def stream (m : Mempool I c) (count : ℤ) : Mempool I c × List α :=
  if m.nextStreamFetched then
    ({ m with nextStream := [], nextStreamFetched := false }, m.nextStream)
  else streamItems count m []

/-- `FinishStreaming`: restore the items given and those prepared, at the front. Unlocking
`streamLock` when it is not held is a fatal error of the runtime, `none` here. -/
def finishStreaming (m : Mempool I c) (restorable : List α) : Option (Mempool I c × ℕ) :=
  let m₁ := ({ m with streamedItems := ∅ } : Mempool I c).add restorable true
  let r : Mempool I c × ℕ :=
    if m₁.nextStreamFetched then
      ({ m₁.add m₁.nextStream true with nextStream := [], nextStreamFetched := false },
        restorable.length + m₁.nextStream.length)
    else (m₁, restorable.length)
  if r.1.streaming then some ({ r.1 with streaming := false }, r.2) else none

end Mempool

/-- A call of the mempool's API that changes it. -/
inductive Call (α ε : Type)
  | add (items : List α)
  | popNext
  | remove (items : List α)
  | setMinTimestamp (t : ℤ)
  | top (f : ℕ → α → Bool × Bool × Option ε) (timedOut : ℕ → Bool)
  | startStreaming
  | prepareStream (count : ℤ)
  | stream (count : ℤ)
  | finishStreaming (restorable : List α)

namespace Mempool

variable {I : Item α ι σ} {c : Limits σ}

/-- The mempool after a call; `none` where the call never returns. -/
def step (m : Mempool I c) : Call α ε → Option (Mempool I c)
  | .add items => some (m.add items false)
  | .popNext => some m.popNext.1
  | .remove items => some (m.remove items)
  | .setMinTimestamp t => some (m.setMinTimestamp t).1
  | .top f timedOut => (m.top f timedOut).map (·.1)
  | .startStreaming => m.startStreaming
  | .prepareStream count => some (m.prepareStream count)
  | .stream count => some (m.stream count).1
  | .finishStreaming restorable => (m.finishStreaming restorable).map (·.1)

/-- The mempool after a sequence of calls. -/
def run (m : Mempool I c) (cs : List (Call α ε)) : Option (Mempool I c) := cs.foldlM step m

end Mempool

end Hypersdk.Mempool
