import Hypersdk.Foundations.BinaryHeap
import Mathlib

/-!
# The heap of entries

`heap/heap.go` and `heap/inner_heap.go`. A `Heap` keeps `Entry`s (an id, an item, the value it
is ordered by, and its index in the slice) in Go's `container/heap`, through an `innerHeap`
whose `Less` compares values and whose `Swap` writes each moved entry's `Index`. Every
`heap.New` of the repository builds a min-heap, so `Less` is `<` on values here. The
`innerHeap`'s `Push` returns without adding an entry whose id it holds already. Its `lookup`
map, from ids to the entries' pointers, is kept by its keys: `Push` adds the id it appends, and
`Pop` (which `heap.Pop` and `heap.Remove` end with) deletes the id of the entry it takes. `Has`
reads the map; `Get` reads it and follows the pointer, to the entry of the slice with that id:
the ids held are distinct, so that is the entry `Push` stored, wherever `Swap` has moved it.

`Valid` is what every operation keeps (`valid_new`, `Valid.push`, `Valid.pop`,
`Valid.remove`): the heap order, every `Index` right, the ids distinct, and the keys of `lookup`
the ids of the slice. What each operation does
to the entries is stated without their index (`Entry.data`): `Push` adds one unless its id is
there, `Pop` takes the first, which has the least value, and `Remove(i)` the one at `i`, which
`Get` finds by its id.
-/

namespace Hypersdk.Heap

set_option linter.dupNamespace false

open Foundations BinaryHeap

/-- `Entry`. -/
structure Entry (ι Item V : Type) where
  ID : ι
  Item : Item
  Val : V
  Index : ℕ

variable {ι Item V : Type} [LinearOrder V]

/-- What an entry holds apart from its index. -/
def Entry.data (e : Entry ι Item V) : ι × Item × V := (e.ID, e.Item, e.Val)

/-- `innerHeap` as `container/heap` sees it: `Less` compares values, `Swap` writes `Index`. -/
def inner : Interface (Entry ι Item V) V :=
  ⟨Entry.Val, fun i e => { e with Index := i }, fun _ _ => rfl⟩

@[simp] theorem inner_key : (inner : Interface (Entry ι Item V) V).key = Entry.Val := rfl

theorem data_stamp (i : ℕ) (e : Entry ι Item V) : (inner.stamp i e).data = e.data := rfl

theorem id_stamp (i : ℕ) (e : Entry ι Item V) : (inner.stamp i e).ID = e.ID := rfl

theorem index_stamp (i : ℕ) (e : Entry ι Item V) : (inner.stamp i e).Index = i := rfl

/-- `Heap`, by the slice of its `innerHeap` and the keys of its `lookup`. -/
structure Heap (ι Item V : Type) where
  items : Array (Entry ι Item V)
  lookup : Finset ι

namespace Heap

variable [DecidableEq ι]

/-- `New`. -/
def new : Heap ι Item V := ⟨#[], ∅⟩

/-- `Len`. -/
def len (h : Heap ι Item V) : ℕ := h.items.size

/-- `Has`: `id` is a key of `lookup`. -/
def has (h : Heap ι Item V) (id : ι) : Bool := decide (id ∈ h.lookup)

/-- `Get`: the entry `lookup` points to, that of the slice with the id. -/
def get (h : Heap ι Item V) (id : ι) : Option (Entry ι Item V) :=
  if id ∈ h.lookup then h.items.find? fun e => decide (e.ID = id) else none

/-- `First`: the first entry, `nil` when there is none. -/
def first (h : Heap ι Item V) : Option (Entry ι Item V) := h.items[0]?

/-- `Push`: the `innerHeap`'s `Push`, which skips an id it holds, then `up`. -/
def push (h : Heap ι Item V) (e : Entry ι Item V) : Heap ι Item V :=
  ⟨inner.upLast (if h.has e.ID then h.items else h.items.push e),
    if h.has e.ID then h.lookup else insert e.ID h.lookup⟩

/-- `Pop`. -/
def pop (h : Heap ι Item V) : Option (Entry ι Item V × Heap ι Item V) :=
  if h.items.size = 0 then none
  else (inner.pop h.items).map fun r => (r.1, ⟨r.2, h.lookup.erase r.1.ID⟩)

/-- `Remove(index)`. -/
def remove (h : Heap ι Item V) (index : ℕ) : Option (Entry ι Item V × Heap ι Item V) :=
  if h.items.size ≤ index then none
  else (inner.remove h.items index).map fun r => (r.1, ⟨r.2, h.lookup.erase r.1.ID⟩)

/-- The entries, without their indices. -/
def contents (h : Heap ι Item V) : List (ι × Item × V) := h.items.toList.map Entry.data

/-- The ids held. -/
def ids (h : Heap ι Item V) : List ι := h.items.toList.map Entry.ID

omit [DecidableEq ι] [LinearOrder V] in
theorem ids_eq (h : Heap ι Item V) : h.ids = h.contents.map Prod.fst := by
  simp [ids, contents, Function.comp_def, Entry.data]

/-- What every operation keeps: the heap order, each entry's `Index` its position, the ids
distinct, and the keys of `lookup` the ids held. -/
structure Valid (h : Heap ι Item V) : Prop where
  ordered : inner.Ordered h.items
  stamped : Stamped Entry.Index h.items
  nodup : h.ids.Nodup
  lookup : ∀ id, id ∈ h.lookup ↔ id ∈ h.ids

omit [DecidableEq ι] in
theorem valid_new : (new : Heap ι Item V).Valid :=
  ⟨fun _ _ _ _ hk => absurd hk (Nat.not_lt_zero _), fun _ _ h => by simp [new] at h,
    List.nodup_nil, fun _ => by simp [new, ids]⟩

theorem Valid.has_iff {h : Heap ι Item V} (hv : h.Valid) (id : ι) :
    h.has id = true ↔ id ∈ h.ids := by
  rw [has, decide_eq_true_iff, hv.lookup]

omit [LinearOrder V] in
/-- A key set that is a list's set stays so when the last of the list, held once, is taken off
along with its key. -/
theorem mem_erase_iff_of_perm {s : Finset ι} {l l' : List ι} {x : ι} (hs : ∀ id, id ∈ s ↔ id ∈ l)
    (hp : l.Perm (l' ++ [x])) (hn : l.Nodup) (id : ι) : id ∈ s.erase x ↔ id ∈ l' := by
  have hx : x ∉ l' := by
    have := (hp.nodup_iff.mp hn)
    rw [List.nodup_append] at this
    exact fun hm => this.2.2 x hm x (List.mem_singleton_self x) rfl
  rw [Finset.mem_erase, hs, hp.mem_iff, List.mem_append, List.mem_singleton]
  constructor
  · rintro ⟨hne, hm | rfl⟩
    · exact hm
    · exact absurd rfl hne
  · intro hm
    exact ⟨fun he => hx (he ▸ hm), Or.inl hm⟩

/-- Taking one entry off, and its id off `lookup`, keeps the ids distinct and the keys of
`lookup` the ids held: what `Pop` and `Remove` share. -/
theorem Valid.take_off {h h' : Heap ι Item V} (hv : h.Valid) {x : ι}
    (hperm : h.ids.Perm (h'.ids ++ [x])) (hl : h'.lookup = h.lookup.erase x) :
    h'.ids.Nodup ∧ ∀ id, id ∈ h'.lookup ↔ id ∈ h'.ids := by
  refine ⟨(List.nodup_append.mp (hperm.nodup_iff.mp hv.nodup)).1, fun id => ?_⟩
  rw [hl]
  exact mem_erase_iff_of_perm hv.lookup hperm hv.nodup id

omit [DecidableEq ι] [LinearOrder V] in
theorem mem_ids_iff {h : Heap ι Item V} {id : ι} : id ∈ h.ids ↔ ∃ p v, (id, p, v) ∈ h.contents := by
  simp [ids, contents, Entry.data]

omit [DecidableEq ι] [LinearOrder V] in
@[simp] theorem contents_new : (new : Heap ι Item V).contents = [] := rfl

omit [DecidableEq ι] in
theorem Valid.nodup_contents {h : Heap ι Item V} (hv : h.Valid) : h.contents.Nodup :=
  List.Nodup.of_map Prod.fst (h.ids_eq ▸ hv.nodup)

/-! ## `Push` -/

theorem push_of_has {h : Heap ι Item V} (hv : h.Valid) {e : Entry ι Item V}
    (he : h.has e.ID = true) : h.push e = h := by
  rw [push, if_pos he, if_pos he, Interface.upLast, hv.ordered.up_eq]

theorem contents_push {h : Heap ι Item V} {e : Entry ι Item V} (he : h.has e.ID = false) :
    (h.push e).contents.Perm (h.contents ++ [e.data]) := by
  have hp := inner.up_perm Entry.data data_stamp (h.items.push e) (h.items.push e).size.pred
  simpa [contents, push, he, Interface.upLast] using hp

theorem mem_contents_push {h : Heap ι Item V} {e : Entry ι Item V} (he : h.has e.ID = false)
    {d : ι × Item × V} : d ∈ (h.push e).contents ↔ d ∈ h.contents ∨ d = e.data := by
  rw [(contents_push he).mem_iff, List.mem_append, List.mem_singleton]

theorem Valid.push {h : Heap ι Item V} (hv : h.Valid) (e : Entry ι Item V)
    (hi : e.Index = h.len) : (h.push e).Valid := by
  cases he : h.has e.ID
  · have hid : e.ID ∉ h.ids := fun hm => by simp [(hv.has_iff e.ID).mpr hm] at he
    -- the ids after `Push` are those before and `e`'s, in another order
    have hp := inner.up_perm Entry.ID id_stamp (h.items.push e) (h.items.push e).size.pred
    have hids : (h.push e).ids.Perm (h.ids ++ [e.ID]) := by
      simpa [ids, Heap.push, he, Interface.upLast] using hp
    refine ⟨?_, ?_, ?_, fun id => ?_⟩
    · rw [Heap.push, he]
      exact hv.ordered.upLast e
    · rw [Heap.push, he]
      exact inner.stamped_up Entry.Index index_stamp (hv.stamped.push hi) _
    · refine hids.nodup_iff.mpr ?_
      rw [List.nodup_append]
      refine ⟨hv.nodup, List.nodup_singleton _, fun a ha b hb hab => ?_⟩
      rw [List.mem_singleton] at hb
      rw [hab, hb] at ha
      exact hid ha
    · rw [hids.mem_iff, List.mem_append, List.mem_singleton, ← hv.lookup]
      simp only [Heap.push, he, Bool.false_eq_true, if_false, Finset.mem_insert]
      exact or_comm
  · rwa [push_of_has hv he]

omit [DecidableEq ι] in
/-- An entry at or above its parent's value stays at the end of the slice: `up` does not move
it. -/
theorem up_push_of_le (h : Heap ι Item V) (e : Entry ι Item V)
    (hle : ∀ y, inner.keyAt h.items (parent h.items.size) = some y → y ≤ e.Val) :
    inner.upLast (h.items.push e) = h.items.push e := by
  rw [Interface.upLast, Array.size_push, Nat.add_sub_cancel, Interface.up]
  split_ifs with hp hl
  · rfl
  · -- the parent is in the old slice, and its value is not above `e`'s
    have hlt : parent h.items.size < h.items.size :=
      parent_lt (Nat.pos_of_ne_zero (mt parent_eq_self_iff.mpr hp))
    have hk : inner.keyAt (h.items.push e) (parent h.items.size) =
        inner.keyAt h.items (parent h.items.size) := by
      simp [Interface.keyAt, Array.getElem?_push, Nat.ne_of_lt hlt]
    have hy : (inner.keyAt h.items (parent h.items.size)).isSome := Interface.keyAt_isSome _ hlt
    obtain ⟨y, hy⟩ := Option.isSome_iff_exists.mp hy
    have he : inner.keyAt (h.items.push e) h.items.size = some e.Val := by
      simp [Interface.keyAt]
    simp only [Interface.less, he, hk, hy, decide_eq_true_eq] at hl
    exact absurd (hle y hy) (not_le.mpr hl)
  · rfl

/-- `Push` of a new id whose value is at or above its parent's appends the entry. -/
theorem push_eq_of_le {h : Heap ι Item V} {e : Entry ι Item V} (he : h.has e.ID = false)
    (hle : ∀ y, inner.keyAt h.items (parent h.items.size) = some y → y ≤ e.Val) :
    h.push e = ⟨h.items.push e, insert e.ID h.lookup⟩ := by
  rw [Heap.push, if_neg (by simp [he]), if_neg (by simp [he]), up_push_of_le h e hle]

/-! ## `Pop` -/

theorem pop_eq_some {h h' : Heap ι Item V} {e : Entry ι Item V} (hp : h.pop = some (e, h')) :
    inner.pop h.items = some (e, h'.items) ∧ h'.lookup = h.lookup.erase e.ID := by
  unfold pop at hp
  split_ifs at hp
  obtain ⟨⟨e', a⟩, he, hr⟩ := Option.map_eq_some_iff.mp hp
  cases hr
  exact ⟨he, rfl⟩

theorem pop_isSome (h : Heap ι Item V) : h.pop.isSome ↔ 0 < h.len := by
  unfold pop len
  split_ifs with h0
  · simp [h0]
  · rw [Option.isSome_map, inner.pop_isSome]

theorem len_pop {h h' : Heap ι Item V} {e : Entry ι Item V} (hp : h.pop = some (e, h')) :
    h'.len + 1 = h.len := by
  have hl := List.Perm.length_eq (inner.pop_perm Entry.data data_stamp (pop_eq_some hp).1)
  simp only [List.length_map, Array.length_toList, List.length_append, List.length_singleton]
    at hl
  exact hl.symm

theorem contents_pop {h h' : Heap ι Item V} {e : Entry ι Item V} (hp : h.pop = some (e, h')) :
    h.contents.Perm (h'.contents ++ [e.data]) :=
  inner.pop_perm Entry.data data_stamp (pop_eq_some hp).1

theorem mem_contents_pop {h h' : Heap ι Item V} {e : Entry ι Item V} (hp : h.pop = some (e, h'))
    {d : ι × Item × V} : d ∈ h.contents ↔ d ∈ h'.contents ∨ d = e.data := by
  rw [(contents_pop hp).mem_iff, List.mem_append, List.mem_singleton]

/-- `Pop` takes the first entry. -/
theorem pop_first {h h' : Heap ι Item V} {e : Entry ι Item V} (hp : h.pop = some (e, h')) :
    h.first.map Entry.data = some e.data :=
  inner.pop_root Entry.data data_stamp (pop_eq_some hp).1

theorem Valid.pop {h h' : Heap ι Item V} (hv : h.Valid) {e : Entry ι Item V}
    (hp : h.pop = some (e, h')) : h'.Valid := by
  obtain ⟨ha, hl⟩ := pop_eq_some hp
  obtain ⟨hn, hk⟩ := hv.take_off (inner.pop_perm Entry.ID id_stamp ha) hl
  exact ⟨hv.ordered.pop ha, inner.stamped_pop Entry.Index index_stamp hv.stamped ha, hn, hk⟩

omit [DecidableEq ι] in
/-- The first entry has the least value. -/
theorem Valid.first_le {h : Heap ι Item V} (hv : h.Valid) {e : Entry ι Item V}
    (he : h.first = some e) {e' : Entry ι Item V} (he' : e' ∈ h.items.toList) : e.Val ≤ e'.Val := by
  obtain ⟨k, hk, rfl⟩ := List.getElem_of_mem he'
  refine hv.ordered.root_le (x := e.Val) ?_ k _ ?_
  · simp [Interface.keyAt, first] at he ⊢
    simp [he]
  · have hk' : k < h.items.size := by simpa using hk
    simp [Interface.keyAt, hk']

omit [DecidableEq ι] [LinearOrder V] in
theorem data_mem_of_first {h : Heap ι Item V} {e : Entry ι Item V} (he : h.first = some e) :
    e.data ∈ h.contents := by
  have hm : e ∈ h.items := Array.mem_of_getElem? he
  exact List.mem_map_of_mem (Array.mem_def.mp hm)

omit [DecidableEq ι] [LinearOrder V] in
theorem contents_eq_nil_of_first {h : Heap ι Item V} (he : h.first = none) : h.contents = [] := by
  have h0 : h.items.size = 0 := by
    by_contra hn
    rw [first, Array.getElem?_eq_getElem (Nat.pos_of_ne_zero hn)] at he
    cases he
  simp [contents, Array.toList_eq_nil_iff.mpr (Array.size_eq_zero_iff.mp h0)]

omit [DecidableEq ι] [LinearOrder V] in
theorem len_pos_of_first {h : Heap ι Item V} {e : Entry ι Item V} (he : h.first = some e) :
    0 < h.len := by
  by_contra hn
  rw [first, Array.getElem?_eq_none (Nat.le_of_not_lt hn)] at he
  cases he

omit [DecidableEq ι] in
/-- The first entry's value is at or below every value held. -/
theorem Valid.first_le_of_mem {h : Heap ι Item V} (hv : h.Valid) {e : Entry ι Item V}
    (he : h.first = some e) {d : ι × Item × V} (hd : d ∈ h.contents) : e.Val ≤ d.2.2 := by
  obtain ⟨e', he', rfl⟩ := List.mem_map.mp hd
  exact hv.first_le he he'

/-! ## `Get` and `Remove` -/

/-- With the ids distinct, `Get` finds the entry with that id. -/
theorem Valid.get_eq_some {h : Heap ι Item V} (hv : h.Valid) {id : ι} {e : Entry ι Item V} :
    h.get id = some e ↔ e ∈ h.items.toList ∧ e.ID = id := by
  constructor
  · intro hg
    unfold get at hg
    split_ifs at hg
    exact ⟨Array.mem_def.mp (Array.mem_of_find?_eq_some hg), by simpa using Array.find?_some hg⟩
  · rintro ⟨he, rfl⟩
    -- the id is held, so it is a key of `lookup`
    have hk : e.ID ∈ h.lookup := (hv.lookup e.ID).mpr (List.mem_map_of_mem he)
    have hs : (h.get e.ID).isSome := by
      rw [get, if_pos hk, Array.find?_isSome]
      exact ⟨e, Array.mem_def.mpr he, by simp⟩
    obtain ⟨e', he'⟩ := Option.isSome_iff_exists.mp hs
    rw [get, if_pos hk] at he'
    have hm := Array.mem_def.mp (Array.mem_of_find?_eq_some he')
    have hid : e'.ID = e.ID := by simpa using Array.find?_some he'
    rw [get, if_pos hk, he', List.inj_on_of_nodup_map hv.nodup hm he hid]

omit [DecidableEq ι] in
/-- An entry's `Index` is where it is. -/
theorem Valid.getElem?_index {h : Heap ι Item V} (hv : h.Valid) {e : Entry ι Item V}
    (he : e ∈ h.items.toList) : h.items[e.Index]? = some e := by
  obtain ⟨k, hk, rfl⟩ := List.getElem_of_mem he
  have hk' : h.items.toList[k] = h.items[k] := by simp
  rw [hk', hv.stamped k h.items[k] (by simp)]
  simp

theorem remove_eq_some {h h' : Heap ι Item V} {i : ℕ} {e : Entry ι Item V}
    (hr : h.remove i = some (e, h')) : i < h.len ∧ inner.remove h.items i = some (e, h'.items) ∧
      h'.lookup = h.lookup.erase e.ID := by
  unfold remove at hr
  split_ifs at hr with hi
  obtain ⟨⟨e', a⟩, he, hr⟩ := Option.map_eq_some_iff.mp hr
  cases hr
  exact ⟨Nat.lt_of_not_le hi, he, rfl⟩

theorem remove_isSome (h : Heap ι Item V) {i : ℕ} (hi : i < h.len) : (h.remove i).isSome := by
  unfold remove
  rw [if_neg (Nat.not_le_of_lt (show i < h.items.size from hi)), Option.isSome_map,
    inner.remove_isSome]
  exact Nat.lt_of_le_of_lt (Nat.zero_le _) hi

/-- `Remove` of the last position takes the last entry off, with no sifting. -/
theorem remove_last {h : Heap ι Item V} {e : Entry ι Item V} (he : h.items.back? = some e) :
    h.remove (h.len - 1) = some (e, ⟨h.items.pop, h.lookup.erase e.ID⟩) := by
  have hpos : 0 < h.items.size := by
    rw [Array.back?_eq_getElem?] at he
    by_contra h0
    rw [Nat.eq_zero_of_not_pos h0, Nat.zero_sub, Array.getElem?_eq_none (by omega)] at he
    cases he
  rw [Heap.remove, if_neg (by simp only [len]; omega), Interface.remove, Interface.removeSift,
    if_pos (by rfl), takeLast, he]
  rfl

theorem contents_remove {h h' : Heap ι Item V} {i : ℕ} {e : Entry ι Item V}
    (hr : h.remove i = some (e, h')) : h.contents.Perm (h'.contents ++ [e.data]) :=
  inner.remove_perm Entry.data data_stamp (remove_eq_some hr).2.1

/-- `Remove(i)` takes the entry at `i`. -/
theorem remove_at {h h' : Heap ι Item V} {i : ℕ} {e : Entry ι Item V}
    (hr : h.remove i = some (e, h')) : h.items[i]?.map Entry.data = some e.data :=
  inner.remove_at Entry.data data_stamp (remove_eq_some hr).1 (remove_eq_some hr).2.1

theorem Valid.remove {h h' : Heap ι Item V} (hv : h.Valid) {i : ℕ} {e : Entry ι Item V}
    (hr : h.remove i = some (e, h')) : h'.Valid := by
  obtain ⟨hi, ha, hl⟩ := remove_eq_some hr
  obtain ⟨hn, hk⟩ := hv.take_off (inner.remove_perm Entry.ID id_stamp ha) hl
  exact ⟨hv.ordered.remove hi ha, inner.stamped_remove Entry.Index index_stamp hv.stamped ha,
    hn, hk⟩

/-! ## Runs

The callers of `heap.Heap` keep a contract: a pushed entry has `Index = Len()`, and `Remove` is
given the index `Get(id)` reads for an id held (`eheap.Remove`, `OrderBook.Remove`). `Call` is a
call kept to it, and `step` is `none` for one that breaks it. A max-heap is the same heap over
the dual order of values (`Less` is `>`), so what follows, for every `LinearOrder`, is about
both. -/

/-- A call of the heap's API, as its callers make them. -/
inductive Call (ι Item V : Type)
  | push (e : Entry ι Item V)
  | pop
  /-- `Remove(Get(id).Index)`. -/
  | removeID (id : ι)

/-- The heap after a call; `none` where the call breaks the contract. `Pop` of an empty heap
returns `nil` and changes nothing. -/
def step (h : Heap ι Item V) : Call ι Item V → Option (Heap ι Item V)
  | .push e => if e.Index = h.len then some (h.push e) else none
  | .pop => some ((h.pop.map (·.2)).getD h)
  | .removeID id => (h.get id).bind fun e => (h.remove e.Index).map (·.2)

/-- The heap after a sequence of calls. -/
def run (h : Heap ι Item V) (cs : List (Call ι Item V)) : Option (Heap ι Item V) :=
  cs.foldlM step h

theorem Valid.step {h h' : Heap ι Item V} (hv : h.Valid) {c : Call ι Item V}
    (hs : h.step c = some h') : h'.Valid := by
  cases c with
  | push e =>
    simp only [Heap.step] at hs
    split_ifs at hs with hi
    cases hs
    exact hv.push e hi
  | pop =>
    simp only [Heap.step, Option.some.injEq] at hs
    subst hs
    cases hp : h.pop with
    | none => exact hv
    | some r =>
      obtain ⟨e, h'⟩ := r
      exact hv.pop hp
  | removeID id =>
    obtain ⟨e, -, hm⟩ := Option.bind_eq_some_iff.mp hs
    obtain ⟨⟨e', h'⟩, hr, rfl⟩ := Option.map_eq_some_iff.mp hm
    exact hv.remove hr

theorem Valid.run {h : Heap ι Item V} (hv : h.Valid) (cs : List (Call ι Item V)) :
    ∀ h', h.run cs = some h' → h'.Valid := by
  induction cs generalizing h with
  | nil =>
    intro h' hr
    cases hr
    exact hv
  | cons c cs ih =>
    intro h' hr
    obtain ⟨h₁, h₁s, hr⟩ := Option.bind_eq_some_iff.mp hr
    exact ih (hv.step h₁s) h' hr

/-- `Remove(Get(id).Index)` of an id held takes out exactly the entry with that id. -/
theorem Valid.remove_get {h : Heap ι Item V} (hv : h.Valid) {id : ι} {e : Entry ι Item V}
    (hg : h.get id = some e) :
    ∃ e' h', h.remove e.Index = some (e', h') ∧ e'.data = e.data ∧
      h.contents.Perm (h'.contents ++ [e.data]) ∧ id ∉ h'.ids := by
  obtain ⟨hmem, rfl⟩ := hv.get_eq_some.mp hg
  have hat := hv.getElem?_index hmem
  have hlt : e.Index < h.len := (Array.getElem?_eq_some_iff.mp hat).1
  obtain ⟨⟨e', h'⟩, hr⟩ := Option.isSome_iff_exists.mp (h.remove_isSome hlt)
  -- the entry taken is the one at `e.Index`, which is `e`
  have hd : e'.data = e.data := by
    have := remove_at hr
    rw [hat, Option.map_some, Option.some.injEq] at this
    exact this.symm
  have hperm := contents_remove hr
  rw [hd] at hperm
  refine ⟨e', h', hr, hd, hperm, fun hid => ?_⟩
  -- the id is held once, by `e`, so not by what is left
  have hn := hv.nodup_contents
  rw [hperm.nodup_iff, List.nodup_append] at hn
  obtain ⟨p, v, hpv⟩ := mem_ids_iff.mp hid
  have hne := hn.2.2 _ hpv _ (List.mem_singleton_self _)
  have hsame : (e.ID, p, v) = e.data := by
    have hids := (hperm.map Prod.fst).nodup_iff.mp (ids_eq h ▸ hv.nodup)
    rw [List.map_append, List.nodup_append] at hids
    exact absurd rfl (hids.2.2 _ (List.mem_map_of_mem hpv) _ (List.mem_singleton_self _))
  exact hne hsame

/-- **The indexed heap's representation invariant.** After any calls from `New` kept to the
contract: the slice is in heap order; each entry's `Index` is its position; the ids are distinct
and `Get(id)` finds exactly the entry with that id; a `Push` of an id held changes nothing;
`First()` has the least value; and `Remove(Get(id).Index)` takes out exactly the entry of `id`. -/
theorem indexed_heap_invariant (cs : List (Call ι Item V)) {h : Heap ι Item V}
    (hrun : (new : Heap ι Item V).run cs = some h) :
    inner.Ordered h.items ∧ (∀ (i : ℕ) (e : Entry ι Item V), h.items[i]? = some e → e.Index = i) ∧
      h.ids.Nodup ∧ (∀ id, id ∈ h.lookup ↔ id ∈ h.ids) ∧
      (∀ (id : ι) (e : Entry ι Item V), h.get id = some e ↔ e ∈ h.items.toList ∧ e.ID = id) ∧
      (∀ e : Entry ι Item V, h.has e.ID = true → h.push e = h) ∧
      (∀ e : Entry ι Item V, h.first = some e → ∀ e' ∈ h.items.toList, e.Val ≤ e'.Val) ∧
      ∀ (id : ι) (e : Entry ι Item V), h.get id = some e → ∃ e' h', h.remove e.Index = some (e', h') ∧
        e'.data = e.data ∧ h.contents.Perm (h'.contents ++ [e.data]) ∧ id ∉ h'.ids := by
  have hv := valid_new.run cs h hrun
  exact ⟨hv.ordered, hv.stamped, hv.nodup, hv.lookup, fun id e => hv.get_eq_some,
    fun e he => push_of_has hv he, fun e he e' he' => hv.first_le he he',
    fun id e hg => hv.remove_get hg⟩

/-- Three entries pushed with falling values, each sifted up to the root; `Pop` takes the last,
and `Remove(Get(1).Index)` the root, swapped with the last entry first: the entry of id `0` is
left, at index `0`, and `lookup` holds its id alone. -/
theorem indexed_heap_invariant_sift_pop_remove :
    ∃ h, (new : Heap ℕ Unit ℕ).run [.push ⟨0, (), 5, 0⟩, .push ⟨1, (), 3, 1⟩,
        .push ⟨2, (), 1, 2⟩, .pop, .removeID 1] = some h ∧
      h.contents = [(0, (), 5)] ∧ h.items.toList.map Entry.Index = [0] ∧ h.lookup = {0} ∧
      inner.Ordered h.items ∧ (∀ (i : ℕ) (e : Entry ℕ Unit ℕ), h.items[i]? = some e → e.Index = i) ∧
      h.ids.Nodup ∧ (∀ id, id ∈ h.lookup ↔ id ∈ h.ids) := by
  obtain ⟨h, hrun⟩ := Option.isSome_iff_exists.mp
    (show ((new : Heap ℕ Unit ℕ).run [.push ⟨0, (), 5, 0⟩, .push ⟨1, (), 3, 1⟩,
      .push ⟨2, (), 1, 2⟩, .pop, .removeID 1]).isSome by decide +kernel)
  have hr : ((new : Heap ℕ Unit ℕ).run [.push ⟨0, (), 5, 0⟩, .push ⟨1, (), 3, 1⟩,
      .push ⟨2, (), 1, 2⟩, .pop, .removeID 1]).map
        (fun h => (h.contents, h.items.toList.map Entry.Index, h.lookup)) =
      some ([(0, (), 5)], [0], {0}) := by
    decide +kernel
  rw [hrun, Option.map_some, Option.some.injEq, Prod.mk.injEq, Prod.mk.injEq] at hr
  have hinv := indexed_heap_invariant _ hrun
  exact ⟨h, hrun, hr.1, hr.2.1, hr.2.2, hinv.1, hinv.2.1, hinv.2.2.1, hinv.2.2.2.1⟩

end Heap

end Hypersdk.Heap
