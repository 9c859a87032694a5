import Hypersdk.Heap.Heap
import Mathlib

/-!
# The expiry heap

`eheap/eheap.go`. An `ExpiryHeap` keeps items in a min-heap of `heap.Entry`s whose value is the
item's expiry. `Add` writes the entry's id and value from the item, so every entry is the entry
of its item (`Item.data`); that is a field of the heap here, with the heap's `Valid`, since the
loop of `SetMin` removes the first item by its id and ends only because that removes it.

The heap is read through `items`, what it holds in the order of its slice: `Add` adds an item
unless its id is there (`items_add`), `Remove(id)` takes the item of that id or nothing
(`remove_of_mem`, `remove_of_not_mem`), `PeekMin` is an item of least expiry, and `SetMin(t)`
returns the items that expire before `t` and keeps the others (`setMin_spec`).
-/

namespace Hypersdk.Eheap

set_option linter.dupNamespace false

open Heap

/-- `Item`: what the heap reads of an item. -/
structure Item (α ι : Type) where
  ID : α → ι
  Expiry : α → ℤ

variable {α ι : Type} [DecidableEq ι]

/-- The entry `Add` pushes for an item, without its index. -/
def Item.data (I : Item α ι) (x : α) : ι × α × ℤ := (I.ID x, x, I.Expiry x)

/-- `ExpiryHeap`: its min-heap, valid, with every entry the entry of its item. -/
structure ExpiryHeap (I : Item α ι) where
  minHeap : Heap ι α ℤ
  valid : minHeap.Valid
  entries : ∀ d ∈ minHeap.contents, I.data d.2.1 = d

variable {I : Item α ι}

theorem entries_push {h : Heap ι α ℤ} (hv : h.Valid) (hh : ∀ d ∈ h.contents, I.data d.2.1 = d)
    {e : Entry ι α ℤ} (he : I.data e.Item = e.data) :
    ∀ d ∈ (h.push e).contents, I.data d.2.1 = d := by
  cases hs : h.has e.ID
  · intro d hd
    rcases (Heap.mem_contents_push hs).mp hd with hd | rfl
    · exact hh d hd
    · exact he
  · rwa [Heap.push_of_has hv hs]

theorem entries_remove {h h' : Heap ι α ℤ} (hh : ∀ d ∈ h.contents, I.data d.2.1 = d) {i : ℕ}
    {e : Entry ι α ℤ} (hr : h.remove i = some (e, h')) :
    ∀ d ∈ h'.contents, I.data d.2.1 = d := fun d hd =>
  hh d ((Heap.contents_remove hr).symm.subset (List.mem_append_left _ hd))

namespace ExpiryHeap

variable (I) in
/-- `New`. -/
def new : ExpiryHeap I := ⟨Heap.new, Heap.valid_new, by simp⟩

/-- `Len`. -/
def len (eh : ExpiryHeap I) : ℕ := eh.minHeap.len

/-- `Has`. -/
def has (eh : ExpiryHeap I) (id : ι) : Bool := eh.minHeap.has id

/-- `Add`: push the item's entry, with its id and expiry, at the end of the slice. -/
def add (eh : ExpiryHeap I) (item : α) : ExpiryHeap I :=
  let e : Entry ι α ℤ := ⟨I.ID item, item, I.Expiry item, eh.minHeap.len⟩
  ⟨eh.minHeap.push e, eh.valid.push e rfl, entries_push eh.valid eh.entries rfl⟩

/-- `eh.minHeap.Remove(index)`, which leaves the heap as it is where it returns `nil`. -/
def removeEntry (eh : ExpiryHeap I) (index : ℕ) : ExpiryHeap I :=
  match hr : eh.minHeap.remove index with
  | none => eh
  | some (_, h') => ⟨h', eh.valid.remove hr, entries_remove eh.entries hr⟩

/-- `Remove(id)`: `Get` the entry of the id, then remove it at its `Index`. -/
def remove (eh : ExpiryHeap I) (id : ι) : ExpiryHeap I × Option α :=
  match eh.minHeap.get id with
  | none => (eh, none)
  | some minEntry => (eh.removeEntry minEntry.Index, some minEntry.Item)

/-- `PeekMin`. -/
def peekMin (eh : ExpiryHeap I) : Option α := eh.minHeap.first.map (·.Item)

/-- `PopMin`: the first item, removed by its id. -/
def popMin (eh : ExpiryHeap I) : ExpiryHeap I × Option α :=
  match eh.minHeap.first with
  | none => (eh, none)
  | some first => ((eh.remove (I.ID first.Item)).1, some first.Item)

/-- The items held, in the order of the slice. -/
def items (eh : ExpiryHeap I) : List α := eh.minHeap.contents.map (·.2.1)

omit [DecidableEq ι] in
theorem contents_eq (eh : ExpiryHeap I) : eh.minHeap.contents = eh.items.map I.data := by
  rw [items, List.map_map]
  conv_lhs => rw [← List.map_id eh.minHeap.contents]
  exact List.map_congr_left fun d hd => (eh.entries d hd).symm

omit [DecidableEq ι] in
theorem ids_eq (eh : ExpiryHeap I) : eh.minHeap.ids = eh.items.map I.ID := by
  rw [Heap.ids_eq, contents_eq, List.map_map]
  rfl

omit [DecidableEq ι] in
/-- The ids held are distinct. -/
theorem nodup_ids (eh : ExpiryHeap I) : (eh.items.map I.ID).Nodup :=
  eh.ids_eq ▸ eh.valid.nodup

omit [DecidableEq ι] in
theorem len_eq (eh : ExpiryHeap I) : eh.len = eh.items.length := by
  simp [len, Heap.len, items, Heap.contents]

omit [DecidableEq ι] in
@[simp] theorem items_new : (new I).items = [] := rfl

theorem has_iff {eh : ExpiryHeap I} {id : ι} : eh.has id = true ↔ ∃ x ∈ eh.items, I.ID x = id := by
  rw [has, eh.valid.has_iff, ids_eq, List.mem_map]

@[simp] theorem has_new (id : ι) : (new I).has id = false := by
  cases h : (new I).has id
  · rfl
  · simpa using has_iff.mp h

omit [DecidableEq ι] in
/-- The entry of a held item. -/
theorem exists_entry {eh : ExpiryHeap I} {x : α} (hx : x ∈ eh.items) :
    ∃ e ∈ eh.minHeap.items.toList, e.data = I.data x := by
  have hd : I.data x ∈ eh.minHeap.contents := by
    rw [contents_eq]
    exact List.mem_map_of_mem hx
  exact List.mem_map.mp hd

/-! ## `Add` -/

theorem items_add_of_has {eh : ExpiryHeap I} {x : α} (hx : eh.has (I.ID x) = true) :
    (eh.add x).items = eh.items := by
  simp only [items, add]
  rw [Heap.push_of_has (e := ⟨I.ID x, x, I.Expiry x, eh.minHeap.len⟩) eh.valid hx]

theorem items_add {eh : ExpiryHeap I} {x : α} (hx : eh.has (I.ID x) = false) :
    (eh.add x).items.Perm (eh.items ++ [x]) := by
  have hp := (Heap.contents_push (e := ⟨I.ID x, x, I.Expiry x, eh.minHeap.len⟩) hx).map (·.2.1)
  simpa [items, add, Entry.data] using hp

/-- `Has` after `Add`: the ids held before, and the item's. -/
theorem has_add (eh : ExpiryHeap I) (x : α) (id : ι) :
    (eh.add x).has id = (eh.has id || decide (I.ID x = id)) := by
  cases hx : eh.has (I.ID x) with
  | false =>
    have hmem := fun y => (items_add (I := I) hx).mem_iff (a := y)
    rw [Bool.eq_iff_iff, has_iff, Bool.or_eq_true, has_iff, decide_eq_true_iff]
    simp [hmem]
  | true =>
    -- the item's id is held already, so `Add` changes nothing
    have hsame : (eh.add x).has id = eh.has id := by
      rw [Bool.eq_iff_iff, has_iff, has_iff, items_add_of_has hx]
    rw [hsame]
    by_cases hid : I.ID x = id
    · subst hid
      simp [hx]
    · simp [hid]

/-! ## `Remove` -/

theorem removeEntry_of_remove {eh : ExpiryHeap I} {i : ℕ} {e : Entry ι α ℤ} {h' : Heap ι α ℤ}
    (hr : eh.minHeap.remove i = some (e, h')) : (eh.removeEntry i).minHeap = h' := by
  unfold removeEntry
  split
  · simp_all
  · rename_i heq
    rw [hr] at heq
    cases heq
    rfl

/-- `Remove` of a held item's id takes that item, and only it. -/
theorem remove_of_mem {eh : ExpiryHeap I} {x : α} (hx : x ∈ eh.items) :
    (eh.remove (I.ID x)).2 = some x ∧ eh.items.Perm ((eh.remove (I.ID x)).1.items ++ [x]) := by
  obtain ⟨e, he, hex⟩ := exists_entry hx
  have hid : e.ID = I.ID x := congrArg Prod.fst hex
  have hitem : e.Item = x := congrArg (·.2.1) hex
  have hget : eh.minHeap.get (I.ID x) = some e := eh.valid.get_eq_some.mpr ⟨he, hid⟩
  have hidx := eh.valid.getElem?_index he
  obtain ⟨hlt, -⟩ := Array.getElem?_eq_some_iff.mp hidx
  obtain ⟨⟨e', h'⟩, hr⟩ := Option.isSome_iff_exists.mp (eh.minHeap.remove_isSome hlt)
  have he' : e'.data = e.data := by
    have hat := Heap.remove_at hr
    rw [hidx, Option.map_some] at hat
    exact (Option.some.inj hat).symm
  have hmin : (eh.removeEntry e.Index).minHeap = h' := removeEntry_of_remove hr
  simp only [remove, hget, hitem, true_and]
  have hp := (Heap.contents_remove hr).map (·.2.1)
  rw [he', hex] at hp
  simpa [items, hmin, Item.data] using hp

/-- `Remove` of an id held by no item does nothing. -/
theorem remove_of_not_mem {eh : ExpiryHeap I} {id : ι} (hid : ∀ x ∈ eh.items, I.ID x ≠ id) :
    eh.remove id = (eh, none) := by
  have hget : eh.minHeap.get id = none := by
    cases hg : eh.minHeap.get id with
    | none => rfl
    | some e =>
      -- the entry `Get` finds is the entry of a held item with the id
      obtain ⟨he, rfl⟩ := eh.valid.get_eq_some.mp hg
      have hd : e.data ∈ eh.minHeap.contents := List.mem_map_of_mem he
      have hx : e.Item ∈ eh.items := List.mem_map_of_mem hd
      exact absurd (congrArg Prod.fst (eh.entries _ hd)) (hid e.Item hx)
  simp only [remove, hget]

/-- What `Remove` does to the items: it takes the item of the id, if there is one. -/
theorem remove_spec (eh : ExpiryHeap I) (id : ι) :
    (∃ x ∈ eh.items, I.ID x = id ∧ (eh.remove id).2 = some x ∧
      eh.items.Perm ((eh.remove id).1.items ++ [x])) ∨
    ((∀ x ∈ eh.items, I.ID x ≠ id) ∧ eh.remove id = (eh, none)) := by
  by_cases h : ∃ x ∈ eh.items, I.ID x = id
  · obtain ⟨x, hx, rfl⟩ := h
    exact .inl ⟨x, hx, rfl, remove_of_mem hx⟩
  · have hid : ∀ x ∈ eh.items, I.ID x ≠ id := fun x hx he => h ⟨x, hx, he⟩
    exact .inr ⟨hid, remove_of_not_mem hid⟩

/-! ## `PeekMin`, `PopMin` and `SetMin` -/

omit [DecidableEq ι] in
theorem first_of_peekMin {eh : ExpiryHeap I} {x : α} (h : eh.peekMin = some x) :
    ∃ e, eh.minHeap.first = some e ∧ e.Item = x := by
  simpa [peekMin] using h

omit [DecidableEq ι] in
/-- `PeekMin` is an item held, of least expiry. -/
theorem peekMin_spec {eh : ExpiryHeap I} {x : α} (h : eh.peekMin = some x) :
    x ∈ eh.items ∧ ∀ y ∈ eh.items, I.Expiry x ≤ I.Expiry y := by
  obtain ⟨e, hfirst, rfl⟩ := first_of_peekMin h
  have hd := Heap.data_mem_of_first hfirst
  have hval : e.Val = I.Expiry e.Item := (congrArg (·.2.2) (eh.entries _ hd)).symm
  refine ⟨List.mem_map_of_mem hd, fun y hy => ?_⟩
  have hy' : I.data y ∈ eh.minHeap.contents := by
    rw [contents_eq]
    exact List.mem_map_of_mem hy
  rw [← hval]
  exact eh.valid.first_le_of_mem hfirst hy'

omit [DecidableEq ι] in
theorem items_of_peekMin_eq_none {eh : ExpiryHeap I} (h : eh.peekMin = none) : eh.items = [] := by
  have hfirst : eh.minHeap.first = none := by simpa [peekMin] using h
  simp [items, Heap.contents_eq_nil_of_first hfirst]

theorem popMin_of_peekMin {eh : ExpiryHeap I} {x : α} (h : eh.peekMin = some x) :
    eh.popMin = ((eh.remove (I.ID x)).1, some x) := by
  obtain ⟨e, hfirst, rfl⟩ := first_of_peekMin h
  simp only [popMin, hfirst]

/-- `PopMin` after `PeekMin` gave `x` takes `x`. -/
theorem items_popMin {eh : ExpiryHeap I} {x : α} (h : eh.peekMin = some x) :
    eh.items.Perm (eh.popMin.1.items ++ [x]) := by
  rw [popMin_of_peekMin h]
  exact (remove_of_mem (peekMin_spec h).1).2

theorem len_popMin {eh : ExpiryHeap I} {x : α} (h : eh.peekMin = some x) :
    eh.popMin.1.len < eh.len := by
  have hl := (items_popMin h).length_eq
  rw [List.length_append, List.length_singleton] at hl
  rw [len_eq, len_eq]
  omega

/-- The loop of `SetMin`: while the least expiry is below `val`, pop that item and collect it. -/
def setMinLoop (val : ℤ) (eh : ExpiryHeap I) (removed : List α) : ExpiryHeap I × List α :=
  match _ : eh.peekMin with
  | none => (eh, removed)
  | some min =>
    if I.Expiry min < val then setMinLoop val eh.popMin.1 (removed ++ [min])
    else (eh, removed)
termination_by eh.len
decreasing_by exact len_popMin ‹_›

/-- `SetMin`. -/
def setMin (eh : ExpiryHeap I) (val : ℤ) : ExpiryHeap I × List α := setMinLoop val eh []

/-- The loop appends to what it was given the items it takes, all expiring before `val`, and
keeps only items expiring at `val` or later. -/
theorem setMinLoop_spec (val : ℤ) (eh : ExpiryHeap I) (removed : List α) :
    ∃ rest, (setMinLoop val eh removed).2 = removed ++ rest ∧
      eh.items.Perm (rest ++ (setMinLoop val eh removed).1.items) ∧
      (∀ x ∈ rest, I.Expiry x < val) ∧
      ∀ x ∈ (setMinLoop val eh removed).1.items, val ≤ I.Expiry x := by
  induction eh, removed using setMinLoop.induct (I := I) val with
  | case1 eh removed h =>
    rw [setMinLoop, h]
    simp [items_of_peekMin_eq_none h]
  | case2 eh removed min h hlt ih =>
    obtain ⟨rest, hr, hp, hlt', hge⟩ := ih
    rw [setMinLoop, h]
    simp only [if_pos hlt]
    refine ⟨min :: rest, by simpa using hr, ?_, ?_, hge⟩
    · exact ((items_popMin h).trans (List.perm_append_singleton _ _)).trans (hp.cons min)
    · intro x hx
      rcases List.mem_cons.mp hx with rfl | hx
      · exact hlt
      · exact hlt' x hx
  | case3 eh removed min h hge =>
    rw [setMinLoop, h]
    simp only [if_neg hge]
    obtain ⟨-, hmin⟩ := peekMin_spec h
    exact ⟨[], by simp, by simp, by simp, fun x hx => le_trans (not_lt.mp hge) (hmin x hx)⟩

omit [DecidableEq ι] in
/-- Two lists that make up `l` between them, one of items where `p` holds and one where it
fails, are the two filters of `l`. -/
theorem perm_filter_of_perm_append {l l₁ l₂ : List α} {p : α → Bool} (h : l.Perm (l₁ ++ l₂))
    (h₁ : ∀ x ∈ l₁, p x) (h₂ : ∀ x ∈ l₂, ¬ p x) :
    l₁.Perm (l.filter p) ∧ l₂.Perm (l.filter fun x => !p x) := by
  have hf₁ : l₁.filter p = l₁ := List.filter_eq_self.mpr h₁
  have hf₂ : l₂.filter p = [] := List.filter_eq_nil_iff.mpr h₂
  have hg₁ : (l₁.filter fun x => !p x) = [] := List.filter_eq_nil_iff.mpr (by simpa using h₁)
  have hg₂ : (l₂.filter fun x => !p x) = l₂ := List.filter_eq_self.mpr (by simpa using h₂)
  constructor
  · simpa [List.filter_append, hf₁, hf₂] using (h.filter p).symm
  · simpa [List.filter_append, hg₁, hg₂] using (h.filter fun x => !p x).symm

/-- **`SetMin`**: it returns exactly the items that expire before `val`, and keeps exactly the
others. -/
theorem setMin_spec (eh : ExpiryHeap I) (val : ℤ) :
    (eh.setMin val).2.Perm (eh.items.filter fun x => I.Expiry x < val) ∧
      (eh.setMin val).1.items.Perm (eh.items.filter fun x => !decide (I.Expiry x < val)) := by
  obtain ⟨rest, hr, hp, hlt, hge⟩ := setMinLoop_spec val eh []
  rw [List.nil_append] at hr
  rw [setMin, hr]
  exact perm_filter_of_perm_append hp (by simpa using hlt) (by simpa using hge)

end ExpiryHeap

end Hypersdk.Eheap
