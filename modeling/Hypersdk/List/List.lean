import Mathlib

/-!
# The linked list

`list/list.go`: a doubly linked list of `Element`s behind a sentinel `root`, with its `size`.
A list is read here as its elements from the first to the last, an element by its pointer
(`addr`) and its value, and `size` as the length. `PushFront` and `PushBack` link the element
they allocate, at an address no element has, at either end. `Remove(e)` unlinks `e` when
`e.list` is the list, that is when the list links the element at `e`'s address, and does nothing
otherwise; with the addresses distinct it takes exactly `e` (`perm_remove`).
-/

namespace Hypersdk.Linked

/-- `Element`, by its pointer and its value. -/
structure Element (α : Type) where
  addr : ℕ
  value : α

variable {α : Type}

/-- `First`. -/
def first (l : List (Element α)) : Option (Element α) := l.head?

/-- `PushFront`, for the element `e` it allocates. -/
def pushFront (l : List (Element α)) (e : Element α) : List (Element α) := e :: l

/-- `PushBack`, for the element `e` it allocates. -/
def pushBack (l : List (Element α)) (e : Element α) : List (Element α) := l ++ [e]

/-- `Remove(e)`: unlink the element at `e`'s address if the list links it. `Remove` returns
`e.value`. -/
def remove (l : List (Element α)) (e : Element α) : List (Element α) :=
  l.eraseP fun x => x.addr == e.addr

/-- `Size`. -/
def size (l : List (Element α)) : ℕ := l.length

theorem perm_pushBack (l : List (Element α)) (e : Element α) : (pushBack l e).Perm (e :: l) :=
  List.perm_append_singleton e l

theorem mem_of_first {l : List (Element α)} {e : Element α} (h : first l = some e) : e ∈ l :=
  List.mem_of_mem_head? h

theorem eq_nil_of_first {l : List (Element α)} (h : first l = none) : l = [] :=
  List.head?_eq_none_iff.mp h

/-- `Remove` of the first element leaves the rest. -/
theorem remove_of_first {l : List (Element α)} {e : Element α} (h : first l = some e) :
    remove l e = l.tail := by
  obtain ⟨l', rfl⟩ : ∃ l', l = e :: l' := by
    cases l with
    | nil => cases h
    | cons a l' =>
      cases h
      exact ⟨l', rfl⟩
  simp [remove]

theorem remove_sublist (l : List (Element α)) (e : Element α) : (remove l e).Sublist l :=
  List.eraseP_sublist

/-- With the addresses distinct, `Remove` of an element the list links takes exactly it. -/
theorem perm_remove {l : List (Element α)} {e : Element α} (he : e ∈ l)
    (hn : (l.map (·.addr)).Nodup) : l.Perm (e :: remove l e) := by
  obtain ⟨a, l₁, l₂, -, ha, rfl, hr⟩ :=
    List.exists_of_eraseP (p := fun x => x.addr == e.addr) he (by simp)
  have hae : a = e :=
    List.inj_on_of_nodup_map hn (by simp) he (by simpa using ha)
  rw [remove, hr, hae]
  exact List.perm_middle

end Hypersdk.Linked
