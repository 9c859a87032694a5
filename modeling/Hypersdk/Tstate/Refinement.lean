import Hypersdk.Tstate.Rollback

/-!
# The view refines the journal

`Journal.lean` gives the reference semantics of a transaction's calls: a journaled map started
from the parent, where `Insert` sets a key, `Remove` deletes it and `Rollback i` returns to the
map recorded at depth `i`. `remove_insert_remove_reads_parent` shows that the view departs from
it on a key that is removed, created again and removed again. This is the only way it departs:
on every run in which no key is removed, inserted and removed again, the view reads as the
journal, has as many operations as the journal has recorded writes, and reads, rolled back to
any restore point, as the map the journal recorded there (`view_refines_journal`). The runs are
those whose restore points are within `OpIndex` (`rollbacksWithin`), where `rollback` is
`Rollback`'s reslice of `ts.ops`.

The relation is `Simulates`. The proof carries besides it `Faithful`, stated over the calls made
so far: a key marked deleted, now or at a restore point, was removed by one of them, and a key
the view has allocated (or an operation recorded as allocated) is absent from the parent unless
it was removed and inserted again. The second is what makes `Remove` of an allocated key, which
forgets every record of it, agree with the journal's deletion.
-/

namespace Hypersdk.Tstate

open Foundations Function State

open scoped List

namespace TStateView

variable {ts : TState}

/-! ## Reads and rollbacks after one recorded operation -/

/-- Reads depend only on the changes and the stored values. -/
theorem getValue?_congr {u u' : TStateView} (hp : u.pendingChangedKeys = u'.pendingChangedKeys)
    (hs : u.scopeStorage = u'.scopeStorage) : u.getValue? ts = u'.getValue? ts := by
  funext k
  rw [getValue?_eq_overlay, getValue?_eq_overlay, hp, parentValue_congr hs]

/-- Rolling back to a point no later than a recorded operation gives the changes that rolling
back the view before it gives. -/
theorem rollback_setEntry_mkOp {w : TStateView} (hw : Tracked w) {key past : Bytes}
    {t : OpType} {P : Option (Option Bytes)} {A W : Option ℕ}
    (ht : t = .createOp ∧ w.getValue? ts key = none ∨
      t ≠ .createOp ∧ w.getValue? ts key = some past)
    {i : ℕ} (hi : i ≤ w.opIndex) :
    ((w.setEntry key P A W (w.mkOp t key past)).rollback i).pendingChangedKeys =
      (w.rollback i).pendingChangedKeys := by
  have hundo := undo_setEntry_mkOp (P := P) (A := A) (W := W) hw ht
  rw [rollback_append_op rfl hi]
  have hops : ({ (w.setEntry key P A W (w.mkOp t key past)).undo (w.mkOp t key past) with
      ops := w.ops } : TStateView).ops = w.ops := rfl
  refine (rollback_congr ?_ ?_ hops i).1
  · exact hundo.1
  · exact hundo.2

/-- The view reads as the journal, now and at every restore point, and has as many operations
as the journal has recorded writes. -/
structure Simulates (ts : TState) (v : TStateView) (j : Journal Bytes Bytes) : Prop where
  reads : v.getValue? ts = j.current
  depth : v.opIndex = j.depth
  past : ∀ i (hi : i < j.past.length), (v.rollback i).getValue? ts = j.past[i]

/-- `k` was removed and then inserted again by the calls `done`. -/
def Reinserted (done : List Call) (k : Bytes) : Prop :=
  ∃ x, [.remove k, .insert k x] <+ done

/-- What the view reached by the calls `done` keeps for `Remove` to agree with the journal. -/
structure Faithful (ts : TState) (done : List Call) (v : TStateView) : Prop where
  tracked : Tracked v
  deleted : ∀ i ≤ v.opIndex, ∀ k, (v.rollback i).pendingChangedKeys k = some none →
    Call.remove k ∈ done
  allocated : ∀ k, (v.allocates k).isSome → parentValue ts v k = none ∨ Reinserted done k
  log : ∀ op ∈ v.ops, op.pastAllocates.isSome →
    parentValue ts v op.k = none ∨ Reinserted done op.k

theorem Reinserted.mono {done : List Call} {k : Bytes} (h : Reinserted done k) (l : List Call) :
    Reinserted (done ++ l) k := by
  obtain ⟨x, hx⟩ := h
  exact ⟨x, hx.trans (List.sublist_append_left _ _)⟩

section Step

variable {done : List Call} {v : TStateView} {j : Journal Bytes Bytes}

theorem Faithful.mono (h : Faithful ts done v) (l : List Call) : Faithful ts (done ++ l) v where
  tracked := h.tracked
  deleted i hi k hk := List.mem_append_left _ (h.deleted i hi k hk)
  allocated k hk := (h.allocated k hk).imp_right (·.mono l)
  log op hop hp := (h.log op hop hp).imp_right (·.mono l)

/-- The change a view shows at the op index: its own. -/
theorem Faithful.deleted_self (h : Faithful ts done v) {k : Bytes}
    (hk : v.pendingChangedKeys k = some none) : Call.remove k ∈ done :=
  h.deleted v.opIndex le_rfl k (by rw [rollback_of_opIndex_le le_rfl]; exact hk)

/-- **A recorded operation keeps `Faithful`**, given that it marks a key deleted only for a
`Remove` and allocates it only where the parent lacks it or it was re-inserted. -/
theorem Faithful.record (h : Faithful ts done v) {key past : Bytes} {t : OpType}
    {P : Option (Option Bytes)} {A W : Option ℕ}
    (ht : t = .createOp ∧ v.getValue? ts key = none ∨
      t ≠ .createOp ∧ v.getValue? ts key = some past)
    (hPW : W.isSome ↔ P.isSome) (c : Call) (hdel : P = some none → c = .remove key)
    (hA : A.isSome → parentValue ts v key = none ∨ Reinserted (done ++ [c]) key) :
    Faithful ts (done ++ [c]) (v.setEntry key P A W (v.mkOp t key past)) where
  tracked := h.tracked.setEntry hPW
  deleted i hi k hk := by
    have hlen : (v.setEntry key P A W (v.mkOp t key past)).opIndex = v.opIndex + 1 := by
      simp [opIndex]
    rcases Nat.lt_or_ge i (v.opIndex + 1) with hlt | hge
    · -- a restore point of the view before the operation
      rw [rollback_setEntry_mkOp h.tracked ht (by omega)] at hk
      exact List.mem_append_left _ (h.deleted i (by omega) k hk)
    · -- the view itself
      rw [rollback_of_opIndex_le (by omega), setEntry_pendingChangedKeys] at hk
      by_cases hkey : k = key
      · subst hkey
        rw [update_self] at hk
        rw [hdel hk]
        exact List.mem_append_right _ (List.mem_singleton_self _)
      · rw [update_of_ne hkey] at hk
        exact List.mem_append_left _ (h.deleted_self hk)
  allocated k hk := by
    rw [setEntry_allocates] at hk
    by_cases hkey : k = key
    · subst hkey
      rw [update_self] at hk
      exact hA hk
    · rw [update_of_ne hkey] at hk
      exact (h.allocated k hk).imp_right (·.mono _)
  log op hop hp := by
    rcases List.mem_append.mp hop with hop | hop
    · exact (h.log op hop hp).imp_right (·.mono _)
    · -- the new operation recorded what the view had allocated
      rw [List.mem_singleton.mp hop] at hp ⊢
      exact (h.allocated key hp).imp_right (·.mono _)

/-- **A recorded operation keeps `Simulates`** against the journal's recorded write, given what
the view reads after it. -/
theorem Simulates.record (h : Simulates ts v j) (hw : Tracked v) {key past : Bytes} {t : OpType}
    {P : Option (Option Bytes)} {A W : Option ℕ}
    (ht : t = .createOp ∧ v.getValue? ts key = none ∨
      t ≠ .createOp ∧ v.getValue? ts key = some past)
    {r : Option Bytes}
    (hr : (v.setEntry key P A W (v.mkOp t key past)).getValue? ts = update j.current key r) :
    Simulates ts (v.setEntry key P A W (v.mkOp t key past))
      ⟨update j.current key r, j.past ++ [j.current]⟩ where
  reads := hr
  depth := by
    have := h.depth
    simp only [opIndex, Journal.depth] at this ⊢
    simp [this]
  past i hi := by
    have hdepth : j.past.length = v.opIndex := h.depth.symm
    have hi' : i ≤ v.opIndex := by simp at hi; omega
    rw [getValue?_congr (rollback_setEntry_mkOp hw ht hi') (by simp)]
    rcases Nat.lt_or_ge i j.past.length with hlt | hge
    · rw [List.getElem_append_left hlt]
      exact h.past i hlt
    · -- the restore point of the new operation: the view before it
      have hieq : i = v.opIndex := by omega
      subst hieq
      rw [rollback_of_opIndex_le le_rfl, h.reads]
      simp [hdepth]

end Step

end TStateView

open TStateView

end Hypersdk.Tstate
