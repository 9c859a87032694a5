import Hypersdk.Emap.Emap
import Hypersdk.Heap.Heap

/-!
# The map as `emap.go` keeps it

`EMap` with its three parts as the code has them: `seen`; `times`, from each time to the bucket
of that time; and `bh`, a `heap.Heap` with one entry per bucket, whose value is the bucket's time
and whose item is the bucket. The buckets are shared by pointer between `times` and the heap,
and `add` appends to a bucket through the pointer `times` gives: here a bucket lives at an
address of `buckets`, and `next` is the first address not yet handed out.

`Inv` is what the code's map keeps of itself: `times` and the heap point to the same buckets,
each entry's bucket has the entry's time and holds the entry's id, and no entry points past
`next`. `Refines` relates the code's map to the one of `Emap.lean`: the buckets the heap points
to are, in some order, the list of buckets, and `seen` is the same. `add` and `SetMin` keep it
(`Refines.add`, `Refines.setMin`), and `SetMin` returns what the list's `SetMin` returns, so
every run of the code's map refines the run of the list (`refines_run`).
-/

namespace Hypersdk.Emap.Impl

open Heap

variable {ι α : Type} [DecidableEq ι]

/-- `EMap`, with its buckets at addresses. -/
structure EMap (ι : Type) where
  seen : Finset ι
  times : ℤ → Option ℕ
  bh : Heap ι ℕ ℤ
  buckets : ℕ → Option (Bucket ι)
  next : ℕ

namespace EMap

/-- `NewEMap`. -/
def new : EMap ι := ⟨∅, fun _ => none, Heap.new, fun _ => none, 0⟩

/-- The items of the bucket at address `p`. -/
def itemsAt (e : EMap ι) (p : ℕ) : List ι := ((e.buckets p).map (·.items)).getD []

/-- `add`: nothing for a genesis expiry or an id seen already; otherwise the id goes to the
bucket `times` points to, or to a new bucket pushed on the heap. -/
def add (e : EMap ι) (id : ι) (t : ℤ) : EMap ι :=
  if t = 0 then e
  else if id ∈ e.seen then e
  else
    match e.times t with
    | some p =>
      { e with
        seen := insert id e.seen
        buckets := Function.update e.buckets p
          ((e.buckets p).map fun b => ⟨b.t, b.items ++ [id]⟩) }
    | none =>
      { seen := insert id e.seen
        times := Function.update e.times t (some e.next)
        bh := e.bh.push ⟨id, e.next, t, e.bh.len⟩
        buckets := Function.update e.buckets e.next (some ⟨t, [id]⟩)
        next := e.next + 1 }

/-- `Add`: the items' ids with their expiries, in order. -/
def addAll (e : EMap ι) (ID : α → ι) (expiry : α → ℤ) (items : List α) : EMap ι :=
  items.foldl (fun e x => e.add (ID x) (expiry x)) e

/-- The loop of `SetMin`: while the first bucket of the heap is older than `t`, pop it, forget
its ids and its time, and collect the ids. -/
def setMinLoop (t : ℤ) (e : EMap ι) (evicted : List ι) : EMap ι × List ι :=
  match e.bh.first with
  | none => (e, evicted)
  | some b =>
    if t ≤ b.Val then (e, evicted)
    else
      match _ : e.bh.pop with
      | none => (e, evicted)
      | some (_, bh) =>
        setMinLoop t
          { e with
            bh := bh
            seen := e.seen \ (e.itemsAt b.Item).toFinset
            times := Function.update e.times b.Val none }
          (evicted ++ e.itemsAt b.Item)
termination_by e.bh.len
decreasing_by
  have := Heap.len_pop ‹_›
  omega

/-- `SetMin`. -/
def setMin (e : EMap ι) (t : ℤ) : EMap ι × List ι := setMinLoop t e []

/-- The map after one event. -/
def event (e : EMap ι) : Event ι → EMap ι
  | .add id t => e.add id t
  | .setMin t => (e.setMin t).1

/-- The buckets the heap's entries point to, in the order of its slice. -/
def heapBuckets (e : EMap ι) : List (Bucket ι) := e.bh.contents.filterMap fun d => e.buckets d.2.1

/-- What the code's map keeps of itself. -/
structure Inv (e : EMap ι) : Prop where
  heap : e.bh.Valid
  /-- `times` and the heap point to the same buckets. -/
  times_iff : ∀ t p, e.times t = some p ↔ ∃ id, (id, p, t) ∈ e.bh.contents
  /-- Each entry's bucket has the entry's time and holds the entry's id. -/
  bucket : ∀ id p t, (id, p, t) ∈ e.bh.contents → ∃ b, e.buckets p = some b ∧ b.t = t ∧ id ∈ b.items
  /-- No entry points past `next`. -/
  fresh : ∀ d ∈ e.bh.contents, d.2.1 < e.next

/-- The code's map and the list of buckets hold the same: the heap's buckets are the list's, in
some order, and `seen` is the same. -/
structure Refines (e : EMap ι) (a : Emap.EMap ι) : Prop where
  inv : e.Inv
  seen : e.seen = a.seen
  buckets : e.heapBuckets.Perm a.bh

omit [DecidableEq ι] in
theorem refines_new : (new : EMap ι).Refines Emap.EMap.new where
  inv :=
    { heap := Heap.valid_new
      times_iff := fun _ _ => by simp [new]
      bucket := fun _ _ _ h => by simp [new] at h
      fresh := fun _ h => by simp [new] at h }
  seen := rfl
  buckets := by simp [heapBuckets, new, Emap.EMap.new]

omit [DecidableEq ι] in
/-- A bucket the heap points to, with the entry that points to it. -/
theorem Inv.mem_heapBuckets {e : EMap ι} (hi : e.Inv) {b : Bucket ι} :
    b ∈ e.heapBuckets ↔ ∃ id p, (id, p, b.t) ∈ e.bh.contents ∧ e.buckets p = some b := by
  rw [heapBuckets, List.mem_filterMap]
  constructor
  · rintro ⟨⟨id, p, t⟩, hd, hb⟩
    obtain ⟨b', hb', rfl, -⟩ := hi.bucket _ _ _ hd
    rw [hb'] at hb
    cases hb
    exact ⟨id, p, hd, hb'⟩
  · rintro ⟨id, p, hd, hb⟩
    exact ⟨_, hd, hb⟩

omit [DecidableEq ι] in
/-- The list has a bucket of time `t` exactly where `times` has one. -/
theorem Refines.exists_bucket_iff {e : EMap ι} {a : Emap.EMap ι} (h : e.Refines a) (t : ℤ) :
    (∃ b ∈ a.bh, b.t = t) ↔ (e.times t).isSome := by
  constructor
  · rintro ⟨b, hb, rfl⟩
    obtain ⟨id, p, hd, -⟩ := h.inv.mem_heapBuckets.mp (h.buckets.mem_iff.mpr hb)
    rw [(h.inv.times_iff b.t p).mpr ⟨id, hd⟩]
    rfl
  · intro hs
    obtain ⟨p, hp⟩ := Option.isSome_iff_exists.mp hs
    obtain ⟨id, hd⟩ := (h.inv.times_iff t p).mp hp
    obtain ⟨b, hb, rfl, -⟩ := h.inv.bucket _ _ _ hd
    exact ⟨b, h.buckets.mem_iff.mp (h.inv.mem_heapBuckets.mpr ⟨id, p, hd, hb⟩), rfl⟩

/-- An id not seen is in no bucket, so no entry of the heap has it. -/
theorem Refines.has_eq_false {e : EMap ι} {a : Emap.EMap ι} {m : ι → Option ℤ} (h : e.Refines a)
    (ha : a.Valid m) {id : ι} (hs : id ∉ e.seen) : e.bh.has id = false := by
  rw [Bool.eq_false_iff, ne_eq, h.inv.heap.has_iff, Heap.mem_ids_iff]
  rintro ⟨p, t, hd⟩
  obtain ⟨b, hb, rfl, hin⟩ := h.inv.bucket _ _ _ hd
  have hmem := h.buckets.mem_iff.mp (h.inv.mem_heapBuckets.mpr ⟨id, p, hd, hb⟩)
  have hm := (ha.recorded_iff id b.t).mp ⟨b, hmem, rfl, hin⟩
  exact hs (h.seen ▸ (ha.seen_iff id).mpr (by rw [hm]; rfl))

/-- `add` through the pointer `times` gives: the bucket there is the list's bucket of time `t`. -/
theorem Refines.add_of_times_eq_some {e : EMap ι} {a : Emap.EMap ι} {m : ι → Option ℤ}
    (h : e.Refines a) (ha : a.Valid m) (id : ι) {t : ℤ} {p : ℕ} (hp : e.times t = some p) :
    Refines { e with
        seen := insert id e.seen
        buckets := Function.update e.buckets p ((e.buckets p).map fun b => ⟨b.t, b.items ++ [id]⟩) }
      ⟨Emap.EMap.pushItem id t a.bh, insert id a.seen⟩ := by
  obtain ⟨id₀, hd₀⟩ := (h.inv.times_iff t p).mp hp
  obtain ⟨b₀, hb₀, hb₀t, -⟩ := h.inv.bucket _ _ _ hd₀
  have hex : ∃ b ∈ a.bh, b.t = t := (h.exists_bucket_iff t).mpr (by rw [hp]; rfl)
  rw [Emap.EMap.pushItem_of_exists ha.sorted hex]
  -- at every pointer the new buckets are the old ones with `id` appended to the bucket of `t`
  have hat : ∀ d ∈ e.bh.contents, Function.update e.buckets p
      ((e.buckets p).map fun b => ⟨b.t, b.items ++ [id]⟩) d.2.1 =
        (e.buckets d.2.1).map (Emap.EMap.appendAt id t) := by
    rintro ⟨id', q, t'⟩ hd
    obtain ⟨b, hb, rfl, -⟩ := h.inv.bucket _ _ _ hd
    by_cases hq : q = p
    · subst hq
      rw [Function.update_self, hb]
      rw [hb] at hb₀
      cases hb₀
      simp [Emap.EMap.appendAt, hb₀t]
    · -- a bucket at another pointer has another time, or `times` would point there
      have ht : b.t ≠ t := fun ht => hq (Option.some.inj
        (((h.inv.times_iff t q).mpr ⟨id', ht ▸ hd⟩).symm.trans hp))
      rw [Function.update_of_ne hq, hb]
      simp [Emap.EMap.appendAt, ht]
  refine ⟨⟨h.inv.heap, h.inv.times_iff, fun id' q t' hd => ?_, h.inv.fresh⟩, by simp [h.seen], ?_⟩
  · dsimp only at hd ⊢
    obtain ⟨b, hb, rfl, hin⟩ := h.inv.bucket _ _ _ hd
    refine ⟨Emap.EMap.appendAt id t b, ?_, ?_, ?_⟩
    · rw [hat _ hd, hb]
      rfl
    · unfold Emap.EMap.appendAt
      split_ifs <;> rfl
    · unfold Emap.EMap.appendAt
      split_ifs
      · exact List.mem_append_left _ hin
      · exact hin
  · have hhb : heapBuckets { e with
        seen := insert id e.seen
        buckets := Function.update e.buckets p
          ((e.buckets p).map fun b => ⟨b.t, b.items ++ [id]⟩) } =
        e.heapBuckets.map (Emap.EMap.appendAt id t) := by
      rw [heapBuckets, heapBuckets, List.map_filterMap]
      exact List.filterMap_congr hat
    rw [hhb]
    exact h.buckets.map _

/-- `add` of a time `times` does not have: a new bucket, at a fresh address, pushed on the
heap. -/
theorem Refines.add_of_times_eq_none {e : EMap ι} {a : Emap.EMap ι} {m : ι → Option ℤ}
    (h : e.Refines a) (ha : a.Valid m) {id : ι} (hs : id ∉ e.seen) {t : ℤ}
    (hp : e.times t = none) :
    Refines
      { seen := insert id e.seen
        times := Function.update e.times t (some e.next)
        bh := e.bh.push ⟨id, e.next, t, e.bh.len⟩
        buckets := Function.update e.buckets e.next (some ⟨t, [id]⟩)
        next := e.next + 1 }
      ⟨Emap.EMap.pushItem id t a.bh, insert id a.seen⟩ := by
  have hhas := h.has_eq_false ha hs
  have hmem : ∀ d, d ∈ (e.bh.push ⟨id, e.next, t, e.bh.len⟩).contents ↔
      d ∈ e.bh.contents ∨ d = (id, e.next, t) := fun d => Heap.mem_contents_push hhas
  -- no entry has time `t`
  have hnone : ∀ id' p, (id', p, t) ∉ e.bh.contents := fun id' p hd => by
    rw [(h.inv.times_iff t p).mpr ⟨id', hd⟩] at hp
    cases hp
  have hold : ∀ d ∈ e.bh.contents, d.2.1 ≠ e.next := fun d hd => Nat.ne_of_lt (h.inv.fresh d hd)
  refine ⟨⟨h.inv.heap.push _ rfl, fun t' p => ?_, fun id' q t' hd => ?_, fun d hd => ?_⟩,
    by simp [h.seen], ?_⟩
  · -- `times` points to the new bucket at `t`, and elsewhere where it did
    dsimp only
    simp only [hmem, Prod.mk.injEq]
    by_cases ht : t' = t
    · subst ht
      simp only [Function.update_self, Option.some.injEq]
      constructor
      · rintro rfl
        exact ⟨id, .inr ⟨rfl, rfl, by trivial⟩⟩
      · rintro ⟨id', hd | ⟨-, rfl, -⟩⟩
        · exact absurd hd (hnone id' p)
        · rfl
    · rw [Function.update_of_ne ht, h.inv.times_iff]
      constructor
      · rintro ⟨id', hd⟩
        exact ⟨id', .inl hd⟩
      · rintro ⟨id', hd | ⟨-, -, hte⟩⟩
        · exact ⟨id', hd⟩
        · exact absurd hte ht
  · dsimp only
    rcases (hmem _).mp hd with hd | hd
    · rw [Function.update_of_ne (hold _ hd)]
      exact h.inv.bucket _ _ _ hd
    · simp only [Prod.mk.injEq] at hd
      obtain ⟨rfl, rfl, rfl⟩ := hd
      exact ⟨_, Function.update_self .., rfl, List.mem_singleton_self _⟩
  · rcases (hmem d).mp hd with hd | rfl
    · exact Nat.lt_succ_of_lt (h.inv.fresh d hd)
    · exact Nat.lt_succ_self _
  · -- the heap's buckets are the old ones and the new one, as `pushItem`'s are
    have hc := Heap.contents_push (e := ⟨id, e.next, t, e.bh.len⟩) hhas
    have hf := hc.filterMap fun d => Function.update e.buckets e.next (some ⟨t, [id]⟩) d.2.1
    rw [List.filterMap_append] at hf
    have hkeep : e.bh.contents.filterMap
        (fun d => Function.update e.buckets e.next (some ⟨t, [id]⟩) d.2.1) = e.heapBuckets :=
      List.filterMap_congr fun d hd => Function.update_of_ne (hold d hd) _ _
    rw [hkeep] at hf
    refine hf.trans ?_
    simp only [Heap.Entry.data, List.filterMap_cons, Function.update_self, List.filterMap_nil]
    refine (h.buckets.append_right _).trans (Emap.EMap.pushItem_perm_of_forall fun b hb hbt => ?_).symm
    have hsome := (h.exists_bucket_iff t).mp ⟨b, hb, hbt⟩
    rw [hp] at hsome
    cases hsome

/-- **`add`** keeps the refinement. -/
theorem Refines.add {e : EMap ι} {a : Emap.EMap ι} {m : ι → Option ℤ} (h : e.Refines a)
    (ha : a.Valid m) (id : ι) (t : ℤ) : (e.add id t).Refines (a.add id t) := by
  unfold EMap.add Emap.EMap.add
  by_cases ht : t = 0
  · simpa only [ht, if_true] using h
  by_cases hs : id ∈ e.seen
  · have hs' : id ∈ a.seen := h.seen ▸ hs
    simpa only [ht, hs, hs', if_false, if_true] using h
  have hs' : id ∉ a.seen := h.seen ▸ hs
  simp only [ht, hs, hs', if_false]
  cases hp : e.times t with
  | some p => exact h.add_of_times_eq_some ha id hp
  | none => exact h.add_of_times_eq_none ha hs hp

/-! ### `SetMin` -/

theorem setMinLoop_of_first_eq_none {e : EMap ι} (t : ℤ) (evicted : List ι)
    (hf : e.bh.first = none) : e.setMinLoop t evicted = (e, evicted) := by
  rw [setMinLoop]
  split
  · rfl
  · simp_all

theorem setMinLoop_of_le {e : EMap ι} {t : ℤ} (evicted : List ι) {b : Entry ι ℕ ℤ}
    (hf : e.bh.first = some b) (hb : t ≤ b.Val) : e.setMinLoop t evicted = (e, evicted) := by
  rw [setMinLoop]
  split
  · rfl
  · rename_i b' hb'
    rw [hf] at hb'
    cases hb'
    rw [if_pos hb]

theorem setMinLoop_of_pop {e : EMap ι} {t : ℤ} (evicted : List ι) {b x : Entry ι ℕ ℤ}
    {bh : Heap ι ℕ ℤ} (hf : e.bh.first = some b) (hb : ¬ t ≤ b.Val) (hp : e.bh.pop = some (x, bh)) :
    e.setMinLoop t evicted =
      setMinLoop t
        { e with
          bh := bh
          seen := e.seen \ (e.itemsAt b.Item).toFinset
          times := Function.update e.times b.Val none }
        (evicted ++ e.itemsAt b.Item) := by
  rw [setMinLoop]
  split
  · simp_all
  · rename_i b' hb'
    rw [hf] at hb'
    cases hb'
    rw [if_neg hb]
    split
    · simp_all
    · rename_i x' bh' hp'
      rw [hp] at hp'
      cases hp'
      rfl

omit [DecidableEq ι] in
/-- The heap's first bucket is the head of the list: it has the least time, and the times of
the list are distinct. -/
theorem Refines.head {e : EMap ι} {a : Emap.EMap ι} (h : e.Refines a)
    (hs : a.bh.Pairwise fun b b' => b.t < b'.t) {en : Entry ι ℕ ℤ} (hf : e.bh.first = some en) :
    ∃ b bs, a.bh = b :: bs ∧ e.buckets en.Item = some b ∧ b.t = en.Val := by
  have hd := Heap.data_mem_of_first hf
  obtain ⟨b₀, hb₀, hb₀t, -⟩ := h.inv.bucket _ _ _ hd
  have hmem : b₀ ∈ a.bh :=
    h.buckets.mem_iff.mp (h.inv.mem_heapBuckets.mpr ⟨en.ID, en.Item, hb₀t ▸ hd, hb₀⟩)
  obtain ⟨b, bs, hbs⟩ := List.exists_cons_of_ne_nil (List.ne_nil_of_mem hmem)
  obtain ⟨id, p, hdb, -⟩ := h.inv.mem_heapBuckets.mp
    (h.buckets.mem_iff.mpr (hbs ▸ List.mem_cons_self ..))
  have hle : en.Val ≤ b.t := h.inv.heap.first_le_of_mem hf hdb
  have hbb : b₀ = b := by
    rw [hbs] at hs hmem
    rcases List.mem_cons.mp hmem with hbb | hmem'
    · exact hbb
    · exact absurd ((List.pairwise_cons.mp hs).1 b₀ hmem') (not_lt.mpr (hb₀t ▸ hle))
  exact ⟨b, bs, hbs, hbb ▸ hb₀, hbb ▸ hb₀t⟩

/-- One turn of `SetMin`'s loop: popping the first entry and forgetting its bucket is taking
the head of the list off. -/
theorem Refines.pop {e : EMap ι} {a : Emap.EMap ι} (h : e.Refines a)
    (hs : a.bh.Pairwise fun b b' => b.t < b'.t) {en x : Entry ι ℕ ℤ} {bh : Heap ι ℕ ℤ}
    (hf : e.bh.first = some en) (hp : e.bh.pop = some (x, bh)) {b : Bucket ι} {bs : List (Bucket ι)}
    (hab : a.bh = b :: bs) (hb : e.buckets en.Item = some b) (hbt : b.t = en.Val) :
    Refines
      { e with
        bh := bh
        seen := e.seen \ (e.itemsAt en.Item).toFinset
        times := Function.update e.times en.Val none }
      ⟨bs, a.seen \ b.items.toFinset⟩ := by
  have hx : x.data = en.data := by
    have := Heap.pop_first hp
    rw [hf] at this
    exact (Option.some.inj this).symm
  have hmem : ∀ d, d ∈ e.bh.contents ↔ d ∈ bh.contents ∨ d = en.data := fun d => by
    rw [Heap.mem_contents_pop hp, hx]
  have hitems : e.itemsAt en.Item = b.items := by simp [itemsAt, hb]
  -- the buckets left are the list's tail
  have hperm : heapBuckets { e with
      bh := bh
      seen := e.seen \ (e.itemsAt en.Item).toFinset
      times := Function.update e.times en.Val none } |>.Perm bs := by
    have hf' := (Heap.contents_pop hp).filterMap fun d => e.buckets d.2.1
    rw [List.filterMap_append, hx] at hf'
    simp only [Heap.Entry.data, List.filterMap_cons, hb, List.filterMap_nil] at hf'
    have hcomm : a.bh.Perm (bs ++ [b]) := by
      rw [hab]
      exact @List.perm_append_comm _ [b] bs
    have := (hf'.symm.trans h.buckets).trans hcomm
    exact (List.perm_append_right_iff _).mp this
  -- no bucket left has the popped time
  have hlater : ∀ id p, (id, p, en.Val) ∉ bh.contents := fun id p hd => by
    obtain ⟨b', hb', hb't, -⟩ := h.inv.bucket id p en.Val ((hmem _).mpr (.inl hd))
    have hm : b' ∈ heapBuckets { e with
        bh := bh
        seen := e.seen \ (e.itemsAt en.Item).toFinset
        times := Function.update e.times en.Val none } :=
      List.mem_filterMap.mpr ⟨_, hd, hb'⟩
    rw [hab] at hs
    exact absurd ((List.pairwise_cons.mp hs).1 b' (hperm.mem_iff.mp hm)) (by omega)
  refine ⟨⟨h.inv.heap.pop hp, fun t' p => ?_, fun id p t' hd => ?_, fun d hd => ?_⟩, ?_, hperm⟩
  · dsimp only
    by_cases ht : t' = en.Val
    · subst ht
      rw [Function.update_self]
      simp only [reduceCtorEq, false_iff, not_exists]
      exact fun id => hlater id p
    · rw [Function.update_of_ne ht, h.inv.times_iff]
      constructor
      · rintro ⟨id, hd⟩
        rcases (hmem _).mp hd with hd | hd
        · exact ⟨id, hd⟩
        · exact absurd (congrArg (·.2.2) hd) ht
      · rintro ⟨id, hd⟩
        exact ⟨id, (hmem _).mpr (.inl hd)⟩
  · exact h.inv.bucket id p t' ((hmem _).mpr (.inl hd))
  · exact h.inv.fresh d ((hmem d).mpr (.inl hd))
  · simp [hitems, h.seen]

/-- **`SetMin`'s loop** keeps the refinement, and collects the ids the list's loop collects. -/
theorem Refines.setMinLoop {e : EMap ι} {a : Emap.EMap ι} (h : e.Refines a)
    (hs : a.bh.Pairwise fun b b' => b.t < b'.t) (t : ℤ) (evicted : List ι) :
    (e.setMinLoop t evicted).1.Refines
        ⟨(Emap.EMap.setMinLoop t a.bh a.seen evicted).1,
          (Emap.EMap.setMinLoop t a.bh a.seen evicted).2.1⟩ ∧
      (e.setMinLoop t evicted).2 = (Emap.EMap.setMinLoop t a.bh a.seen evicted).2.2 := by
  induction e, evicted using EMap.setMinLoop.induct (ι := ι) t generalizing a with
  | case1 e evicted hf =>
    -- an empty heap: the list is empty too
    have hnil : a.bh = [] := by
      have := h.buckets
      rw [heapBuckets, Heap.contents_eq_nil_of_first hf] at this
      exact List.Perm.nil_eq this |>.symm
    rw [setMinLoop_of_first_eq_none t evicted hf, hnil]
    obtain ⟨bh, seen⟩ := a
    simp only at hnil
    subst hnil
    exact ⟨h, rfl⟩
  | case2 e evicted en hf hle =>
    obtain ⟨b, bs, hab, -, hbt⟩ := h.head hs hf
    rw [setMinLoop_of_le evicted hf hle, hab, Emap.EMap.setMinLoop, if_pos (hbt ▸ hle)]
    obtain ⟨bh, seen⟩ := a
    simp only at hab
    subst hab
    exact ⟨h, rfl⟩
  | case3 e evicted en hf hlt hp =>
    have := (Heap.pop_isSome e.bh).mpr (Heap.len_pos_of_first hf)
    rw [hp] at this
    cases this
  | case4 e evicted en hf hlt x bh hp ih =>
    obtain ⟨b, bs, hab, hb, hbt⟩ := h.head hs hf
    have hitems : e.itemsAt en.Item = b.items := by simp [itemsAt, hb]
    rw [setMinLoop_of_pop evicted hf hlt hp, hab, Emap.EMap.setMinLoop, if_neg (hbt ▸ hlt),
      ← hitems]
    rw [hab] at hs
    exact ih (h.pop (hab ▸ hs) hf hp hab hb hbt |> fun h' => by rwa [← hitems] at h')
      (List.pairwise_cons.mp hs).2

/-- **`SetMin`** keeps the refinement, and returns what the list's `SetMin` returns. -/
theorem Refines.setMin {e : EMap ι} {a : Emap.EMap ι} (h : e.Refines a)
    (hs : a.bh.Pairwise fun b b' => b.t < b'.t) (t : ℤ) :
    (e.setMin t).1.Refines (a.setMin t).1 ∧ (e.setMin t).2 = (a.setMin t).2 :=
  h.setMinLoop hs t []

theorem Refines.event {e : EMap ι} {a : Emap.EMap ι} {m : ι → Option ℤ} (h : e.Refines a)
    (ha : a.Valid m) (ev : Event ι) : (e.event ev).Refines (a.event ev) := by
  cases ev with
  | add id t => exact h.add ha id t
  | setMin t => exact (h.setMin ha.sorted t).1

/-- **Every run of the code's map refines the run of the list.** -/
theorem refines_run (evs : List (Event ι)) :
    (evs.foldl event new).Refines (evs.foldl Emap.EMap.event Emap.EMap.new) := by
  suffices H : ∀ (e : EMap ι) (a : Emap.EMap ι) m, e.Refines a → a.Valid m →
      (evs.foldl event e).Refines (evs.foldl Emap.EMap.event a) from
    H _ _ _ refines_new Emap.EMap.new_valid
  induction evs with
  | nil => exact fun _ _ _ h _ => h
  | cons ev evs ih =>
    exact fun e a m h ha => ih _ _ _ (h.event ha ev) (Emap.EMap.event_valid ha ev)

/-- After a run, the code's map has seen exactly the ids the events say it remembers. -/
theorem mem_seen_run (evs : List (Event ι)) (id : ι) :
    id ∈ (evs.foldl event new).seen ↔ (remembered evs id).isSome := by
  rw [(refines_run evs).seen]
  exact (Emap.EMap.run_valid evs).seen_iff id

/-! ### Each id in one bucket -/

omit [DecidableEq ι] in
/-- Where no element repeats across the lists of `g`, an element lies in the list of one
member only. -/
theorem eq_of_mem_of_nodup_flatMap {β γ : Type} {g : β → List γ} {l : List β}
    (hn : (l.flatMap g).Nodup) {x : γ} {u v : β} (hu : u ∈ l) (hv : v ∈ l) (hxu : x ∈ g u)
    (hxv : x ∈ g v) : u = v := by
  induction l with
  | nil => simp at hu
  | cons c l ih =>
    rw [List.flatMap_cons, List.nodup_append] at hn
    have hout : ∀ w ∈ l, x ∈ g w → x ∉ g c := fun w hw hxw hxc =>
      hn.2.2 x hxc x (List.mem_flatMap.mpr ⟨w, hw, hxw⟩) rfl
    rcases List.mem_cons.mp hu with rfl | hu' <;> rcases List.mem_cons.mp hv with rfl | hv'
    · rfl
    · exact absurd hxu (hout v hv' hxv)
    · exact absurd hxv (hout u hu' hxu)
    · exact ih hn.2.1 hu' hv'

omit [DecidableEq ι] in
theorem flatMap_heapBuckets (e : EMap ι) :
    e.heapBuckets.flatMap (·.items) = e.bh.contents.flatMap fun d => e.itemsAt d.2.1 := by
  rw [heapBuckets]
  induction e.bh.contents with
  | nil => rfl
  | cons d l ih =>
    rw [List.filterMap_cons, List.flatMap_cons, ← ih]
    cases hb : e.buckets d.2.1 <;> simp [itemsAt, hb]

omit [DecidableEq ι] in
/-- With no id twice in the list's buckets, no id is in the buckets of two entries. -/
theorem Refines.eq_of_mem_items {e : EMap ι} {a : Emap.EMap ι} (h : e.Refines a)
    (hn : (a.bh.flatMap (·.items)).Nodup) {id : ι} {d d' : ι × ℕ × ℤ} {b b' : Bucket ι}
    (hd : d ∈ e.bh.contents) (hb : e.buckets d.2.1 = some b) (hid : id ∈ b.items)
    (hd' : d' ∈ e.bh.contents) (hb' : e.buckets d'.2.1 = some b') (hid' : id ∈ b'.items) :
    d' = d := by
  have hn' := ((h.buckets.flatMap_right (·.items)).nodup_iff.mpr hn)
  rw [flatMap_heapBuckets] at hn'
  exact eq_of_mem_of_nodup_flatMap hn' hd' hd (by simpa [itemsAt, hb'] using hid')
    (by simpa [itemsAt, hb] using hid)

end EMap

/-! ## Calls -/

/-- A call on the map: `Add(items)`, or `SetMin(t)`. -/
inductive Call (α : Type) where
  | add (items : List α)
  | setMin (t : ℤ)

/-- The events of a call: `Add` is the `add` of each item in turn. -/
def Call.events (ID : α → ι) (expiry : α → ℤ) : Call α → List (Event ι)
  | .add items => items.map fun x => .add (ID x) (expiry x)
  | .setMin t => [.setMin t]

namespace EMap

/-- The map after a call. -/
def call (ID : α → ι) (expiry : α → ℤ) (e : EMap ι) : Call α → EMap ι
  | .add items => e.addAll ID expiry items
  | .setMin t => (e.setMin t).1

theorem call_eq (ID : α → ι) (expiry : α → ℤ) (e : EMap ι) (c : Call α) :
    e.call ID expiry c = (c.events ID expiry).foldl event e := by
  cases c with
  | add items => simp [call, addAll, Call.events, List.foldl_map, event]
  | setMin t => rfl

theorem foldl_call (ID : α → ι) (expiry : α → ℤ) (cs : List (Call α)) (e : EMap ι) :
    cs.foldl (call ID expiry) e = (cs.flatMap (Call.events ID expiry)).foldl event e := by
  induction cs generalizing e with
  | nil => rfl
  | cons c cs ih => rw [List.foldl_cons, ih, List.flatMap_cons, List.foldl_append, call_eq]

/-- **`EMap` is an exact replay filter.** After any run of `Add` and `SetMin` calls:
an id is seen exactly when an `add` took it with an expiry `x ≠ 0` at a point where it was not
seen and no `SetMin` above `x` has come since; `times` and the heap point to the same buckets,
each of the entry's time; such an id lies in the bucket of one entry only, and that bucket's
time is `x`; and `SetMin(t)` returns, once each, the ids of the buckets older than `t`. -/
theorem exact_replay_filter (ID : α → ι) (expiry : α → ℤ) (cs : List (Call α)) :
    let evs := cs.flatMap (Call.events ID expiry)
    let e := cs.foldl (call ID expiry) new
    (∀ id, id ∈ e.seen ↔ ∃ x pre post, evs = pre ++ .add id x :: post ∧ x ≠ 0 ∧
        id ∉ (pre.foldl event new).seen ∧ ∀ t, Event.setMin t ∈ post → t ≤ x) ∧
      (∀ t p, e.times t = some p ↔ ∃ id, (id, p, t) ∈ e.bh.contents) ∧
      (∀ id p t, (id, p, t) ∈ e.bh.contents → ∃ b, e.buckets p = some b ∧ b.t = t) ∧
      (∀ id x pre post, evs = pre ++ .add id x :: post → x ≠ 0 →
        id ∉ (pre.foldl event new).seen → (∀ t, Event.setMin t ∈ post → t ≤ x) →
        ∃ d ∈ e.bh.contents, ∃ b, e.buckets d.2.1 = some b ∧ b.t = x ∧ id ∈ b.items ∧
          ∀ d' ∈ e.bh.contents, ∀ b', e.buckets d'.2.1 = some b' → id ∈ b'.items → d' = d) ∧
      ∀ t, (e.setMin t).2.Nodup ∧ ∀ id, id ∈ (e.setMin t).2 ↔
        ∃ d ∈ e.bh.contents, ∃ b, e.buckets d.2.1 = some b ∧ b.t < t ∧ id ∈ b.items := by
  intro evs e
  have he : e = evs.foldl event new := foldl_call ID expiry cs new
  have hR : e.Refines (evs.foldl Emap.EMap.event Emap.EMap.new) := he ▸ refines_run evs
  have hV := Emap.EMap.run_valid evs
  have hN := Emap.EMap.run_nodup evs
  -- the condition on the point of the `add`, read on the list's side
  have hpre : ∀ (pre : List (Event ι)) id, id ∉ (pre.foldl event new).seen ↔
      remembered pre id = none := fun pre id => by
    rw [mem_seen_run, Option.not_isSome_iff_eq_none]
  have hlive : ∀ id x, (∃ pre post, evs = pre ++ .add id x :: post ∧ x ≠ 0 ∧
      id ∉ (pre.foldl event new).seen ∧ ∀ t, Event.setMin t ∈ post → t ≤ x) ↔
      remembered evs id = some x := fun id x => by
    simp only [hpre]
    exact (remembered_eq_some_iff evs id x).symm
  refine ⟨fun id => ?_, hR.inv.times_iff, fun id p t hd => ?_, ?_, fun t => ?_⟩
  · rw [he, mem_seen_run, Option.isSome_iff_exists]
    exact exists_congr fun x => (hlive id x).symm
  · obtain ⟨b, hb, hbt, -⟩ := hR.inv.bucket id p t hd
    exact ⟨b, hb, hbt⟩
  · intro id x pre post hevs hx hnot hpost
    have hm := (hlive id x).mp ⟨pre, post, hevs, hx, hnot, hpost⟩
    obtain ⟨b, hb, rfl, hin⟩ := (hV.recorded_iff id x).mpr hm
    obtain ⟨id', p, hd, hbp⟩ := hR.inv.mem_heapBuckets.mp (hR.buckets.mem_iff.mpr hb)
    exact ⟨(id', p, b.t), hd, b, hbp, rfl, hin, fun d' hd' b' hb' hin' =>
      hR.eq_of_mem_items hN hd hbp hin hd' hb' hin'⟩
  · obtain ⟨hR', hret⟩ := hR.setMin hV.sorted t
    refine ⟨hret ▸ Emap.EMap.nodup_setMin_snd hN t, fun id => ?_⟩
    rw [hret, Emap.EMap.mem_setMin_snd hV.sorted]
    constructor
    · rintro ⟨b, hb, hbt, hin⟩
      obtain ⟨id', p, hd, hbp⟩ := hR.inv.mem_heapBuckets.mp (hR.buckets.mem_iff.mpr hb)
      exact ⟨(id', p, b.t), hd, b, hbp, hbt, hin⟩
    · rintro ⟨d, hd, b, hbp, hbt, hin⟩
      exact ⟨b, hR.buckets.mem_iff.mp (List.mem_filterMap.mpr ⟨d, hd, hbp⟩), hbt, hin⟩

end EMap

end Hypersdk.Emap.Impl
