import Mathlib

/-!
# The eviction map of seen transactions

`emap/emap.go`. An `EMap` remembers the ids of the transactions of accepted blocks until they
expire: each id is kept in the bucket of its expiry, the buckets sit in a min-heap by expiry,
and `SetMin t` pops every bucket older than `t` and forgets its ids. `Contains` marks the items
whose ids are remembered.

The heap (`heap.Heap`, over Go's `container/heap`) is kept as the list of its buckets in the
order `Pop` takes them, earliest first: its `First` is the head and `Push` inserts in order. The
bucket times are distinct (the `times` map has one bucket per time), so this order is the
heap's. The `times` map points to the same buckets as the heap and is not kept apart: a lookup
in it is a search of the list.

What a map means is a partial function from ids to the expiry they were added with
(`Valid e m`). `add_valid` and `setMin_valid` say how each operation changes that function,
`contains_false` what `Contains` answers from it: these are the map's specification, and the
replay-protection proofs never look inside the buckets.
-/

namespace Hypersdk.Emap

variable {ι α : Type} [DecidableEq ι]

/-- A bucket: the ids added with expiry `t`. -/
structure Bucket (ι : Type) where
  t : ℤ
  items : List ι

/-- `EMap`: the bucket heap and the set of ids seen. -/
structure EMap (ι : Type) where
  bh : List (Bucket ι)
  seen : Finset ι

namespace EMap

/-- `NewEMap`. -/
def new : EMap ι := ⟨[], ∅⟩

/-- Put `id` in the bucket of time `t`, or push a new bucket for it at its place. -/
def pushItem (id : ι) (t : ℤ) : List (Bucket ι) → List (Bucket ι)
  | [] => [⟨t, [id]⟩]
  | b :: bs =>
    if b.t = t then ⟨b.t, b.items ++ [id]⟩ :: bs
    else if t < b.t then ⟨t, [id]⟩ :: b :: bs
    else b :: pushItem id t bs

/-- `add`: an id with expiry 0 (genesis) or one seen already is not added. -/
def add (e : EMap ι) (id : ι) (t : ℤ) : EMap ι :=
  if t = 0 then e
  else if id ∈ e.seen then e
  else ⟨pushItem id t e.bh, insert id e.seen⟩

/-- `Add`: the items' ids with their expiries, in order. -/
def addAll (e : EMap ι) (ID : α → ι) (expiry : α → ℤ) (items : List α) : EMap ι :=
  items.foldl (fun e x => e.add (ID x) (expiry x)) e

/-- The loop of `SetMin`: pop the first bucket while it is older than `t`, forgetting its ids,
and collect them. -/
def setMinLoop (t : ℤ) : List (Bucket ι) → Finset ι → List ι → List (Bucket ι) × Finset ι × List ι
  | [], seen, evicted => ([], seen, evicted)
  | b :: bs, seen, evicted =>
    if t ≤ b.t then (b :: bs, seen, evicted)
    else setMinLoop t bs (seen \ b.items.toFinset) (evicted ++ b.items)

/-- `SetMin`: the map without the buckets older than `t`, and the ids evicted. -/
def setMin (e : EMap ι) (t : ℤ) : EMap ι × List ι :=
  let r := setMinLoop t e.bh e.seen []
  (⟨r.1, r.2.1⟩, r.2.2)

end EMap

/-- The loop of `EMap.Contains`, and of `StatelessBlock.IsRepeat` over one block: from index
`i`, mark each item not marked yet for which `P` holds; with `stop`, return at the first mark.
The second component says whether it returned there. -/
def markLoop (P : α → Bool) (stop : Bool) : List α → ℕ → Finset ℕ → Finset ℕ × Bool
  | [], _, marker => (marker, false)
  | x :: xs, i, marker =>
    if i ∈ marker then markLoop P stop xs (i + 1) marker
    else if P x then
      if stop then (insert i marker, true) else markLoop P stop xs (i + 1) (insert i marker)
    else markLoop P stop xs (i + 1) marker

namespace EMap

/-- `Contains`. -/
def contains (e : EMap ι) (ID : α → ι) (items : List α) (marker : Finset ℕ) (stop : Bool) :
    Finset ℕ :=
  (markLoop (fun x => decide (ID x ∈ e.seen)) stop items 0 marker).1

end EMap

/-! ## Marking -/

/-- Without `stop`, the loop marks exactly the items from index `i` on for which `P` holds. -/
theorem mem_markLoop_false {P : α → Bool} {xs : List α} {i : ℕ} {marker : Finset ℕ} {j : ℕ} :
    j ∈ (markLoop P false xs i marker).1 ↔
      j ∈ marker ∨ ∃ x, i ≤ j ∧ xs[j - i]? = some x ∧ P x = true := by
  induction xs generalizing i marker with
  | nil => simp [markLoop]
  | cons x xs ih =>
    -- the head is item `i`; the rest are the items from `i + 1` on
    have hcons : (∃ y, i ≤ j ∧ (x :: xs)[j - i]? = some y ∧ P y = true) ↔
        (j = i ∧ P x = true) ∨ ∃ y, i + 1 ≤ j ∧ xs[j - (i + 1)]? = some y ∧ P y = true := by
      rcases Nat.lt_or_ge j i with hj | hj
      · simp [Nat.not_le.mpr hj, show j ≠ i by omega, show ¬ i + 1 ≤ j by omega]
      rcases Nat.eq_or_lt_of_le hj with rfl | hj
      · simp
      · have hk : j - i = (j - (i + 1)) + 1 := by omega
        simp [hk, show j ≠ i by omega, Nat.succ_le_of_lt hj, hj.le]
    rw [hcons]
    by_cases hm : i ∈ marker
    · simp only [markLoop, hm, if_true, ih]
      constructor
      · tauto
      · rintro (h | ⟨rfl, -⟩ | h)
        exacts [.inl h, .inl hm, .inr h]
    · by_cases hp : P x = true
      · simp only [markLoop, hm, hp, if_false, if_true, Bool.false_eq_true, ih, Finset.mem_insert,
          and_true]
        tauto
      · simp only [markLoop, hm, hp, if_false, Bool.false_eq_true, ih, and_false, false_or]

/-- From index 0: the marks added are the items for which `P` holds. -/
theorem mem_markLoop_false_zero {P : α → Bool} {xs : List α} {marker : Finset ℕ} {j : ℕ} :
    j ∈ (markLoop P false xs 0 marker).1 ↔ j ∈ marker ∨ ∃ x, xs[j]? = some x ∧ P x = true := by
  simp [mem_markLoop_false]

/-- Without `stop`, the loop never returns early. -/
theorem markLoop_false_snd (P : α → Bool) (xs : List α) (i : ℕ) (marker : Finset ℕ) :
    (markLoop P false xs i marker).2 = false := by
  induction xs generalizing i marker with
  | nil => rfl
  | cons x xs ih =>
    simp only [markLoop, Bool.false_eq_true, if_false]
    split_ifs <;> exact ih _ _

/-! ## What a map means -/

namespace EMap

/-- `id` is in the bucket of time `t`. -/
def Recorded (bs : List (Bucket ι)) (id : ι) (t : ℤ) : Prop := ∃ b ∈ bs, b.t = t ∧ id ∈ b.items

omit [DecidableEq ι] in
@[simp] theorem recorded_nil (id : ι) (t : ℤ) : ¬ Recorded [] id t := by simp [Recorded]

omit [DecidableEq ι] in
theorem recorded_cons {b : Bucket ι} {bs : List (Bucket ι)} {id : ι} {t : ℤ} :
    Recorded (b :: bs) id t ↔ (b.t = t ∧ id ∈ b.items) ∨ Recorded bs id t := by
  simp [Recorded]

/-- **The map `e` remembers `m`**: each id `m` holds sits in the bucket of its expiry and
nowhere else, and the ids seen are those `m` holds; the buckets are in heap order. -/
structure Valid (e : EMap ι) (m : ι → Option ℤ) : Prop where
  sorted : e.bh.Pairwise fun b b' => b.t < b'.t
  recorded_iff : ∀ id t, Recorded e.bh id t ↔ m id = some t
  seen_iff : ∀ id, id ∈ e.seen ↔ (m id).isSome

omit [DecidableEq ι] in
theorem new_valid : (new : EMap ι).Valid fun _ => none :=
  ⟨List.Pairwise.nil, by simp [new], by simp [new]⟩

/-! ### `add` -/

omit [DecidableEq ι] in
theorem time_of_mem_pushItem {id : ι} {t : ℤ} {bs : List (Bucket ι)} {b' : Bucket ι}
    (h : b' ∈ pushItem id t bs) : b'.t = t ∨ ∃ b ∈ bs, b.t = b'.t := by
  induction bs with
  | nil => simp_all [pushItem]
  | cons b bs ih =>
    simp only [pushItem] at h
    split_ifs at h with h₁ h₂
    · rcases List.mem_cons.mp h with rfl | h
      · exact .inr ⟨b, by simp⟩
      · exact .inr ⟨b', by simp [h]⟩
    · rcases List.mem_cons.mp h with rfl | h
      · exact .inl rfl
      · exact .inr ⟨b', h, rfl⟩
    · rcases List.mem_cons.mp h with rfl | h
      · exact .inr ⟨b', by simp⟩
      · rcases ih h with h | ⟨b'', hb'', he⟩
        · exact .inl h
        · exact .inr ⟨b'', by simp [hb''], he⟩

omit [DecidableEq ι] in
theorem pushItem_sorted {id : ι} {t : ℤ} {bs : List (Bucket ι)}
    (hs : bs.Pairwise fun b b' => b.t < b'.t) :
    (pushItem id t bs).Pairwise fun b b' => b.t < b'.t := by
  induction bs with
  | nil => simp [pushItem]
  | cons b bs ih =>
    rw [List.pairwise_cons] at hs
    simp only [pushItem]
    split_ifs with h₁ h₂
    · exact List.pairwise_cons.mpr ⟨hs.1, hs.2⟩
    · refine List.pairwise_cons.mpr ⟨?_, List.pairwise_cons.mpr hs⟩
      intro b' hb'
      rcases List.mem_cons.mp hb' with rfl | hb'
      · exact h₂
      · exact h₂.trans (hs.1 b' hb')
    · refine List.pairwise_cons.mpr ⟨?_, ih hs.2⟩
      intro b' hb'
      rcases time_of_mem_pushItem hb' with h | ⟨b'', hb'', he⟩
      · rw [h]
        exact lt_of_le_of_ne (not_lt.mp h₂) h₁
      · rw [← he]
        exact hs.1 b'' hb''

theorem recorded_pushItem {id id' : ι} {t t' : ℤ} {bs : List (Bucket ι)} :
    Recorded (pushItem id t bs) id' t' ↔ Recorded bs id' t' ∨ (id' = id ∧ t' = t) := by
  induction bs with
  | nil => simp [pushItem, recorded_cons, and_comm, eq_comm]
  | cons b bs ih =>
    simp only [pushItem]
    split_ifs with h₁ h₂
    · subst h₁
      simp only [recorded_cons, List.mem_append, List.mem_singleton]
      constructor
      · rintro (⟨ht, hin | hid⟩ | hr)
        · exact .inl (.inl ⟨ht, hin⟩)
        · exact .inr ⟨hid, ht.symm⟩
        · exact .inl (.inr hr)
      · rintro ((⟨ht, hin⟩ | hr) | ⟨hid, ht⟩)
        · exact .inl ⟨ht, .inl hin⟩
        · exact .inr hr
        · exact .inl ⟨ht.symm, .inr hid⟩
    · simp only [recorded_cons, List.mem_singleton]
      constructor
      · rintro (⟨ht, hid⟩ | h | h)
        · exact .inr ⟨hid, ht.symm⟩
        · exact .inl (.inl h)
        · exact .inl (.inr h)
      · rintro ((h | h) | ⟨hid, ht⟩)
        · exact .inr (.inl h)
        · exact .inr (.inr h)
        · exact .inl ⟨ht.symm, hid⟩
    · simp only [recorded_cons, ih]
      tauto

/-- Where a bucket of time `t` exists, `pushItem` appends to it and changes no other. -/
def appendAt (id : ι) (t : ℤ) (b : Bucket ι) : Bucket ι :=
  if b.t = t then ⟨b.t, b.items ++ [id]⟩ else b

omit [DecidableEq ι] in
theorem pushItem_of_exists {id : ι} {t : ℤ} {bs : List (Bucket ι)}
    (hs : bs.Pairwise fun b b' => b.t < b'.t) (hb : ∃ b ∈ bs, b.t = t) :
    pushItem id t bs = bs.map (appendAt id t) := by
  induction bs with
  | nil => simp at hb
  | cons b bs ih =>
    rw [List.pairwise_cons] at hs
    simp only [pushItem, List.map_cons]
    split_ifs with h₁ h₂
    · -- the later buckets are later than `t`
      have hrest : bs.map (appendAt id t) = bs := by
        refine (List.map_congr_left fun b' hb' => ?_).trans (List.map_id bs)
        rw [appendAt, if_neg (ne_of_gt (h₁ ▸ hs.1 b' hb'))]
        rfl
      rw [appendAt, if_pos h₁, hrest, h₁]
    · obtain ⟨b', hb', rfl⟩ := hb
      rcases List.mem_cons.mp hb' with rfl | hb'
      · exact absurd h₂ (lt_irrefl _)
      · exact absurd (h₂.trans (hs.1 b' hb')) (lt_irrefl _)
    · rw [appendAt, if_neg h₁, ih hs.2]
      obtain ⟨b', hb', rfl⟩ := hb
      rcases List.mem_cons.mp hb' with rfl | hb'
      · exact absurd rfl h₁
      · exact ⟨b', hb', rfl⟩

omit [DecidableEq ι] in
theorem pushItem_perm_of_forall {id : ι} {t : ℤ} {bs : List (Bucket ι)}
    (hb : ∀ b ∈ bs, b.t ≠ t) : (pushItem id t bs).Perm (bs ++ [⟨t, [id]⟩]) := by
  induction bs with
  | nil => simp [pushItem]
  | cons b bs ih =>
    simp only [pushItem, if_neg (hb b (List.mem_cons_self ..))]
    split_ifs
    · exact @List.perm_append_comm _ [⟨t, [id]⟩] (b :: bs)
    · exact (ih fun b' hb' => hb b' (List.mem_cons_of_mem _ hb')).cons b

/-- **`add`** records `id` with expiry `t` unless `t` is 0 or `id` is remembered already. -/
theorem add_valid {e : EMap ι} {m : ι → Option ℤ} (he : e.Valid m) (id : ι) (t : ℤ) :
    (e.add id t).Valid (if t = 0 ∨ (m id).isSome then m else Function.update m id (some t)) := by
  by_cases ht : t = 0
  · simpa [add, ht] using he
  by_cases hs : id ∈ e.seen
  · have hm : (m id).isSome := (he.seen_iff id).mp hs
    simpa [add, ht, hs, hm] using he
  have hm : (m id).isSome = false := by simpa using mt (he.seen_iff id).mpr hs
  simp only [add, ht, hs, if_false, hm, Bool.false_eq_true, or_self]
  refine ⟨pushItem_sorted he.sorted, fun id' t' => ?_, fun id' => ?_⟩
  · rw [recorded_pushItem, he.recorded_iff]
    by_cases hid : id' = id
    · subst hid
      simp only [Option.isSome_eq_false_iff, Option.isNone_iff_eq_none] at hm
      simp [hm, eq_comm]
    · simp [hid]
  · by_cases hid : id' = id
    · subst hid
      simp
    · simp [hid, he.seen_iff]

/-! ### `SetMin` -/

theorem setMinLoop_fst (t : ℤ) (bs : List (Bucket ι)) (seen : Finset ι) (evicted : List ι) :
    (setMinLoop t bs seen evicted).1 = bs.dropWhile fun b => decide (b.t < t) := by
  induction bs generalizing seen evicted with
  | nil => rfl
  | cons b bs ih =>
    simp only [setMinLoop]
    split_ifs with h
    · simp [not_lt.mpr h]
    · simp [not_le.mp h, ih]

/-- A bucket is popped when it is older than `t`: for sorted buckets these are the ones in the
bucket of a time below `t`. -/
theorem mem_setMinLoop_snd {t : ℤ} {bs : List (Bucket ι)} {seen : Finset ι} {evicted : List ι}
    {id : ι} (hs : bs.Pairwise fun b b' => b.t < b'.t) :
    id ∈ (setMinLoop t bs seen evicted).2.1 ↔ id ∈ seen ∧ ∀ t', Recorded bs id t' → t ≤ t' := by
  induction bs generalizing seen evicted with
  | nil => simp [setMinLoop]
  | cons b bs ih =>
    rw [List.pairwise_cons] at hs
    simp only [setMinLoop]
    split_ifs with h
    · -- every later bucket is later than this one
      refine ⟨fun hid => ⟨hid, fun t' hr => ?_⟩, fun h' => h'.1⟩
      rcases recorded_cons.mp hr with ⟨rfl, -⟩ | ⟨b', hb', rfl, -⟩
      · exact h
      · exact h.trans (hs.1 b' hb').le
    · rw [ih hs.2, Finset.mem_sdiff, List.mem_toFinset]
      constructor
      · rintro ⟨⟨hid, hnot⟩, hall⟩
        refine ⟨hid, fun t' hr => ?_⟩
        rcases recorded_cons.mp hr with ⟨rfl, hin⟩ | hr
        · exact absurd hin hnot
        · exact hall t' hr
      · rintro ⟨hid, hall⟩
        refine ⟨⟨hid, fun hin => h (hall b.t (recorded_cons.mpr (.inl ⟨rfl, hin⟩)))⟩,
          fun t' hr => hall t' (recorded_cons.mpr (.inr hr))⟩

omit [DecidableEq ι] in
theorem recorded_dropWhile {t t' : ℤ} {bs : List (Bucket ι)} {id : ι}
    (hs : bs.Pairwise fun b b' => b.t < b'.t) :
    Recorded (bs.dropWhile fun b => decide (b.t < t)) id t' ↔ Recorded bs id t' ∧ t ≤ t' := by
  induction bs with
  | nil => simp
  | cons b bs ih =>
    rw [List.pairwise_cons] at hs
    by_cases h : b.t < t
    · rw [List.dropWhile_cons, if_pos (decide_eq_true h), ih hs.2, recorded_cons]
      constructor
      · rintro ⟨hr, ht⟩
        exact ⟨.inr hr, ht⟩
      · rintro ⟨⟨rfl, -⟩ | hr, ht⟩
        · exact absurd ht (not_le.mpr h)
        · exact ⟨hr, ht⟩
    · rw [List.dropWhile_cons, if_neg (by simpa using h)]
      refine ⟨fun hr => ⟨hr, ?_⟩, fun hr => hr.1⟩
      rcases recorded_cons.mp hr with ⟨rfl, -⟩ | ⟨b', hb', rfl, -⟩
      · exact not_lt.mp h
      · exact (not_lt.mp h).trans (hs.1 b' hb').le

/-- **`SetMin t`** forgets the ids whose expiry is below `t`. -/
theorem setMin_valid {e : EMap ι} {m : ι → Option ℤ} (he : e.Valid m) (t : ℤ) :
    (e.setMin t).1.Valid fun id => (m id).filter fun t' => decide (t ≤ t') := by
  have hfst := setMinLoop_fst t e.bh e.seen []
  refine ⟨?_, fun id t' => ?_, fun id => ?_⟩
  · simp only [setMin, hfst]
    exact he.sorted.sublist (List.dropWhile_sublist _)
  · simp only [setMin, hfst, recorded_dropWhile he.sorted, he.recorded_iff]
    cases hm : m id with
    | none => simp
    | some v =>
      by_cases hv : t ≤ v
      · simp only [Option.filter, hv, decide_true, if_true, Option.some.injEq]
        constructor
        · exact fun h => h.1
        · rintro rfl
          exact ⟨rfl, hv⟩
      · simp only [Option.filter, hv, decide_false, Bool.false_eq_true, if_false,
          Option.some.injEq, reduceCtorEq, iff_false, not_and]
        rintro rfl
        exact hv
  · simp only [setMin, mem_setMinLoop_snd he.sorted, he.seen_iff, he.recorded_iff]
    cases hm : m id with
    | none => simp
    | some v =>
      by_cases hv : t ≤ v
      · simp [Option.filter, hv]
      · simp [Option.filter, hv]

/-! ### `Contains` -/

/-- `Contains` without `stop` marks the items whose ids were seen. -/
theorem mem_contains_false {e : EMap ι} (ID : α → ι) (items : List α) (marker : Finset ℕ)
    (j : ℕ) : j ∈ e.contains ID items marker false ↔
      j ∈ marker ∨ ∃ x, items[j]? = some x ∧ ID x ∈ e.seen := by
  simp [contains, mem_markLoop_false_zero]

/-- **`Contains`** without `stop` marks the items whose ids the map remembers. -/
theorem contains_false {e : EMap ι} {m : ι → Option ℤ} (he : e.Valid m) (ID : α → ι)
    (items : List α) (marker : Finset ℕ) (j : ℕ) :
    j ∈ e.contains ID items marker false ↔
      j ∈ marker ∨ ∃ x, items[j]? = some x ∧ (m (ID x)).isSome := by
  simp [mem_contains_false, he.seen_iff]

/-! ### What `SetMin` returns, and each id in one place -/

theorem setMinLoop_snd_snd (t : ℤ) (bs : List (Bucket ι)) (seen : Finset ι) (evicted : List ι) :
    (setMinLoop t bs seen evicted).2.2 =
      evicted ++ (bs.takeWhile fun b => decide (b.t < t)).flatMap (·.items) := by
  induction bs generalizing seen evicted with
  | nil => simp [setMinLoop]
  | cons b bs ih =>
    simp only [setMinLoop]
    split_ifs with h
    · simp [not_lt.mpr h]
    · simp [not_le.mp h, ih]

/-- `SetMin t` returns the ids of the buckets it pops, in order. -/
theorem setMin_snd (e : EMap ι) (t : ℤ) :
    (e.setMin t).2 = (e.bh.takeWhile fun b => decide (b.t < t)).flatMap (·.items) := by
  simp [setMin, setMinLoop_snd_snd]

omit [DecidableEq ι] in
/-- In heap order the buckets `SetMin t` pops are all the buckets older than `t`. -/
theorem mem_takeWhile_of_sorted {bs : List (Bucket ι)} (hs : bs.Pairwise fun b b' => b.t < b'.t)
    (t : ℤ) (b : Bucket ι) : b ∈ bs.takeWhile (fun b => decide (b.t < t)) ↔ b ∈ bs ∧ b.t < t := by
  induction bs with
  | nil => simp
  | cons b' bs ih =>
    rw [List.pairwise_cons] at hs
    by_cases h : b'.t < t
    · rw [List.takeWhile_cons_of_pos (by simpa using h), List.mem_cons, List.mem_cons, ih hs.2]
      constructor
      · rintro (rfl | ⟨hb, hbt⟩)
        exacts [⟨.inl rfl, h⟩, ⟨.inr hb, hbt⟩]
      · rintro ⟨rfl | hb, hbt⟩
        exacts [.inl rfl, .inr ⟨hb, hbt⟩]
    · -- every later bucket is later still
      rw [List.takeWhile_cons_of_neg (by simpa using h)]
      simp only [List.not_mem_nil, false_iff, not_and, List.mem_cons]
      rintro (rfl | hb) hbt
      · exact h hbt
      · exact h ((hs.1 b hb).trans hbt)

theorem mem_setMin_snd {e : EMap ι} (hs : e.bh.Pairwise fun b b' => b.t < b'.t) (t : ℤ) (id : ι) :
    id ∈ (e.setMin t).2 ↔ ∃ b ∈ e.bh, b.t < t ∧ id ∈ b.items := by
  simp only [setMin_snd, List.mem_flatMap, mem_takeWhile_of_sorted hs, and_assoc]

omit [DecidableEq ι] in
/-- A new id ends up in the buckets once, wherever `pushItem` puts it. -/
theorem flatMap_pushItem_perm (id : ι) (t : ℤ) (bs : List (Bucket ι)) :
    ((pushItem id t bs).flatMap (·.items)).Perm (bs.flatMap (·.items) ++ [id]) := by
  induction bs with
  | nil => simp [pushItem]
  | cons b bs ih =>
    simp only [pushItem]
    split_ifs
    · simpa using (@List.perm_append_comm _ [id] (bs.flatMap (·.items))).append_left
        b.items
    · simpa using @List.perm_append_comm _ [id] (b.items ++ bs.flatMap (·.items))
    · simpa using ih.append_left b.items

/-- `add` keeps every id in one place of one bucket. -/
theorem nodup_add {e : EMap ι} {m : ι → Option ℤ} (he : e.Valid m)
    (hn : (e.bh.flatMap (·.items)).Nodup) (id : ι) (t : ℤ) :
    ((e.add id t).bh.flatMap (·.items)).Nodup := by
  unfold add
  split_ifs with h₀ hs
  · exact hn
  · exact hn
  · -- the id is in no bucket, since the map does not remember it
    have hid : id ∉ e.bh.flatMap (·.items) := by
      rw [List.mem_flatMap]
      rintro ⟨b, hb, hin⟩
      have hm : m id = some b.t := (he.recorded_iff id b.t).mp ⟨b, hb, rfl, hin⟩
      exact hs ((he.seen_iff id).mpr (by rw [hm]; rfl))
    refine (flatMap_pushItem_perm id t e.bh).nodup_iff.mpr ?_
    rw [List.nodup_append]
    refine ⟨hn, List.nodup_singleton _, fun a ha b hb hab => ?_⟩
    rw [List.mem_singleton] at hb
    rw [hab, hb] at ha
    exact hid ha

/-- `SetMin` keeps every id in one place of one bucket. -/
theorem nodup_setMin {e : EMap ι} (hn : (e.bh.flatMap (·.items)).Nodup) (t : ℤ) :
    ((e.setMin t).1.bh.flatMap (·.items)).Nodup := by
  have hsplit := congrArg (List.flatMap (·.items)) (List.takeWhile_append_dropWhile
    (p := fun b : Bucket ι => decide (b.t < t)) (l := e.bh))
  rw [List.flatMap_append] at hsplit
  simp only [setMin, setMinLoop_fst]
  rw [← hsplit] at hn
  exact (List.nodup_append.mp hn).2.1

/-- `SetMin` returns each id once. -/
theorem nodup_setMin_snd {e : EMap ι} (hn : (e.bh.flatMap (·.items)).Nodup) (t : ℤ) :
    (e.setMin t).2.Nodup := by
  have hsplit := congrArg (List.flatMap (·.items)) (List.takeWhile_append_dropWhile
    (p := fun b : Bucket ι => decide (b.t < t)) (l := e.bh))
  rw [List.flatMap_append] at hsplit
  rw [setMin_snd]
  rw [← hsplit] at hn
  exact (List.nodup_append.mp hn).1

end EMap

/-! ## Runs of the map, and what they remember -/

/-- One change to the map: the `add` of one id, or a `SetMin`. `Add(items)` is the `add` of each
item in turn. -/
inductive Event (ι : Type) where
  | add (id : ι) (t : ℤ)
  | setMin (t : ℤ)

/-- The map after one event. -/
def EMap.event (e : EMap ι) : Event ι → EMap ι
  | .add id t => e.add id t
  | .setMin t => (e.setMin t).1

/-- What an event does to what the map should remember: an `add` records an id with a non-zero
expiry unless it is remembered already, and `SetMin t` forgets the expiries below `t`. -/
def Event.remember : Event ι → (ι → Option ℤ) → ι → Option ℤ
  | .add id t, m => if t = 0 ∨ (m id).isSome then m else Function.update m id (some t)
  | .setMin t, m => fun id => (m id).filter fun t' => decide (t ≤ t')

/-- What the map should remember after a run of events from the empty map. -/
def remembered (evs : List (Event ι)) : ι → Option ℤ :=
  evs.foldl (fun m ev => ev.remember m) fun _ => none

theorem EMap.event_valid {e : EMap ι} {m : ι → Option ℤ} (he : e.Valid m) (ev : Event ι) :
    (e.event ev).Valid (ev.remember m) := by
  cases ev with
  | add id t => exact EMap.add_valid he id t
  | setMin t => exact EMap.setMin_valid he t

/-- Every run of the map remembers what its events say. -/
theorem EMap.run_valid (evs : List (Event ι)) :
    (evs.foldl EMap.event EMap.new).Valid (remembered evs) := by
  suffices h : ∀ (e : EMap ι) m, e.Valid m →
      (evs.foldl EMap.event e).Valid (evs.foldl (fun m ev => ev.remember m) m) from
    h _ _ EMap.new_valid
  induction evs with
  | nil => exact fun _ _ h => h
  | cons ev evs ih => exact fun _ _ h => ih _ _ (EMap.event_valid h ev)

/-- Every run of the map keeps each id in one place of one bucket. -/
theorem EMap.run_nodup (evs : List (Event ι)) :
    ((evs.foldl EMap.event EMap.new).bh.flatMap (·.items)).Nodup := by
  suffices h : ∀ (e : EMap ι) m, e.Valid m → (e.bh.flatMap (·.items)).Nodup →
      ((evs.foldl EMap.event e).bh.flatMap (·.items)).Nodup from
    h _ _ EMap.new_valid List.nodup_nil
  induction evs with
  | nil => exact fun _ _ _ hn => hn
  | cons ev evs ih =>
    intro e m he hn
    refine ih _ _ (EMap.event_valid he ev) ?_
    cases ev with
    | add id t => exact EMap.nodup_add he hn id t
    | setMin t => exact EMap.nodup_setMin hn t

theorem remembered_concat (evs : List (Event ι)) (ev : Event ι) :
    remembered (evs ++ [ev]) = ev.remember (remembered evs) := by
  simp [remembered]

omit [DecidableEq ι] in
/-- Where an event can sit in a run that ends with `ev`: at the end, or before it. -/
theorem append_cons_eq_concat_iff {pre post evs : List (Event ι)} {x ev : Event ι} :
    pre ++ x :: post = evs ++ [ev] ↔
      (pre = evs ∧ x = ev ∧ post = []) ∨ ∃ post', post = post' ++ [ev] ∧ evs = pre ++ x :: post' := by
  rcases List.eq_nil_or_concat post with rfl | ⟨post', y, rfl⟩
  · rw [List.append_singleton_inj]
    constructor
    · rintro ⟨h₁, h₂⟩
      exact .inl ⟨h₁, h₂, rfl⟩
    · rintro (⟨h₁, h₂, -⟩ | ⟨post', h, -⟩)
      · exact ⟨h₁, h₂⟩
      · simp at h
  · rw [List.concat_eq_append, ← List.cons_append, ← List.append_assoc, List.append_singleton_inj]
    constructor
    · rintro ⟨h₁, rfl⟩
      exact .inr ⟨post', rfl, h₁.symm⟩
    · rintro (⟨-, -, h⟩ | ⟨post'', h, rfl⟩)
      · simp at h
      · obtain ⟨rfl, rfl⟩ := List.append_singleton_inj.mp h
        exact ⟨rfl, rfl⟩

/-- The history of an id after one more event: the `add` that took it is the new event, or an
earlier one that the new event does not undo. -/
theorem history_concat (evs : List (Event ι)) (ev : Event ι) (id : ι) (x : ℤ) :
    (∃ pre post, evs ++ [ev] = pre ++ .add id x :: post ∧ x ≠ 0 ∧ remembered pre id = none ∧
        ∀ t, Event.setMin t ∈ post → t ≤ x) ↔
      (ev = .add id x ∧ x ≠ 0 ∧ remembered evs id = none) ∨
        ((∃ pre post, evs = pre ++ .add id x :: post ∧ x ≠ 0 ∧ remembered pre id = none ∧
          ∀ t, Event.setMin t ∈ post → t ≤ x) ∧ ∀ t, ev = .setMin t → t ≤ x) := by
  constructor
  · rintro ⟨pre, post, he, hx, hpre, hpost⟩
    rcases append_cons_eq_concat_iff.mp he.symm with ⟨rfl, rfl, rfl⟩ | ⟨post', rfl, rfl⟩
    · exact .inl ⟨rfl, hx, hpre⟩
    · refine .inr ⟨⟨pre, post', rfl, hx, hpre, fun t ht => hpost t (by simp [ht])⟩, ?_⟩
      rintro t rfl
      exact hpost t (by simp)
  · rintro (⟨rfl, hx, hnone⟩ | ⟨⟨pre, post, rfl, hx, hpre, hpost⟩, hev⟩)
    · exact ⟨evs, [], by simp, hx, hnone, by simp⟩
    · refine ⟨pre, post ++ [ev], by simp, hx, hpre, fun t ht => ?_⟩
      rcases List.mem_append.mp ht with ht | ht
      · exact hpost t ht
      · exact hev t (List.mem_singleton.mp ht).symm

/-- **What the map remembers, by its history**: an id is remembered with expiry `x` exactly
when an `add` took it with `x ≠ 0` at a point where it was not remembered, and no `SetMin`
above `x` has come since. Later `add`s of the id change nothing while it is remembered. -/
theorem remembered_eq_some_iff (evs : List (Event ι)) (id : ι) (x : ℤ) :
    remembered evs id = some x ↔ ∃ pre post, evs = pre ++ .add id x :: post ∧ x ≠ 0 ∧
      remembered pre id = none ∧ ∀ t, Event.setMin t ∈ post → t ≤ x := by
  induction evs using List.reverseRecOn with
  | nil => simp [remembered]
  | append_singleton evs ev ih =>
    rw [history_concat, ← ih, remembered_concat]
    cases ev with
    | add id' t =>
      simp only [Event.remember, Event.add.injEq, reduceCtorEq, false_implies, implies_true,
        and_true]
      by_cases hid : id' = id
      · subst hid
        by_cases ht : t = 0
        · -- a genesis expiry is never recorded
          rw [if_pos (.inl ht)]
          constructor
          · exact .inr
          · rintro (⟨⟨-, htx⟩, hx, -⟩ | h)
            · exact absurd (htx ▸ ht) hx
            · exact h
        cases hm : remembered evs id' with
        | some v => simp [hm]
        | none =>
          -- the first `add` of the id takes it
          rw [if_neg (by simp [ht]), Function.update_self]
          constructor
          · intro h
            cases h
            exact .inl ⟨⟨rfl, rfl⟩, ht, rfl⟩
          · rintro (⟨⟨-, rfl⟩, -, -⟩ | h)
            · rfl
            · cases h
      · split_ifs <;> simp [hid, Function.update_of_ne (Ne.symm hid)]
    | setMin t =>
      simp [Event.remember, Option.filter_eq_some_iff]

end Hypersdk.Emap
