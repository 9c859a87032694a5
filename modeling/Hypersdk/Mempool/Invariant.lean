import Hypersdk.Mempool.Mempool
import Mathlib

/-!
# What the mempool keeps of itself

`Inv m dropped` says that the queue and the expiry heap hold the same elements, at distinct
addresses, but for `dropped`, elements the heap has let go of and the queue still links; that
`owned` counts the held items by sponsor with no entry at zero (`Counts`), `pendingSize` is
their bytes, at most `maxSize` are held and a sponsor that is not exempt has at most
`maxSponsorSize`. `Inv m []` is the invariant; the elements in `dropped` are those that
`popNext`, `Remove` and `SetMinTimestamp` take out of the heap before `unlink` takes them out of
the queue (`Inv.withHeap`, then `Inv.unlink`). `add` puts one element in both (`Inv.insert`).
-/

namespace Hypersdk.Mempool

set_option linter.dupNamespace false
set_option linter.unusedSectionVars false

open Eheap Linked

variable {α ι σ ε : Type} [DecidableEq ι] [DecidableEq σ] {I : Item α ι σ} {c : Limits σ}

/-- How many items of `l` sponsor `s` has. -/
def sponsorCount (I : Item α ι σ) (l : List α) (s : σ) : ℤ :=
  ((l.filter fun x => I.Sponsor x = s).length : ℤ)

/-- `owned` counts `l` by sponsor, and has no entry at zero. -/
def Counts (I : Item α ι σ) (owned : σ → Option ℤ) (l : List α) : Prop :=
  ∀ s, (owned s).getD 0 = sponsorCount I l s ∧ owned s ≠ some 0

theorem sponsorCount_cons (x : α) (l : List α) (s : σ) :
    sponsorCount I (x :: l) s = sponsorCount I l s + if I.Sponsor x = s then 1 else 0 := by
  by_cases hs : I.Sponsor x = s <;> simp [sponsorCount, hs]

theorem sponsorCount_perm {l l' : List α} (h : l.Perm l') (s : σ) :
    sponsorCount I l s = sponsorCount I l' s := by
  simp only [sponsorCount, (h.filter _).length_eq]

theorem sponsorCount_nonneg (l : List α) (s : σ) : 0 ≤ sponsorCount I l s :=
  Int.natCast_nonneg _

theorem Counts.perm {owned : σ → Option ℤ} {l l' : List α} (h : Counts I owned l)
    (hl : l.Perm l') : Counts I owned l' := fun s => by
  rw [← sponsorCount_perm hl s]
  exact h s

/-- `m.owned[sender]++` counts one more item. -/
theorem Counts.cons {owned : σ → Option ℤ} {l : List α} (h : Counts I owned l) (x : α) :
    Counts I (Function.update owned (I.Sponsor x) (some ((owned (I.Sponsor x)).getD 0 + 1)))
      (x :: l) := by
  intro s
  rw [sponsorCount_cons]
  by_cases hs : s = I.Sponsor x
  · subst hs
    have h0 := sponsorCount_nonneg (I := I) l (I.Sponsor x)
    rw [Function.update_self, Option.getD_some, (h _).1, if_pos rfl]
    refine ⟨rfl, fun h1 => ?_⟩
    have : sponsorCount I l (I.Sponsor x) + 1 = 0 := Option.some.inj h1
    omega
  · rw [Function.update_of_ne hs, if_neg (Ne.symm hs), Int.add_zero]
    exact h s

/-- `removeFromOwned` counts one item less. -/
theorem Counts.erase {owned : σ → Option ℤ} {x : α} {l : List α} (h : Counts I owned (x :: l)) :
    Counts I (Mempool.removeFromOwned owned (I.Sponsor x)) l := by
  obtain ⟨hget, -⟩ := h (I.Sponsor x)
  rw [sponsorCount_cons, if_pos rfl] at hget
  have h0 := sponsorCount_nonneg (I := I) l (I.Sponsor x)
  -- the sponsor has an entry, since it has an item
  obtain ⟨n, ho⟩ : ∃ n, owned (I.Sponsor x) = some n := by
    cases ho : owned (I.Sponsor x) with
    | none =>
      rw [ho, Option.getD_none] at hget
      omega
    | some n => exact ⟨n, rfl⟩
  rw [ho, Option.getD_some] at hget
  intro s
  by_cases hs : s = I.Sponsor x
  · subst hs
    unfold Mempool.removeFromOwned
    rw [ho]
    dsimp only
    split_ifs with h1
    · simp only [Function.update_self, Option.getD_none]
      exact ⟨by omega, by simp⟩
    · simp only [Function.update_self, Option.getD_some]
      exact ⟨by omega, fun h2 => h1 (by have := Option.some.inj h2; omega)⟩
  · have hs' := h s
    rw [sponsorCount_cons, if_neg (Ne.symm hs), Int.add_zero] at hs'
    unfold Mempool.removeFromOwned
    rw [ho]
    dsimp only
    split_ifs <;> rwa [Function.update_of_ne hs]

namespace Mempool

/-- The items held, from the front of the queue. -/
def held (m : Mempool I c) : List α := m.queue.map (·.value)

/-- What the mempool keeps of itself, but that the elements `dropped` have left the expiry heap
and are still in the queue. -/
structure Inv (m : Mempool I c) (dropped : List (Element α)) : Prop where
  /-- The heap holds the queue's elements, but `dropped`. -/
  elems : (dropped ++ m.eh.items).Perm m.queue
  /-- The queue's elements are at distinct addresses, all handed out. -/
  addrs : (m.queue.map (·.addr)).Nodup
  fresh : ∀ e ∈ m.queue, e.addr < m.next
  owned : Counts I m.owned m.held
  pending : m.pendingSize = (m.held.map I.Size).sum
  size : (m.queue.length : ℤ) ≤ c.maxSize
  sponsor : ∀ s ∉ c.exemptSponsors, sponsorCount I m.held s ≤ c.maxSponsorSize

theorem held_perm {m m' : Mempool I c} {e : Element α} (h : m.queue.Perm (e :: m'.queue)) :
    m.held.Perm (e.value :: m'.held) := by
  simpa [held] using h.map (·.value)

theorem inv_new {maxSize maxSponsorSize : ℤ} {exemptSponsors : List σ} (hmax : 0 ≤ maxSize)
    (hsponsor : 0 ≤ maxSponsorSize) :
    (new I maxSize maxSponsorSize exemptSponsors).Inv [] where
  elems := by simp [new]
  addrs := List.nodup_nil
  fresh := fun _ h => by simp [new] at h
  owned := fun s => by simp [new, held, sponsorCount]
  pending := rfl
  size := by simpa [new, limits] using hmax
  sponsor := fun s _ => by simpa [new, held, sponsorCount, limits] using hsponsor

/-- The fields that streaming writes do not enter the invariant. -/
theorem Inv.setStream {m : Mempool I c} {dropped : List (Element α)} (hm : m.Inv dropped)
    (s : Finset ι) (ns : List α) (b b' : Bool) :
    ({ m with streamedItems := s, nextStream := ns, nextStreamFetched := b, streaming := b' } :
      Mempool I c).Inv dropped :=
  ⟨hm.elems, hm.addrs, hm.fresh, hm.owned, hm.pending, hm.size, hm.sponsor⟩

/-- A new heap that holds what the old one did but `dropped'`. -/
theorem Inv.withHeap {m : Mempool I c} {dropped dropped' : List (Element α)} (hm : m.Inv dropped)
    {eh : ExpiryHeap I.element} (hp : (dropped ++ m.eh.items).Perm (dropped' ++ eh.items)) :
    ({ m with eh := eh } : Mempool I c).Inv dropped' :=
  ⟨hp.symm.trans hm.elems, hm.addrs, hm.fresh, hm.owned, hm.pending, hm.size, hm.sponsor⟩

/-- `unlink` of an element the heap has let go of. -/
theorem Inv.unlink {m : Mempool I c} {e : Element α} {dropped : List (Element α)}
    (hm : m.Inv (e :: dropped)) : (m.unlink e e.value).Inv dropped := by
  have he : e ∈ m.queue := hm.elems.subset (List.mem_cons_self ..)
  have hq : m.queue.Perm (e :: (m.unlink e e.value).queue) := perm_remove he hm.addrs
  have hheld := held_perm hq
  have hsub := remove_sublist m.queue e
  have hcount (s : σ) : sponsorCount I m.held s =
      sponsorCount I (m.unlink e e.value).held s + if I.Sponsor e.value = s then 1 else 0 := by
    rw [sponsorCount_perm hheld, sponsorCount_cons]
  refine ⟨(hm.elems.trans hq).cons_inv, hm.addrs.sublist (hsub.map _),
    fun x hx => hm.fresh x (hsub.subset hx), (hm.owned.perm hheld).erase, ?_, ?_, ?_⟩
  · have hsum := (hheld.map I.Size).sum_eq
    rw [List.map_cons, List.sum_cons] at hsum
    show m.pendingSize - I.Size e.value = _
    rw [hm.pending, hsum]
    omega
  · have hl := hq.length_eq
    have := hm.size
    simp only [List.length_cons] at hl
    omega
  · intro s hs
    have := hm.sponsor s hs
    have := hcount s
    split_ifs at this <;> omega

/-- `unlink` of every element the heap has let go of. -/
theorem Inv.unlinkAll {m : Mempool I c} {dropped : List (Element α)} (hm : m.Inv dropped) :
    (dropped.foldl (fun m e => m.unlink e e.value) m).Inv [] := by
  induction dropped generalizing m with
  | nil => exact hm
  | cons e dropped ih => exact ih hm.unlink

/-! ## `add` -/

/-- An item that passes `add`'s checks goes into the queue and the heap at a new address. -/
theorem Inv.insert {m : Mempool I c} (hm : m.Inv []) {x : α} {q : List (Element α)}
    (hq : q.Perm (⟨m.next, x⟩ :: m.queue)) (hh : m.eh.has (I.ID x) = false)
    (hcap : ¬(I.Sponsor x ∉ c.exemptSponsors ∧
      (m.owned (I.Sponsor x)).getD 0 = c.maxSponsorSize))
    (hfull : ¬(m.queue.length : ℤ) = c.maxSize) :
    ({ m with
        queue := q
        eh := m.eh.add ⟨m.next, x⟩
        owned := Function.update m.owned (I.Sponsor x)
          (some ((m.owned (I.Sponsor x)).getD 0 + 1))
        pendingSize := m.pendingSize + I.Size x
        next := m.next + 1 } : Mempool I c).Inv [] := by
  have hheld : (q.map (·.value)).Perm (x :: m.held) := by simpa [held] using hq.map (·.value)
  have hcount (s : σ) : sponsorCount I (q.map (·.value)) s =
      sponsorCount I m.held s + if I.Sponsor x = s then 1 else 0 := by
    rw [sponsorCount_perm hheld, sponsorCount_cons]
  refine ⟨?_, ?_, ?_, (hm.owned.cons x).perm hheld.symm, ?_, ?_, ?_⟩
  · have hadd := ExpiryHeap.items_add (I := I.element) (x := ⟨m.next, x⟩) hh
    have hel : m.eh.items.Perm m.queue := by simpa using hm.elems
    simpa using (hadd.trans ((List.perm_append_singleton _ _).trans (hel.cons _))).trans hq.symm
  · refine (hq.map _).nodup_iff.mpr (List.nodup_cons.mpr ⟨fun hmem => ?_, hm.addrs⟩)
    obtain ⟨e, he, hea⟩ := List.mem_map.mp hmem
    exact absurd (hm.fresh e he) (by simp [hea])
  · intro e he
    rcases List.mem_cons.mp (hq.subset he) with rfl | he
    · exact Nat.lt_succ_self _
    · exact Nat.lt_succ_of_lt (hm.fresh e he)
  · have hsum := (hheld.map I.Size).sum_eq
    simp only [List.map_cons, List.sum_cons] at hsum
    simp only [held, hsum, hm.pending]
    omega
  · have hl := hq.length_eq
    have := hm.size
    simp only [List.length_cons] at hl
    simp only [hl]
    omega
  · intro s hs
    have hle := hm.sponsor s hs
    show sponsorCount I (q.map (·.value)) s ≤ _
    rw [hcount s]
    split_ifs with hxs
    · -- the sponsor was not at its cap, since its count is what `owned` holds
      subst hxs
      have hne : (m.owned (I.Sponsor x)).getD 0 ≠ c.maxSponsorSize := fun he => hcap ⟨hs, he⟩
      rw [(hm.owned _).1] at hne
      omega
    · omega

theorem Inv.addItem {m : Mempool I c} (hm : m.Inv []) (front : Bool) (x : α) :
    (m.addItem front x).Inv [] := by
  unfold Mempool.addItem
  dsimp only
  split_ifs with hs hh hcap hfull hfront
  · exact hm
  · exact hm
  · exact hm
  · exact hm
  · exact hm.insert (perm_pushBack _ _) (by simpa using hh) hcap hfull
  · exact hm.insert (List.Perm.refl _) (by simpa using hh) hcap hfull

theorem Inv.add {m : Mempool I c} (hm : m.Inv []) (items : List α) (front : Bool) :
    (m.add items front).Inv [] := by
  induction items generalizing m with
  | nil => exact hm
  | cons x items ih => exact ih (hm.addItem front x)

/-! ## `popNext` and `Remove` -/

/-- `popNext` of a non-empty queue. -/
theorem popNext_of_first {m : Mempool I c} {e : Element α} (he : first m.queue = some e) :
    m.popNext =
      ({ m with eh := (m.eh.remove (I.ID e.value)).1 }.unlink e e.value, some e.value) := by
  simp only [popNext, he]

theorem popNext_of_first_eq_none {m : Mempool I c} (he : first m.queue = none) :
    m.popNext = (m, none) := by
  simp only [popNext, he]

theorem Inv.popNext {m : Mempool I c} (hm : m.Inv []) : m.popNext.1.Inv [] := by
  cases he : first m.queue with
  | none =>
    rw [popNext_of_first_eq_none he]
    exact hm
  | some e =>
    rw [popNext_of_first he]
    have hmem : e ∈ m.eh.items := by simpa using hm.elems.symm.subset (mem_of_first he)
    obtain ⟨-, hp⟩ := m.eh.remove_of_mem hmem
    have hp' : ([] ++ m.eh.items).Perm ([e] ++ (m.eh.remove (I.ID e.value)).1.items) := by
      rw [List.nil_append, List.singleton_append]
      exact hp.trans (List.perm_append_singleton _ _)
    exact (hm.withHeap hp').unlink

/-- `popNext` pops when the heap holds something. -/
theorem Inv.popNext_eq_some {m : Mempool I c} (hm : m.Inv []) (hlen : 0 < m.eh.len) :
    ∃ v, m.popNext.2 = some v := by
  have hel : m.eh.items.Perm m.queue := by simpa using hm.elems
  rw [ExpiryHeap.len_eq, hel.length_eq] at hlen
  obtain ⟨e, he⟩ : ∃ e, first m.queue = some e := by
    cases hq : m.queue with
    | nil => simp [hq] at hlen
    | cons e l => exact ⟨e, by simp [first]⟩
  exact ⟨e.value, by rw [popNext_of_first he]⟩

/-- `Remove` of an item whose id is held: its sponsor and size are the held item's, since an id
fixes them. -/
theorem Inv.removeItem
    (hI : ∀ a b, I.ID a = I.ID b → I.Sponsor a = I.Sponsor b ∧ I.Size a = I.Size b)
    {m : Mempool I c} (hm : m.Inv []) (item : α) : (m.removeItem item).Inv [] := by
  rcases m.eh.remove_spec (I.ID item) with ⟨e, -, hid, hsome, hp⟩ | ⟨-, hnone⟩
  · -- the counts lose the held item's sponsor and size, which are the given item's
    obtain ⟨hs, hz⟩ := hI e.value item hid
    have hu : ({ m with eh := (m.eh.remove (I.ID item)).1 } : Mempool I c).unlink e item =
        ({ m with eh := (m.eh.remove (I.ID item)).1 } : Mempool I c).unlink e e.value := by
      simp only [Mempool.unlink, hs, hz]
    rw [removeItem_of_remove hsome, hu]
    have hp' : ([] ++ m.eh.items).Perm ([e] ++ (m.eh.remove (I.ID item)).1.items) := by
      rw [List.nil_append, List.singleton_append]
      exact hp.trans (List.perm_append_singleton _ _)
    exact (hm.withHeap hp').unlink
  · rw [Mempool.removeItem, hnone]
    exact hm

theorem Inv.remove
    (hI : ∀ a b, I.ID a = I.ID b → I.Sponsor a = I.Sponsor b ∧ I.Size a = I.Size b)
    {m : Mempool I c} (hm : m.Inv []) (items : List α) : (m.remove items).Inv [] := by
  induction items generalizing m with
  | nil => exact hm
  | cons x items ih => exact ih (hm.removeItem hI x)

/-! ## `SetMinTimestamp` -/

theorem eh_unlinkAll (m : Mempool I c) (dropped : List (Element α)) :
    (dropped.foldl (fun m e => m.unlink e e.value) m).eh = m.eh := by
  induction dropped generalizing m with
  | nil => rfl
  | cons e dropped ih => exact ih _

/-- The heap's `SetMin` lets go of what it returns. -/
theorem Inv.setMin {m : Mempool I c} (hm : m.Inv []) (t : ℤ) :
    ({ m with eh := (m.eh.setMin t).1 } : Mempool I c).Inv (m.eh.setMin t).2 := by
  obtain ⟨rest, hr, hp, -, -⟩ := ExpiryHeap.setMinLoop_spec t m.eh []
  rw [List.nil_append] at hr
  refine hm.withHeap ?_
  rw [List.nil_append, ExpiryHeap.setMin, hr]
  exact hp

theorem Inv.setMinTimestamp {m : Mempool I c} (hm : m.Inv []) (t : ℤ) :
    (m.setMinTimestamp t).1.Inv [] :=
  (hm.setMin t).unlinkAll

/-- **`SetMinTimestamp(t)`** returns exactly the items held that expire before `t`, and keeps
exactly the others. -/
theorem setMinTimestamp_spec {m : Mempool I c} (hm : m.Inv []) (t : ℤ) :
    (m.setMinTimestamp t).2.Perm (m.held.filter fun x => I.Expiry x < t) ∧
      (m.setMinTimestamp t).1.held.Perm (m.held.filter fun x => !decide (I.Expiry x < t)) := by
  obtain ⟨hout, hkept⟩ := m.eh.setMin_spec t
  have hel : m.eh.items.Perm m.queue := by simpa using hm.elems
  have hafter : (m.setMinTimestamp t).1.eh.items.Perm (m.setMinTimestamp t).1.queue := by
    simpa using (hm.setMinTimestamp t).elems
  have heh : (m.setMinTimestamp t).1.eh = (m.eh.setMin t).1 := eh_unlinkAll _ _
  constructor
  · have := (hout.trans (hel.filter _)).map (·.value)
    convert this using 1
    · rfl
    · rw [held, List.filter_map]
      rfl
  · have := ((hafter.symm.trans (heh ▸ hkept)).trans (hel.filter _)).map (·.value)
    convert this using 1
    · rfl
    · rw [held, List.filter_map]
      rfl

/-! ## `Top` and streaming -/

/-- The loop of `Top` returns, and keeps the invariant. -/
theorem Inv.topLoop (f : ℕ → α → Bool × Bool × Option ε) (timedOut : ℕ → Bool) (i : ℕ)
    {m : Mempool I c} (hm : m.Inv []) (restorableItems : List α) :
    ∃ r, m.topLoop f timedOut i restorableItems = some r ∧ r.1.Inv [] := by
  induction i, m, restorableItems using Mempool.topLoop.induct (ι := ι) (σ := σ) f timedOut with
  | case1 i m restorable hlen m' hpop =>
    obtain ⟨v, hv⟩ := hm.popNext_eq_some hlen
    rw [hpop] at hv
    cases hv
  | case2 i m restorable hlen m' next hpop cont restore fErr hf hstop =>
    have hm' : m'.Inv [] := by simpa [hpop] using hm.popNext
    rw [Mempool.topLoop, if_pos hlen]
    split
    · simp_all
    · rename_i heq
      rw [hpop] at heq
      cases heq
      simp only [hf, hstop, if_true]
      exact ⟨_, rfl, hm'⟩
  | case3 i m restorable hlen m' next hpop cont restore fErr hf restorable' hstop ih =>
    have hm' : m'.Inv [] := by simpa [hpop] using hm.popNext
    obtain ⟨r, hr, hinv⟩ := ih hm'
    rw [Mempool.topLoop, if_pos hlen]
    split
    · simp_all
    · rename_i heq
      rw [hpop] at heq
      cases heq
      simp only [hf] at hr ⊢
      rw [if_neg hstop]
      exact ⟨r, hr, hinv⟩
  | case4 i m restorable hlen =>
    rw [Mempool.topLoop, if_neg hlen]
    exact ⟨_, rfl, hm⟩

theorem Inv.top (f : ℕ → α → Bool × Bool × Option ε) (timedOut : ℕ → Bool) {m : Mempool I c}
    (hm : m.Inv []) : ∃ r, m.top f timedOut = some r ∧ r.1.Inv [] := by
  obtain ⟨r, hr, hinv⟩ := hm.topLoop f timedOut 0 []
  exact ⟨_, by rw [Mempool.top, hr]; rfl, hinv.add _ true⟩

theorem Inv.streamItems (count : ℤ) {m : Mempool I c} (hm : m.Inv []) (txs : List α) :
    (m.streamItems count txs).1.Inv [] := by
  induction m, txs using Mempool.streamItems.induct (ι := ι) (σ := σ) count with
  | case1 m txs hlt m' hpop =>
    rw [Mempool.streamItems, if_pos hlt]
    split
    · rename_i heq
      rw [hpop] at heq
      cases heq
      simpa [hpop] using hm.popNext
    · simp_all
  | case2 m txs hlt m' next hpop ih =>
    have hm' : m'.Inv [] := by simpa [hpop] using hm.popNext
    rw [Mempool.streamItems, if_pos hlt]
    split
    · simp_all
    · rename_i heq
      rw [hpop] at heq
      cases heq
      exact ih (hm'.setStream _ m'.nextStream m'.nextStreamFetched m'.streaming)
  | case3 m txs hlt =>
    rw [Mempool.streamItems, if_neg hlt]
    exact hm

theorem streaming_add (m : Mempool I c) (items : List α) (front : Bool) :
    (m.add items front).streaming = m.streaming := by
  induction items generalizing m with
  | nil => rfl
  | cons x items ih =>
    rw [Mempool.add, List.foldl_cons, ← Mempool.add, ih]
    unfold Mempool.addItem
    dsimp only
    split_ifs <;> rfl

theorem Inv.finishStreaming {m : Mempool I c} (hm : m.Inv []) (restorable : List α) :
    ∀ r, m.finishStreaming restorable = some r → r.1.Inv [] := by
  intro r hr
  unfold Mempool.finishStreaming at hr
  dsimp only at hr
  have h₁ := (hm.setStream ∅ m.nextStream m.nextStreamFetched m.streaming).add restorable true
  split_ifs at hr with hfetched hs hs
  · cases hr
    exact ((h₁.add _ true).setStream _ [] false _).setStream _ _ _ false
  · cases hr
    exact h₁.setStream _ _ _ false

/-! ## Runs -/

/-- Every call keeps the invariant. -/
theorem Inv.step
    (hI : ∀ a b, I.ID a = I.ID b → I.Sponsor a = I.Sponsor b ∧ I.Size a = I.Size b)
    {m m' : Mempool I c} (hm : m.Inv []) {call : Call α ε} (h : m.step call = some m') :
    m'.Inv [] := by
  cases call with
  | add items =>
    cases h
    exact hm.add items false
  | popNext =>
    cases h
    exact hm.popNext
  | remove items =>
    cases h
    exact hm.remove hI items
  | setMinTimestamp t =>
    cases h
    exact hm.setMinTimestamp t
  | top f timedOut =>
    obtain ⟨r, hr, hinv⟩ := hm.top f timedOut
    simp only [Mempool.step, hr, Option.map_some, Option.some.injEq] at h
    exact h ▸ hinv
  | startStreaming =>
    simp only [Mempool.step, Mempool.startStreaming] at h
    split_ifs at h
    cases h
    exact hm.setStream ∅ m.nextStream m.nextStreamFetched true
  | prepareStream count =>
    cases h
    exact (hm.streamItems count []).setStream _ _ true _
  | stream count =>
    cases h
    simp only [Mempool.stream]
    split_ifs
    · exact hm.setStream _ [] false _
    · exact hm.streamItems count []
  | finishStreaming restorable =>
    obtain ⟨r, hr, rfl⟩ := Option.map_eq_some_iff.mp h
    exact hm.finishStreaming restorable r hr

/-- The invariant holds along every run. -/
theorem run_inv
    (hI : ∀ a b, I.ID a = I.ID b → I.Sponsor a = I.Sponsor b ∧ I.Size a = I.Size b)
    {m : Mempool I c} (hm : m.Inv []) (cs : List (Call α ε)) :
    ∀ m', m.run cs = some m' → m'.Inv [] := by
  induction cs generalizing m with
  | nil =>
    intro m' h
    cases h
    exact hm
  | cons call cs ih =>
    intro m' h
    obtain ⟨m₁, h₁, h₂⟩ := Option.bind_eq_some_iff.mp h
    exact ih (hm.step hI h₁) m' h₂

/-- A call stops a run only where it never returns: a second `StartStreaming`, or
`FinishStreaming` without one. -/
theorem Inv.step_eq_none_iff {m : Mempool I c} (hm : m.Inv []) (call : Call α ε) :
    m.step call = none ↔
      (call = .startStreaming ∧ m.streaming = true) ∨
        ((∃ r, call = .finishStreaming r) ∧ m.streaming = false) := by
  cases call with
  | top f timedOut =>
    obtain ⟨r, hr, -⟩ := hm.top f timedOut
    simp [Mempool.step, hr]
  | startStreaming =>
    simp only [Mempool.step, Mempool.startStreaming]
    split_ifs with hs <;> simp [hs]
  | finishStreaming restorable =>
    simp only [Mempool.step, Mempool.finishStreaming, Option.map_eq_none_iff]
    split_ifs with h₁ h₂ h₂ <;> simp_all [streaming_add]
  | _ => simp [Mempool.step]

/-! ## The invariant over runs from `New` -/

/-- The ids the heap holds are the ids of the items held. -/
theorem Inv.ids_perm {m : Mempool I c} (hm : m.Inv []) :
    m.eh.minHeap.ids.Perm (m.held.map I.ID) := by
  have hel : m.eh.items.Perm m.queue := by simpa using hm.elems
  rw [ExpiryHeap.ids_eq]
  simpa [held, Function.comp_def, Item.element] using hel.map I.element.ID

/-- **The mempool's representation invariant.** From `New` with `0 < maxSize` and
`0 ≤ maxSponsorSize`, for items whose id fixes their sponsor and size, after any calls: the queue
and the heap hold the same ids, none twice; `owned` counts the items of each sponsor and has no
entry at zero; `pendingSize` is their bytes; at most `maxSize` items are held; a sponsor that is
not exempt owns at most `maxSponsorSize`; and `SetMinTimestamp(t)` takes exactly the items that
expire before `t`. -/
theorem mempool_representation_invariant (I : Item α ι σ)
    (hI : ∀ a b, I.ID a = I.ID b → I.Sponsor a = I.Sponsor b ∧ I.Size a = I.Size b)
    (maxSize maxSponsorSize : ℤ) (exemptSponsors : List σ) (hmax : 0 < maxSize)
    (hsponsor : 0 ≤ maxSponsorSize) (cs : List (Call α ε))
    (m : Mempool I (limits maxSize maxSponsorSize exemptSponsors))
    (hrun : (new I maxSize maxSponsorSize exemptSponsors).run cs = some m) :
    ((m.held.map I.ID).Nodup ∧ m.eh.minHeap.ids.Nodup ∧
        ∀ id, id ∈ m.held.map I.ID ↔ id ∈ m.eh.minHeap.ids) ∧
      (∀ s, (m.owned s).getD 0 = sponsorCount I m.held s ∧ m.owned s ≠ some 0) ∧
      m.pendingSize = (m.held.map I.Size).sum ∧
      (m.held.length : ℤ) ≤ maxSize ∧
      (∀ s ∉ exemptSponsors, (m.owned s).getD 0 ≤ maxSponsorSize) ∧
      ∀ t, (m.setMinTimestamp t).2.Perm (m.held.filter fun x => I.Expiry x < t) ∧
        (m.setMinTimestamp t).1.held.Perm (m.held.filter fun x => !decide (I.Expiry x < t)) := by
  have hm := run_inv hI (inv_new hmax.le hsponsor) cs m hrun
  have hids := hm.ids_perm
  have hnodup : m.eh.minHeap.ids.Nodup := m.eh.valid.nodup
  refine ⟨⟨hids.nodup_iff.mp hnodup, hnodup, fun id => hids.mem_iff.symm⟩, hm.owned, hm.pending,
    ?_, ?_, setMinTimestamp_spec hm⟩
  · simpa [held, limits] using hm.size
  · intro s hs
    rw [(hm.owned s).1]
    exact hm.sponsor s (by simpa [limits] using hs)

/-- Three items of one sponsor, offered to a mempool of two that lets a sponsor hold two: the
first two are held, filling both the mempool and the sponsor's share, and the third is refused;
`SetMinTimestamp(2)` then takes out the item expiring at 1. -/
theorem mempool_representation_invariant_full :
    let I : Item ℕ ℕ ℕ := ⟨⟨id, fun x => (x : ℤ)⟩, fun _ => 0, fun _ => 1⟩
    let m := (new I 2 2 []).add [1, 2, 3] false
    m.held = [1, 2] ∧ m.owned 0 = some 2 ∧ (m.held.length : ℤ) ≤ 2 ∧
      (∀ s ∉ ([] : List ℕ), (m.owned s).getD 0 ≤ 2) ∧
      (m.setMinTimestamp 2).2.Perm (m.held.filter fun x => I.Expiry x < 2) := by
  intro I m
  have h := mempool_representation_invariant I (fun _ _ _ => ⟨rfl, rfl⟩) 2 2 [] (by decide)
    (by decide) ([.add [1, 2, 3]] : List (Call ℕ Unit)) m rfl
  have hheld : m.held = [1, 2] := by
    simp [m, Mempool.add, Mempool.addItem, new, limits, I, Linked.size, pushBack, Item.element,
      Eheap.ExpiryHeap.has_add, held]
  have howned : m.owned 0 = some 2 := by
    simp [m, Mempool.add, Mempool.addItem, new, limits, I, Linked.size, pushBack, Item.element,
      Eheap.ExpiryHeap.has_add]
  exact ⟨hheld, howned, h.2.2.2.1, h.2.2.2.2.1, (h.2.2.2.2.2 2).1⟩

/-- Without the two assumptions: with items of one id and two sponsors, `Remove` of the one
that is not held takes the held one out but leaves its sponsor's count at one; and with
`maxSponsorSize` below zero, a sponsor's first item is let in over it. -/
theorem remove_unmatched_sponsor_keeps_owned :
    let I : Item (ℕ × ℕ) ℕ ℕ := ⟨⟨Prod.fst, fun _ => 0⟩, Prod.snd, fun _ => 1⟩
    (∃ m, (new I 1 1 []).run ([.add [(0, 0)], .remove [(0, 1)]] : List (Call (ℕ × ℕ) Unit)) =
        some m ∧ m.held = [] ∧ m.owned 0 = some 1) ∧
      ∃ m, (new I 1 (-1) []).run ([.add [(0, 0)]] : List (Call (ℕ × ℕ) Unit)) = some m ∧
        m.owned 0 = some 1 := by
  intro I
  have hadd : ((new I 1 1 []).add [(0, 0)] false).queue = [⟨0, (0, 0)⟩] ∧
      ((new I 1 1 []).add [(0, 0)] false).owned 0 = some 1 ∧
      ((new I 1 1 []).add [(0, 0)] false).owned 1 = none := by
    simp [Mempool.add, Mempool.addItem, new, limits, I, Linked.size, pushBack]
  have hm : ((new I 1 1 []).add [(0, 0)] false).Inv [] :=
    (inv_new (by decide) (by decide)).add _ false
  have he : (⟨0, (0, 0)⟩ : Element (ℕ × ℕ)) ∈ ((new I 1 1 []).add [(0, 0)] false).eh.items := by
    have hel := hm.elems
    rw [hadd.1] at hel
    exact hel.symm.subset (List.mem_singleton_self _)
  -- the heap gives up the held element for the id of `(0, 1)`
  have hrem := removeItem_of_remove (show (((new I 1 1 []).add [(0, 0)] false).eh.remove
    (I.ID (0, 1))).2 = some ⟨0, (0, 0)⟩ from (ExpiryHeap.remove_of_mem he).1)
  refine ⟨⟨_, rfl, ?_, ?_⟩, ⟨_, rfl, ?_⟩⟩
  · simp only [Mempool.remove, List.foldl_cons, List.foldl_nil, hrem]
    simp [Mempool.unlink, held, hadd.1, Linked.remove]
  · simp only [Mempool.remove, List.foldl_cons, List.foldl_nil, hrem]
    simp [Mempool.unlink, Mempool.removeFromOwned, hadd.2.1, hadd.2.2, I]
  · simp [Mempool.add, Mempool.addItem, new, limits, I, Linked.size]

end Mempool

end Hypersdk.Mempool
