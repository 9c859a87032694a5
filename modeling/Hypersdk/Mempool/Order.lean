import Hypersdk.Mempool.Invariant

/-!
# The order of the queue

`add` puts the items it lets in at the back of the queue in their order, or, with `front`, each
at the front, before the one let in before it: in the reverse order (`Inv.held_add_of_fits`).
`Fits m items` says that `add` lets every item in: their ids are new, none was streamed, and the
sponsor counts and the size stay within the limits.

`topList` is `Top`'s loop on the items held, from the front: which of them `f` asks to restore,
which are left unpopped, and the error. `Top` restores with `front`, and so, in every reachable
state, the items `f` restores come back at the head of the queue in the reverse of the order in
which they were popped, ahead of those never popped (`restore_reverses_order`); so do the items
`FinishStreaming` is given.
-/

namespace Hypersdk.Mempool

set_option linter.dupNamespace false
set_option linter.unusedSectionVars false

open Eheap Linked

variable {α ι σ ε : Type} [DecidableEq ι] [DecidableEq σ] {I : Item α ι σ} {c : Limits σ}

theorem sponsorCount_append (l₁ l₂ : List α) (s : σ) :
    sponsorCount I (l₁ ++ l₂) s = sponsorCount I l₁ s + sponsorCount I l₂ s := by
  simp [sponsorCount, List.filter_append]

theorem sponsorCount_le_of_subperm {l l' : List α} (h : l.Subperm l') (s : σ) :
    sponsorCount I l s ≤ sponsorCount I l' s := by
  simp only [sponsorCount]
  exact Int.ofNat_le.mpr (h.filter _).length_le

/-- `Top`'s loop on the items held from the front: the items `f` asks to restore, the items
left in the queue, and the error returned. -/
def topList (f : ℕ → α → Bool × Bool × Option ε) (timedOut : ℕ → Bool) :
    ℕ → List α → List α × List α × Option ε
  | _, [] => ([], [], none)
  | i, x :: l =>
    let (cont, restore, fErr) := f i x
    let r := if restore then [x] else []
    if !cont || timedOut i || fErr.isSome then (r, l, fErr)
    else
      let (rs, rest, err) := topList f timedOut (i + 1) l
      (r ++ rs, rest, err)

/-- What `Top` pops and restores is a part of what was held, none twice. -/
theorem topList_subperm (f : ℕ → α → Bool × Bool × Option ε) (timedOut : ℕ → Bool) :
    ∀ (i : ℕ) (l : List α), ((topList f timedOut i l).2.1 ++ (topList f timedOut i l).1).Subperm l
  | _, [] => List.nil_subperm
  | i, x :: l => by
    have hr : ∀ restore : Bool, ((if restore then [x] else []) ++ l).Subperm (x :: l) := by
      intro restore
      cases restore
      · exact (List.sublist_cons_self x l).subperm
      · exact List.Subperm.refl _
    rcases hf : f i x with ⟨cont, restore, fErr⟩
    by_cases hstop : (!cont || timedOut i || fErr.isSome) = true
    · simp only [topList, hf, if_pos hstop]
      exact List.perm_append_comm.subperm.trans (hr restore)
    · -- `rest ++ (r ++ rs)` is `r ++ (rest ++ rs)` reordered, and `rest ++ rs` is a part of `l`
      simp only [topList, hf, if_neg hstop]
      have ih := topList_subperm f timedOut (i + 1) l
      have hp : ((topList f timedOut (i + 1) l).2.1 ++ ((if restore then [x] else []) ++
          (topList f timedOut (i + 1) l).1)).Perm ((if restore then [x] else []) ++
          ((topList f timedOut (i + 1) l).2.1 ++ (topList f timedOut (i + 1) l).1)) :=
        List.perm_append_comm_assoc _ _ _
      exact hp.subperm.trans (((List.subperm_append_left _).mpr ih).trans (hr restore))

namespace Mempool

/-- `add` lets every item of `items` in, one after the other. -/
structure Fits (m : Mempool I c) (items : List α) : Prop where
  nodup : ((m.held ++ items).map I.ID).Nodup
  fresh : ∀ x ∈ items, I.ID x ∉ m.streamedItems
  sponsor : ∀ s ∉ c.exemptSponsors, sponsorCount I (m.held ++ items) s ≤ c.maxSponsorSize
  size : ((m.held ++ items).length : ℤ) ≤ c.maxSize

theorem Fits.of_perm {m m' : Mempool I c} {items items' : List α} (h : m.Fits items)
    (hp : (m'.held ++ items').Perm (m.held ++ items)) (hs : m'.streamedItems = m.streamedItems)
    (hsub : ∀ x ∈ items', x ∈ items) : m'.Fits items' where
  nodup := (hp.map I.ID).nodup_iff.mpr h.nodup
  fresh x hx := hs ▸ h.fresh x (hsub x hx)
  sponsor s hs' := by
    rw [sponsorCount_perm hp s]
    exact h.sponsor s hs'
  size := hp.length_eq ▸ h.size

/-- Every part of what a reachable mempool holds, none twice, fits back into it, once the rest
is out: the items to restore, beside those left. -/
theorem Inv.fits_of_subperm {m m₁ : Mempool I c} (hm : m.Inv [])
    (hs : ∀ x ∈ m.held, I.ID x ∉ m.streamedItems) (hstream : m₁.streamedItems = m.streamedItems)
    {items : List α} (hsub : (m₁.held ++ items).Subperm m.held) : m₁.Fits items where
  nodup := by
    obtain ⟨l, hl, hsl⟩ := hsub
    exact (hl.map I.ID).nodup_iff.mp ((hsl.map I.ID).nodup (hm.ids_perm.nodup_iff.mp m.eh.valid.nodup))
  fresh x hx := hstream ▸ hs x (hsub.subset (List.mem_append_right _ hx))
  sponsor s hs' := (sponsorCount_le_of_subperm hsub s).trans (hm.sponsor s hs')
  size := by
    have hle := hsub.length_le
    have hsize := hm.size
    simp only [held, List.length_map] at hle ⊢
    omega

/-- An item that fits goes in, at the front or at the back. -/
theorem Inv.addItem_of_fits {m : Mempool I c} (hm : m.Inv []) {x : α} {items : List α}
    (h : m.Fits (x :: items)) (front : Bool) :
    (m.addItem front x).held = (if front then x :: m.held else m.held ++ [x]) ∧
      (m.addItem front x).streamedItems = m.streamedItems := by
  have hs : I.ID x ∉ m.streamedItems := h.fresh x List.mem_cons_self
  have hh : m.eh.has (I.ID x) = false := by
    rw [Bool.eq_false_iff]
    intro hx
    obtain ⟨y, hy, hid⟩ := ExpiryHeap.has_iff.mp hx
    -- `y` is held, and so its id is not that of an item to add
    have hq : y.value ∈ m.held := List.mem_map_of_mem (hm.elems.subset (by simpa using hy))
    have hd := List.disjoint_of_nodup_append (List.map_append ▸ h.nodup)
    exact hd (List.mem_map_of_mem hq) (hid ▸ List.mem_map_of_mem List.mem_cons_self)
  have hcap : ¬(I.Sponsor x ∉ c.exemptSponsors ∧
      (m.owned (I.Sponsor x)).getD 0 = c.maxSponsorSize) := by
    rintro ⟨hex, heq⟩
    have hle := h.sponsor _ hex
    rw [(hm.owned _).1] at heq
    rw [sponsorCount_append, sponsorCount_cons, if_pos rfl] at hle
    have := sponsorCount_nonneg (I := I) items (I.Sponsor x)
    omega
  have hfull : ¬(Linked.size m.queue : ℤ) = c.maxSize := by
    have hsize := h.size
    simp only [held, List.length_append, List.length_map, List.length_cons] at hsize
    simp only [Linked.size]
    omega
  unfold Mempool.addItem
  dsimp only
  rw [if_neg hs, if_neg (by simp [hh]), if_neg hcap, if_neg hfull]
  cases front <;> simp [held, pushBack, pushFront]

/-- **`add` of items that fit**: at the back in their order, at the front in the reverse. -/
theorem Inv.held_add_of_fits {m : Mempool I c} (hm : m.Inv []) {items : List α} (h : m.Fits items)
    (front : Bool) :
    (m.add items front).held = if front then items.reverse ++ m.held else m.held ++ items := by
  induction items generalizing m with
  | nil => cases front <;> simp [Mempool.add]
  | cons x items ih =>
    obtain ⟨hheld, hstream⟩ := hm.addItem_of_fits h front
    have hp : ((m.addItem front x).held ++ items).Perm (m.held ++ x :: items) := by
      rw [hheld]
      cases front
      · simp
      · exact List.perm_middle.symm
    have h' := h.of_perm hp hstream fun y hy => List.mem_cons_of_mem x hy
    rw [Mempool.add, List.foldl_cons, ← Mempool.add, ih (hm.addItem front x) h', hheld]
    cases front <;> simp

/-- `add` leaves the streaming fields as they are. -/
theorem stream_add (m : Mempool I c) (items : List α) (front : Bool) :
    (m.add items front).streamedItems = m.streamedItems ∧
      (m.add items front).nextStreamFetched = m.nextStreamFetched := by
  induction items generalizing m with
  | nil => exact ⟨rfl, rfl⟩
  | cons x items ih =>
    rw [Mempool.add, List.foldl_cons, ← Mempool.add, (ih _).1, (ih _).2]
    unfold Mempool.addItem
    dsimp only
    split_ifs <;> exact ⟨rfl, rfl⟩

/-- `popNext` that pops takes the item at the front. -/
theorem held_popNext {m m' : Mempool I c} {v : α} (h : m.popNext = (m', some v)) :
    m.held = v :: m'.held ∧ m'.streamedItems = m.streamedItems := by
  cases he : first m.queue with
  | none =>
    rw [popNext_of_first_eq_none he] at h
    cases h
  | some e =>
    rw [popNext_of_first he, Prod.mk.injEq, Option.some.injEq] at h
    obtain ⟨rfl, rfl⟩ := h
    obtain ⟨q, hq⟩ : ∃ q, m.queue = e :: q := by
      cases hq : m.queue with
      | nil => simp [hq, first] at he
      | cons a q =>
        rw [hq] at he
        cases he
        exact ⟨q, rfl⟩
    refine ⟨?_, rfl⟩
    simp only [held, unlink]
    rw [remove_of_first he, hq, List.tail_cons, List.map_cons]

theorem Inv.held_eq_nil {m : Mempool I c} (hm : m.Inv []) (hlen : ¬0 < m.eh.len) : m.held = [] := by
  have hel : m.eh.items.Perm m.queue := by simpa using hm.elems
  rw [ExpiryHeap.len_eq, hel.length_eq] at hlen
  simpa [held] using hlen

/-- **`Top`'s loop is `topList`** on the items held: it restores what `topList` restores, leaves
what it leaves and returns its error. -/
theorem Inv.topLoop_eq (f : ℕ → α → Bool × Bool × Option ε) (timedOut : ℕ → Bool) (i : ℕ)
    {m : Mempool I c} (hm : m.Inv []) (restorableItems : List α) :
    ∃ m', m.topLoop f timedOut i restorableItems =
        some (m', restorableItems ++ (topList f timedOut i m.held).1,
          (topList f timedOut i m.held).2.2) ∧
      m'.held = (topList f timedOut i m.held).2.1 ∧ m'.streamedItems = m.streamedItems ∧
      m'.Inv [] := by
  induction i, m, restorableItems using Mempool.topLoop.induct (ι := ι) (σ := σ) f timedOut with
  | case1 i m restorable hlen m' hpop =>
    obtain ⟨v, hv⟩ := hm.popNext_eq_some hlen
    rw [hpop] at hv
    cases hv
  | case2 i m restorable hlen m' next hpop cont restore fErr hf hstop =>
    obtain ⟨hheld, hstream⟩ := held_popNext hpop
    have hm' : m'.Inv [] := by simpa [hpop] using hm.popNext
    rw [Mempool.topLoop, if_pos hlen]
    split
    · simp_all
    · rename_i heq
      rw [hpop] at heq
      cases heq
      simp only [hf, hstop, if_true, hheld, topList]
      refine ⟨_, ?_, rfl, hstream, hm'⟩
      cases restore <;> simp
  | case3 i m restorable hlen m' next hpop cont restore fErr hf restorable' hstop ih =>
    obtain ⟨hheld, hstream⟩ := held_popNext hpop
    have hm' : m'.Inv [] := by simpa [hpop] using hm.popNext
    obtain ⟨m'', hr, hheld'', hstream'', hinv⟩ := ih hm'
    rw [show restorable' = if restore then restorable ++ [next] else restorable from dite_eq_ite]
      at hr
    rw [Mempool.topLoop, if_pos hlen]
    split
    · simp_all
    · rename_i heq
      rw [hpop] at heq
      cases heq
      simp only [hf] at hr ⊢
      rw [if_neg hstop]
      refine ⟨m'', ?_, ?_, hstream''.trans hstream, hinv⟩
      · rw [hr, hheld]
        simp only [topList, hf, if_neg hstop]
        cases restore <;> simp
      · rw [hheld'', hheld]
        simp only [topList, hf, if_neg hstop]
  | case4 i m restorable hlen =>
    rw [Mempool.topLoop, if_neg hlen, hm.held_eq_nil hlen]
    exact ⟨m, by simp [topList], by simp [hm.held_eq_nil hlen, topList], rfl, hm⟩

/-- **Restoring reverses the order.** In a mempool that keeps its invariant, with nothing held
streamed: `Top` puts the items `f` restores back at the head of the queue in the reverse of the
order in which it popped them, ahead of those it never popped; and `FinishStreaming`, with no
stream prepared, puts the items it is given, where they fit, at the head in the reverse of their
order. -/
theorem restore_reverses_order {m : Mempool I c} (hm : m.Inv [])
    (hs : ∀ x ∈ m.held, I.ID x ∉ m.streamedItems) (f : ℕ → α → Bool × Bool × Option ε)
    (timedOut : ℕ → Bool) :
    (∃ m', m.top f timedOut = some (m', (topList f timedOut 0 m.held).2.2) ∧
      m'.held = (topList f timedOut 0 m.held).1.reverse ++ (topList f timedOut 0 m.held).2.1) ∧
    ∀ restorable : List α, ({ m with streamedItems := ∅ } : Mempool I c).Fits restorable →
      m.nextStreamFetched = false → m.streaming = true →
      ∃ m', m.finishStreaming restorable = some (m', restorable.length) ∧
        m'.held = restorable.reverse ++ m.held := by
  refine ⟨?_, fun restorable hfits hfetched hstreaming => ?_⟩
  · obtain ⟨m₁, hloop, hheld, hstream, hm₁⟩ := hm.topLoop_eq f timedOut 0 []
    -- what is restored fits beside what is left, as both come from what was held
    have hfits : m₁.Fits (topList f timedOut 0 m.held).1 :=
      hm.fits_of_subperm hs hstream (hheld ▸ topList_subperm f timedOut 0 m.held)
    refine ⟨_, by rw [Mempool.top, hloop, List.nil_append]; rfl, ?_⟩
    rw [hm₁.held_add_of_fits hfits true, if_pos rfl, hheld]
  · have hm₀ : ({ m with streamedItems := ∅ } : Mempool I c).Inv [] :=
      hm.setStream ∅ m.nextStream m.nextStreamFetched m.streaming
    have hadd := hm₀.held_add_of_fits hfits true
    have hf₁ : (({ m with streamedItems := ∅ } : Mempool I c).add restorable true).nextStreamFetched =
        false := (stream_add _ restorable true).2.trans hfetched
    have hs₁ : (({ m with streamedItems := ∅ } : Mempool I c).add restorable true).streaming = true :=
      (streaming_add _ restorable true).trans hstreaming
    refine ⟨{ (({ m with streamedItems := ∅ } : Mempool I c).add restorable true) with
      streaming := false }, ?_, by simpa [held] using hadd⟩
    simp only [Mempool.finishStreaming, hf₁, hs₁, Bool.false_eq_true, if_false, if_true]
/-- Two items popped by a `Top` that restores both come back in the reverse order. -/
theorem restore_reverses_order_two_items :
    let I : Item ℕ ℕ ℕ := ⟨⟨id, fun _ => 0⟩, fun _ => 0, fun _ => 1⟩
    ∃ m', ((new I 2 2 []).add [1, 2] false).held = [1, 2] ∧
      ((new I 2 2 []).add [1, 2] false).top (fun _ _ => ((true, true, none) : Bool × Bool × Option Unit))
        (fun _ => false) = some (m', none) ∧ m'.held = [2, 1] := by
  intro I
  have hnew : (new I 2 2 []).Inv [] := inv_new (by decide) (by decide)
  have hfits : (new I 2 2 []).Fits [1, 2] :=
    ⟨by decide, fun x _ => by simp [new],
      fun s _ => by
        by_cases hs : 0 = s
        · subst hs
          decide
        · simp [sponsorCount, new, held, limits, I, hs],
      by simp [new, held, limits]⟩
  have hheld : ((new I 2 2 []).add [1, 2] false).held = [1, 2] := by
    rw [hnew.held_add_of_fits hfits false]
    rfl
  have hs : ∀ x ∈ ((new I 2 2 []).add [1, 2] false).held,
      I.ID x ∉ ((new I 2 2 []).add [1, 2] false).streamedItems := by
    intro x _
    rw [(stream_add _ _ false).1]
    simp [new]
  obtain ⟨⟨m', htop, hheld'⟩, -⟩ := restore_reverses_order (hnew.add [1, 2] false) hs
    (fun _ _ => ((true, true, none) : Bool × Bool × Option Unit)) (fun _ => false)
  rw [hheld] at htop hheld'
  exact ⟨m', hheld, htop, hheld'⟩

end Mempool

end Hypersdk.Mempool
