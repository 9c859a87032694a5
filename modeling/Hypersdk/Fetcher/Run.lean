import Hypersdk.Fetcher.Invariant

/-!
# The fetcher over a run

`Reach im evs f` is what a run from `New` through the events `evs` keeps beside `Inv`: a
transaction registered was fetched, each `Fetch` registered its keys, a key cached was read by a
worker, and no key was read twice. With the ids of the `Fetch` calls distinct, as the source asks
of its callers, it holds along every run (`Reach.run`). The main theorem reads off it what a run
from `New` guarantees when no error stops the fetcher: `Get` of a transaction returns only the
map of what `im` holds of its keys, each of them read before, and it does return once no task is
left; each key is read at most once; a worker never panics, so no waiter is closed twice; and
once no task is left no waiter is open.
-/

namespace Hypersdk.Fetcher

set_option linter.dupNamespace false

open State

variable {ι : Type} [DecidableEq ι]

/-- The transaction a `Fetch` registers. -/
def Event.fetchID : Event ι → Option ι
  | .fetch txID _ => some txID
  | _ => none

/-- The key a worker reads. -/
def Event.workKey : Event ι → Option Bytes
  | .work k => some k
  | _ => none

namespace Fetcher

variable {im : Bytes → Lookup} {f : Fetcher ι}

/-- What a run through the events `evs` keeps, beside `Inv`. -/
structure Reach (im : Bytes → Lookup) (evs : List (Event ι)) (f : Fetcher ι) : Prop where
  inv : Inv im f
  /-- A registered transaction has been fetched. -/
  fetched : ∀ id, f.txs id ≠ none → id ∈ evs.filterMap Event.fetchID
  /-- Without an error, each `Fetch` has registered its transaction with its keys. -/
  registered : f.err = none → ∀ id stateKeys, Event.fetch id stateKeys ∈ evs →
    ∃ tx, f.txs id = some tx ∧ tx.keys = stateKeys
  /-- A key cached has been read by a worker. -/
  read : ∀ k key, f.keys k = some key → key.cache.isSome → Event.work k ∈ evs
  /-- No key is read twice ... -/
  once : (evs.filterMap Event.workKey).Nodup
  /-- ... since a key read keeps its entry and has no task left. -/
  done : ∀ k ∈ evs.filterMap Event.workKey, f.keys k ≠ none ∧ k ∉ f.tasks

theorem Reach.new (im : Bytes → Lookup) : Reach im [] (new : Fetcher ι) :=
  ⟨Inv.new im, by simp [Fetcher.new], by simp, by simp [Fetcher.new], by simp, by simp⟩

/-- A step that keeps the keys, the transactions and the tasks, reads no key and registers
nothing keeps `Reach`: `Stop`, `Wait`, and `Fetch` once there is an error. -/
theorem Reach.of_frame {evs : List (Event ι)} {e : Event ι} {g : Fetcher ι} (h : Reach im evs f)
    (hinv : Inv im g) (hkeys : g.keys = f.keys) (htxs : g.txs = f.txs) (htasks : g.tasks = f.tasks)
    (herr : g.err = none → f.err = none ∧ e.fetchID = none) (he : e.workKey = none) :
    Reach im (evs ++ [e]) g where
  inv := hinv
  fetched := fun id hid => by
    rw [htxs] at hid
    simp [List.filterMap_append, h.fetched id hid]
  registered := fun hn id stateKeys hm => by
    obtain ⟨hf, hid⟩ := herr hn
    rw [htxs]
    rcases List.mem_append.mp hm with hm | hm
    · exact h.registered hf id stateKeys hm
    · simp only [List.mem_singleton] at hm
      simp [← hm, Event.fetchID] at hid
  read := fun k key hk hc => by
    rw [hkeys] at hk
    exact List.mem_append_left _ (h.read k key hk hc)
  once := by simpa [List.filterMap_append, he] using h.once
  done := fun k hk => by
    rw [hkeys, htasks]
    exact h.done k (by simpa [List.filterMap_append, he] using hk)

theorem Reach.registerTx {evs : List (Event ι)} {txID : ι} {stateKeys : Keys}
    (h : Reach im evs f) (hfresh : txID ∉ evs.filterMap Event.fetchID) (he : f.err = none)
    (hw : f.waited = true → (stateKeys.keys.filter fun k => f.keys k = none) = []) :
    Reach im (evs ++ [.fetch txID stateKeys]) (f.registerTx txID stateKeys) := by
  have hnone : f.txs txID = none := by
    by_contra hn
    exact hfresh (h.fetched txID hn)
  -- an entry that `Fetch` leaves read was read before
  have hread : ∀ k key', (f.registerTx txID stateKeys).keys k = some key' →
      key'.cache.isSome → ∃ key, f.keys k = some key ∧ key.cache.isSome := by
    intro k key' hk hc
    simp only [Fetcher.registerTx] at hk
    split_ifs at hk
    · rw [← Option.some.inj hk, isSome_cache_registered] at hc
      cases hf : f.keys k with
      | none => simp [cached, hf] at hc
      | some key => exact ⟨key, rfl, by simpa [cached, hf] using hc⟩
    · exact ⟨key', hk, hc⟩
  exact {
    inv := h.inv.registerTx hnone he hw
    fetched := fun id hid => by
      by_cases hne : id = txID
      · simp [List.filterMap_append, Event.fetchID, hne]
      · have hf : f.txs id ≠ none := by simpa [Fetcher.registerTx, hne] using hid
        simp [List.filterMap_append, h.fetched id hf]
    registered := fun _ id sk hm => by
      rcases List.mem_append.mp hm with hm | hm
      · have hne : id ≠ txID := fun heq =>
          hfresh (heq ▸ List.mem_filterMap.mpr ⟨_, hm, rfl⟩)
        obtain ⟨tx, htx, hk⟩ := h.registered he id sk hm
        exact ⟨tx, by simp [Fetcher.registerTx, hne, htx], hk⟩
      · simp only [List.mem_singleton, Event.fetch.injEq] at hm
        obtain ⟨rfl, rfl⟩ := hm
        exact ⟨newTx (sk.keys.filter fun k => !cached (f.keys k)).length sk,
          by simp [Fetcher.registerTx], keys_newTx _ _⟩
    read := fun k key' hk hc => by
      obtain ⟨key, hf, hc'⟩ := hread k key' hk hc
      exact List.mem_append_left _ (h.read k key hf hc')
    once := by simpa [List.filterMap_append, List.filterMap_cons, Event.workKey] using h.once
    done := fun k hk => by
      obtain ⟨hkey, hnt⟩ := h.done k
        (by simpa [List.filterMap_append, List.filterMap_cons, Event.workKey] using hk)
      refine ⟨?_, ?_⟩
      · simp only [Fetcher.registerTx]
        split_ifs <;> simp [hkey]
      · simp [Fetcher.registerTx, hnt, hkey] }

/-- A worker's read of a pending key adds it to the keys read once. -/
theorem Reach.once_work {evs : List (Event ι)} {k : Bytes} (h : Reach im evs f)
    (hk : k ∈ f.tasks) : ((evs ++ [Event.work k]).filterMap Event.workKey).Nodup := by
  rw [List.filterMap_append]
  refine List.nodup_append.mpr ⟨h.once, by simp [Event.workKey], fun a ha b hb hab => ?_⟩
  simp only [List.filterMap_cons, Event.workKey, List.filterMap_nil, List.mem_singleton] at hb
  subst hb hab
  exact (h.done a ha).2 hk

/-- After a worker's step on `k`, the keys read keep their entries and have no task. -/
theorem Reach.done_work {evs : List (Event ι)} {k : Bytes} {g : Fetcher ι} (h : Reach im evs f)
    (hkeys : ∀ k', f.keys k' ≠ none → g.keys k' ≠ none) (hgk : g.keys k ≠ none)
    (ht : g.tasks = f.tasks.erase k) :
    ∀ k' ∈ (evs ++ [Event.work k]).filterMap Event.workKey, g.keys k' ≠ none ∧ k' ∉ g.tasks := by
  intro k' hk'
  rw [ht]
  simp only [List.filterMap_append, List.filterMap_cons, Event.workKey, List.filterMap_nil,
    List.mem_append, List.mem_singleton] at hk'
  rcases hk' with hk' | rfl
  · obtain ⟨hkey, hnt⟩ := h.done k' hk'
    exact ⟨hkeys k' hkey, fun hm => hnt (List.mem_of_mem_erase hm)⟩
  · exact ⟨hgk, h.inv.tasks_nodup.not_mem_erase⟩

theorem Reach.readKey {evs : List (Event ι)} {k : Bytes} {key : Key ι} {d : Data}
    (h : Reach im evs f) (hk : k ∈ f.tasks) (hkey : f.keys k = some key)
    (hw : f.waited = false) (hd : dataOf (im k) = some d) :
    Reach im (evs ++ [.work k]) (f.readKey k d key.blocked) where
  inv := h.inv.readKey hkey hw hd
  fetched := fun id hid => by
    have hf : f.txs id ≠ none := by
      simp only [Fetcher.readKey] at hid
      split_ifs at hid <;> simpa using hid
    simp [List.filterMap_append, h.fetched id hf]
  registered := fun he id sk hm => by
    obtain ⟨tx, htx, hks⟩ := h.registered he id sk (by simpa using hm)
    refine ⟨if id ∈ key.blocked then released tx else tx, ?_, ?_⟩
    · simp only [Fetcher.readKey]
      split_ifs <;> simp [htx]
    · split_ifs <;> simp [hks]
  read := fun k' key' hk' hc' => by
    by_cases hne : k' = k
    · simp [hne]
    · simp only [Fetcher.readKey, Function.update_of_ne hne] at hk'
      exact List.mem_append_left _ (h.read k' key' hk' hc')
  once := h.once_work hk
  done := h.done_work (g := f.readKey k d key.blocked)
    (fun k' hk' => by
      by_cases hne : k' = k
      · simp [Fetcher.readKey, hne]
      · simpa [Fetcher.readKey, hne] using hk')
    (by simp [Fetcher.readKey]) rfl

theorem Reach.dropTask {evs : List (Event ι)} {k : Bytes} (h : Reach im evs f)
    (hk : k ∈ f.tasks) (hw : f.waited = false) (err : FetchError) :
    Reach im (evs ++ [.work k]) (({ f with tasks := f.tasks.erase k } : Fetcher ι).handleErr err)
    where
  inv := h.inv.dropTask hw k err
  fetched := fun id hid => by
    simp only [txs_handleErr] at hid
    simp [List.filterMap_append, h.fetched id hid]
  registered := fun he => by
    rw [err_handleErr] at he
    split_ifs at he with hn
    simp_all
  read := fun k' key hk' hc => by
    simp only [keys_handleErr] at hk'
    exact List.mem_append_left _ (h.read k' key hk' hc)
  once := h.once_work hk
  done := h.done_work (g := ({ f with tasks := f.tasks.erase k } : Fetcher ι).handleErr err)
    (fun k' hk' => by simpa using hk')
    (by simpa using (h.inv.task k hk).choose_spec.1 ▸ Option.some_ne_none _)
    (by simp)

/-- Every step keeps `Reach`, given that a `Fetch` is of a transaction not fetched before. -/
theorem Reach.step {evs : List (Event ι)} {e : Event ι} {g : Fetcher ι} (h : Reach im evs f)
    (hfresh : ∀ txID stateKeys, e = .fetch txID stateKeys → txID ∉ evs.filterMap Event.fetchID)
    (hg : f.step im e = some g) : Reach im (evs ++ [e]) g := by
  cases e with
  | fetch txID stateKeys =>
    rcases fetch_cases hg with ⟨he, rfl⟩ | ⟨he, hw, rfl⟩
    · exact h.of_frame h.inv rfl rfl rfl (fun hn => by simp [hn] at he) rfl
    · exact h.registerTx (hfresh _ _ rfl) he hw
  | work k =>
    obtain ⟨hk, hw, key, hkey, -, ⟨d, hd, rfl⟩ | ⟨err, rfl⟩⟩ := h.inv.work_cases hg
    · exact h.readKey hk hkey hw hd
    · exact h.dropTask hk hw err
  | stop =>
    cases hg
    refine h.of_frame (h.inv.handleErr _) (keys_handleErr _ _) (txs_handleErr _ _)
      (tasks_handleErr _ _) (fun hn => ⟨?_, rfl⟩) rfl
    rw [Fetcher.stop, err_handleErr] at hn
    split_ifs at hn
    exact hn
  | wait =>
    change f.wait = some g at hg
    have hinv := h.inv.wait hg
    unfold Fetcher.wait at hg
    split_ifs at hg
    cases hg
    exact h.of_frame hinv rfl rfl rfl (fun hn => ⟨hn, rfl⟩) rfl

/-- `Reach` holds along every run with the ids of its `Fetch` calls distinct. -/
theorem Reach.run {evs : List (Event ι)} (h : Reach im evs f) (evs' : List (Event ι))
    {g : Fetcher ι} (hg : f.run im evs' = some g)
    (hids : ((evs ++ evs').filterMap Event.fetchID).Nodup) : Reach im (evs ++ evs') g := by
  induction evs' generalizing evs f with
  | nil =>
    cases hg
    simpa using h
  | cons e evs' ih =>
    obtain ⟨f₁, h₁, h₂⟩ := Option.bind_eq_some_iff.mp hg
    -- the id of a `Fetch` is not among those before it
    have hfresh : ∀ txID stateKeys, e = .fetch txID stateKeys →
        txID ∉ evs.filterMap Event.fetchID := by
      rintro txID stateKeys rfl hm
      simp only [List.filterMap_append, List.filterMap_cons, Event.fetchID] at hids
      exact (List.nodup_append.mp hids).2.2 txID hm txID List.mem_cons_self rfl
    simpa using ih (h.step hfresh h₁) h₂ (by simpa using hids)

end Fetcher

/-- A run from `New` with the ids of its `Fetch` calls distinct, and no error set: `Get` of a
transaction fetched returns nothing but the map of what `im` holds of its keys, each of them
read before, and it returns once no task is left; no key is read twice; a pending task runs
without a panic; and once no task is left no waiter is open. -/
theorem get_returns_parent_state (im : Bytes → Lookup) (evs : List (Event ι)) (f : Fetcher ι)
    (hrun : Fetcher.new.run im evs = some f) (herr : f.err = none)
    (hids : (evs.filterMap Event.fetchID).Nodup) :
    (∀ txID stateKeys, Event.fetch txID stateKeys ∈ evs →
      (∀ r, Get f txID r →
        r = .storage (fun k => if k ∈ stateKeys then (im k).value else none) ∧
          ∀ k ∈ stateKeys, Event.work k ∈ evs) ∧
      (f.tasks = [] →
        Get f txID (.storage fun k => if k ∈ stateKeys then (im k).value else none))) ∧
    (evs.filterMap Event.workKey).Nodup ∧
    (∀ k ∈ f.tasks, (f.step im (.work k)).isSome) ∧
    (f.tasks = [] → ∀ txID tx, f.txs txID = some tx → tx.waiter ≠ some .waiting) := by
  have h : Fetcher.Reach im evs f := by
    simpa using (Fetcher.Reach.new im).run evs hrun (by simpa using hids)
  refine ⟨fun txID stateKeys hm => ?_, h.once, fun k hk => h.inv.work_isSome ?_ hk,
    fun ht txID tx htx => h.inv.waiter_of_tasks_eq_nil herr ht htx⟩
  · obtain ⟨tx, htx, rfl⟩ := h.registered herr txID stateKeys hm
    refine ⟨fun r hr => ⟨h.inv.get_eq herr htx hr, fun k hk => ?_⟩,
      fun ht => h.inv.get_of_tasks_eq_nil herr ht htx⟩
    -- `Get` returned the map, so the waiter was not open and every key was read
    cases hr with
    | missingTx h' => simp [htx] at h'
    | ready h' hw _ =>
      obtain rfl := Option.some.inj (h'.symm.trans htx)
      obtain ⟨key, d, hkey, hc, -⟩ := h.inv.cached_of_waiter htx hw k hk
      exact h.read k key hkey (by simp [hc])
    | failed _ _ h' => simp [herr] at h'
  · -- after `Wait`, without an error, no task is left
    cases hw : f.waited
    · rfl
    · simp [h.inv.waited hw herr] at hk

/-- Two transactions sharing the key `[0, 0]`, which the parent holds, the second also declaring
`[0, 1]`, which it does not: each key is read once, and `Get` returns each transaction the
parent's value `[7]` at `[0, 0]` and nothing at `[0, 1]`. -/
theorem get_returns_parent_state_shared_key :
    let im : Bytes → Lookup := fun k => if k = [0, 0] then .found [7] else .notFound
    let keys₀ : Keys := AList.singleton [0, 0] .read
    let keys₁ : Keys := keys₀.insert [0, 1] .read
    let evs : List (Event ℕ) := [.fetch 0 keys₀, .fetch 1 keys₁, .work [0, 0], .work [0, 1]]
    ∃ f, Fetcher.new.run im evs = some f ∧ f.err = none ∧ f.tasks = [] ∧
      Get f 0 (.storage fun k => if k ∈ keys₀ then (im k).value else none) ∧
      Get f 1 (.storage fun k => if k ∈ keys₁ then (im k).value else none) ∧
      (evs.filterMap Event.workKey).Nodup := by
  intro im keys₀ keys₁ evs
  obtain ⟨f, hf⟩ := Option.isSome_iff_exists.mp
    (show (Fetcher.new.run im evs).isSome by decide)
  have he : f.err = none ∧ f.tasks = [] := by
    have hr : (Fetcher.new.run im evs).map (fun f => (f.err, f.tasks)) = some (none, []) := by
      decide
    rw [hf] at hr
    simpa using hr
  have h := get_returns_parent_state im evs f hf he.1 (by decide)
  exact ⟨f, hf, he.1, he.2, (h.1 0 keys₀ (by simp [evs])).2 he.2,
    (h.1 1 keys₁ (by simp [evs])).2 he.2, h.2.1⟩

end Hypersdk.Fetcher
