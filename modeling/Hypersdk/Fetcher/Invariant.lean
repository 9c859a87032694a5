import Hypersdk.Fetcher.Fetcher

/-!
# What the fetcher keeps of itself

`Inv` is what holds in every state the fetcher reaches: a key waiting to be read has a task,
and without an error every key not read has one; what is cached is what `im` holds; a
transaction counts in `blockers` exactly the keys whose `blocked` list has it, and its waiter is
open exactly while that count is positive. From it, no worker's step panics (`Inv.work_isSome`),
every waiter is closed once no task is left (`Inv.waiter_of_tasks_eq_nil`), and `Get` reads
exactly what `im` holds of the keys (`Inv.get_eq`).

The three loops of the source, `Fetch`'s over the keys, `set`'s over the blocked transactions
and `Get`'s over the keys, are given in closed form first (`foldl_registerKey`,
`foldlM_release`, `foldlM_storeKey`); each step then preserves `Inv` by those.
-/

namespace Hypersdk.Fetcher

set_option linter.dupNamespace false
set_option linter.unusedSectionVars false

open State

variable {ι : Type} [DecidableEq ι]

namespace Fetcher

/-- What `set` caches for a key, by what `im` answers for it; `none` where the worker stops on
an error instead. -/
def dataOf : Lookup → Option Data
  | .found v => (Keys.numChunksOf v).map fun c => ⟨v, true, c⟩
  | .notFound => some ⟨[], false, 0⟩
  | .failed => none

/-- What is cached is what `Get` reads back: the value, where there is one. -/
theorem value_of_dataOf {l : Lookup} {d : Data} (h : dataOf l = some d) :
    l.value = if d.present then some d.v else none := by
  cases l with
  | found v =>
    obtain ⟨c, -, rfl⟩ := Option.map_eq_some_iff.mp h
    rfl
  | notFound =>
    cases h
    rfl
  | failed => cases h

/-! ## The loops in closed form -/

/-- Whether an entry is of a key already read. -/
def cached (e : Option (Key ι)) : Bool := e.any (·.cache.isSome)

/-- The entry of a key once `Fetch` of `txID` has gone over it. -/
def registered (txID : ι) (e : Option (Key ι)) : Key ι :=
  ⟨e.bind (·.cache), (e.map (·.blocked)).getD [] ++ if cached e then [] else [txID]⟩

/-- Whether `id` is on the blocked list of key `k`. -/
def waitsOn (keys : Bytes → Option (Key ι)) (id : ι) (k : Bytes) : Bool :=
  (keys k).any (id ∈ ·.blocked)

theorem registerKey_eq (txID : ι) (keys : Bytes → Option (Key ι)) (tasks : List Bytes) (b : ℤ)
    (k : Bytes) :
    registerKey txID (keys, tasks, b) k =
      (Function.update keys k (some (registered txID (keys k))),
        if keys k = none then tasks ++ [k] else tasks, if cached (keys k) then b else b + 1) := by
  unfold registerKey
  dsimp only
  split
  · next hk => simp [registered, cached, hk]
  · next d hk =>
    by_cases hc : d.cache.isSome
    · have hd : registered txID (some d) = d := by simp [registered, cached, hc]
      rw [hk, hd, ← hk, Function.update_eq_self]
      simp [cached, hk, hc]
    · simp [registered, cached, hc, hk]

/-- `Fetch`'s loop: the keys it goes over are registered, those without an entry become tasks,
and those not read count as blockers. -/
theorem foldl_registerKey (txID : ι) {ks : List Bytes} (hks : ks.Nodup)
    (keys : Bytes → Option (Key ι)) (tasks : List Bytes) (b : ℤ) :
    ks.foldl (registerKey txID) (keys, tasks, b) =
      (fun k => if k ∈ ks then some (registered txID (keys k)) else keys k,
        tasks ++ ks.filter (fun k => keys k = none),
        b + (ks.filter fun k => !cached (keys k)).length) := by
  induction ks generalizing keys tasks b with
  | nil => simp
  | cons k ks ih =>
    obtain ⟨hk, hks⟩ := List.nodup_cons.mp hks
    -- the keys after `k` see the entries as they were before it
    have hsame : ∀ k' ∈ ks,
        Function.update keys k (some (registered txID (keys k))) k' = keys k' :=
      fun k' hk' => Function.update_of_ne (ne_of_mem_of_not_mem hk' hk) _ _
    have hnone : ks.filter (fun k' =>
        Function.update keys k (some (registered txID (keys k))) k' = none) =
          ks.filter fun k' => keys k' = none :=
      List.filter_congr fun k' hk' => by rw [hsame k' hk']
    have hcached : ks.filter (fun k' =>
        !cached (Function.update keys k (some (registered txID (keys k))) k')) =
          ks.filter fun k' => !cached (keys k') :=
      List.filter_congr fun k' hk' => by rw [hsame k' hk']
    rw [List.foldl_cons, registerKey_eq, ih hks, hnone, hcached]
    refine Prod.ext ?_ (Prod.ext ?_ ?_)
    · funext k'
      by_cases hk' : k' = k
      · subst hk'
        simp [hk]
      · by_cases hm : k' ∈ ks
        · simp [hm, hsame k' hm]
        · simp [hm, hk']
    · by_cases hn : keys k = none <;> simp [hn]
    · by_cases hc : cached (keys k)
      · simp [hc]
      · simp [hc]
        omega

/-- A transaction after one turn of `set`'s loop. -/
def released (tx : Tx) : Tx :=
  if tx.blockers - 1 = 0 then { tx with blockers := tx.blockers - 1, waiter := some .closed }
  else { tx with blockers := tx.blockers - 1 }

@[simp]
theorem keys_released (tx : Tx) : (released tx).keys = tx.keys := by
  unfold released
  split_ifs <;> rfl

@[simp]
theorem blockers_released (tx : Tx) : (released tx).blockers = tx.blockers - 1 := by
  unfold released
  split_ifs <;> rfl

theorem release_eq {txs : ι → Option Tx} {id : ι} {tx : Tx} (h : txs id = some tx)
    (hw : tx.waiter = some .waiting) :
    release txs id = some (Function.update txs id (some (released tx))) := by
  unfold release released
  rw [h]
  dsimp only
  split_ifs <;> simp [hw]

/-- `set`'s loop: with each transaction blocked present and waiting, once, each is released
once. -/
theorem foldlM_release {bl : List ι} (hbl : bl.Nodup) {txs : ι → Option Tx}
    (h : ∀ id ∈ bl, ∃ tx, txs id = some tx ∧ tx.waiter = some .waiting) :
    bl.foldlM release txs = some fun id => if id ∈ bl then (txs id).map released else txs id := by
  induction bl generalizing txs with
  | nil => simp
  | cons id bl ih =>
    obtain ⟨hid, hbl⟩ := List.nodup_cons.mp hbl
    obtain ⟨tx, htx, hw⟩ := h id List.mem_cons_self
    have hsame : ∀ id' ∈ bl, Function.update txs id (some (released tx)) id' = txs id' :=
      fun id' hid' => Function.update_of_ne (ne_of_mem_of_not_mem hid' hid) _ _
    rw [List.foldlM_cons, release_eq htx hw, Option.bind_eq_bind, Option.bind_some,
      ih hbl fun id' hid' => by rw [hsame id' hid']; exact h id' (List.mem_cons_of_mem _ hid')]
    congr 1
    funext id'
    by_cases he : id' = id
    · subst he
      simp [hid, htx]
    · by_cases hm : id' ∈ bl
      · simp [hm, hsame id' hm]
      · simp [hm, he]

/-- A turn of `Get`'s loop on a key read puts there what `im` holds of it. -/
theorem storeKey_eq {f : Fetcher ι} {im : Bytes → Lookup} {k : Bytes} {key : Key ι} {d : Data}
    (hkey : f.keys k = some key) (hc : key.cache = some d) (hd : dataOf (im k) = some d)
    {m : Bytes → Option Bytes} (hm : m k = none) :
    f.storeKey m k = some (Function.update m k (im k).value) := by
  simp only [Fetcher.storeKey, hkey, hc, Option.map_some, Option.some.injEq]
  rw [value_of_dataOf hd]
  split_ifs
  · rfl
  · -- a key that does not exist leaves the map as it is, which is `none` at it
    rw [← hm, Function.update_eq_self]

/-- `Get`'s loop: with every key of `ks` read, the map holds what `im` holds of them. -/
theorem foldlM_storeKey {f : Fetcher ι} {im : Bytes → Lookup} {ks : List Bytes} (hks : ks.Nodup)
    (h : ∀ k ∈ ks, ∃ key d, f.keys k = some key ∧ key.cache = some d ∧ dataOf (im k) = some d)
    (m : Bytes → Option Bytes) (hm : ∀ k ∈ ks, m k = none) :
    ks.foldlM f.storeKey m = some fun k => if k ∈ ks then (im k).value else m k := by
  induction ks generalizing m with
  | nil => simp
  | cons k ks ih =>
    obtain ⟨hk, hks⟩ := List.nodup_cons.mp hks
    obtain ⟨key, d, hkey, hc, hd⟩ := h k List.mem_cons_self
    rw [List.foldlM_cons, storeKey_eq hkey hc hd (hm k List.mem_cons_self), Option.bind_eq_bind,
      Option.bind_some, ih hks (fun k' hk' => h k' (List.mem_cons_of_mem _ hk')) _ fun k' hk' => by
        rw [Function.update_of_ne (ne_of_mem_of_not_mem hk' hk)]
        exact hm k' (List.mem_cons_of_mem _ hk')]
    congr 1
    funext k'
    by_cases he : k' = k
    · subst he
      simp [hk]
    · by_cases hm : k' ∈ ks
      · simp [hm]
      · simp [hm, he]

/-- An entry read and waited on by no one leaves the count of every transaction at it. -/
theorem filter_waitsOn_read {ks : List Bytes} (hks : ks.Nodup) (keys : Bytes → Option (Key ι))
    (k : Bytes) (c : Option Data) (id : ι) :
    ks.filter (waitsOn (Function.update keys k (some ⟨c, []⟩)) id) =
      (ks.filter (waitsOn keys id)).erase k := by
  rw [(hks.filter _).erase_eq_filter, List.filter_filter]
  refine List.filter_congr fun k' _ => ?_
  by_cases he : k' = k
  · simp [waitsOn, he]
  · simp [waitsOn, he]

/-! ## The invariant -/

/-- What every state the fetcher reaches keeps. -/
structure Inv (im : Bytes → Lookup) (f : Fetcher ι) : Prop where
  /-- A task is pending once, for a key with an entry not read. -/
  tasks_nodup : f.tasks.Nodup
  task : ∀ k ∈ f.tasks, ∃ key, f.keys k = some key ∧ key.cache = none
  /-- Without an error, a key not read has its task pending. -/
  pending : f.err = none → ∀ k key, f.keys k = some key → key.cache = none → k ∈ f.tasks
  /-- What is cached is what `im` holds, and nothing waits on it. -/
  cache : ∀ k key d, f.keys k = some key → key.cache = some d →
    dataOf (im k) = some d ∧ key.blocked = []
  /-- A blocked list holds, once each, transactions with an open waiter that declared the key. -/
  blocked : ∀ k key, f.keys k = some key → key.blocked.Nodup ∧
    ∀ id ∈ key.blocked, ∃ tx, f.txs id = some tx ∧ tx.waiter = some .waiting ∧ k ∈ tx.keys
  /-- Each key of a transaction has an entry, read or waited on by it. -/
  keys : ∀ id tx, f.txs id = some tx → ∀ k ∈ tx.keys,
    ∃ key, f.keys k = some key ∧ (key.cache.isSome ∨ id ∈ key.blocked)
  /-- `blockers` counts the keys the transaction waits on. -/
  blockers : ∀ id tx, f.txs id = some tx →
    tx.blockers = (tx.keys.keys.filter (waitsOn f.keys id)).length
  /-- The waiter is open exactly while there is a key to wait on. -/
  waiter : ∀ id tx, f.txs id = some tx → (tx.waiter = some .waiting ↔ 0 < tx.blockers)
  /-- After `Wait`, without an error, no task is left. -/
  waited : f.waited = true → f.err = none → f.tasks = []

variable {im : Bytes → Lookup} {f : Fetcher ι}

theorem Inv.new (im : Bytes → Lookup) : Inv im (new : Fetcher ι) := by
  constructor <;> simp [Fetcher.new]

/-- A transaction registered has no id on a blocked list. -/
theorem Inv.not_waitsOn (h : Inv im f) {id : ι} (hid : f.txs id = none) (k : Bytes) :
    waitsOn f.keys id k = false := by
  cases hk : f.keys k with
  | none => simp [waitsOn, hk]
  | some key =>
    have hn : id ∉ key.blocked := fun hm => by
      obtain ⟨tx, htx, -⟩ := (h.blocked k key hk).2 id hm
      simp [hid] at htx
    simp [waitsOn, hk, hn]

/-- An error leaves the keys, the transactions and the tasks as they are. -/
theorem Inv.handleErr (h : Inv im f) (err : FetchError) : Inv im (f.handleErr err) where
  tasks_nodup := by simpa using h.tasks_nodup
  task := by simpa using h.task
  pending := fun he => by
    have hf : f.err = none := by
      rw [err_handleErr] at he
      split_ifs at he
      exact he
    simpa using h.pending hf
  cache := by simpa using h.cache
  blocked := by simpa using h.blocked
  keys := by simpa using h.keys
  blockers := by simpa using h.blockers
  waiter := by simpa using h.waiter
  waited := fun hw he => by
    have hf : f.err = none := by
      rw [err_handleErr] at he
      split_ifs at he
      exact he
    simpa using h.waited (by simpa using hw) hf

/-- A worker that stops on an error has taken its task, and the error is set. -/
theorem Inv.dropTask (h : Inv im f) (hw : f.waited = false) (k : Bytes) (err : FetchError) :
    Inv im (({ f with tasks := f.tasks.erase k } : Fetcher ι).handleErr err) where
  tasks_nodup := by simpa using h.tasks_nodup.erase k
  task := fun k' hk' => by
    simp only [tasks_handleErr, keys_handleErr] at hk' ⊢
    exact h.task k' (List.mem_of_mem_erase hk')
  pending := fun he => by
    rw [err_handleErr] at he
    split_ifs at he with hn
    simp_all
  cache := by simpa using h.cache
  blocked := by simpa using h.blocked
  keys := by simpa using h.keys
  blockers := by simpa using h.blockers
  waiter := by simpa using h.waiter
  waited := fun hw' => by simp_all

theorem Inv.wait {g : Fetcher ι} (h : Inv im f) (hg : f.wait = some g) : Inv im g := by
  unfold Fetcher.wait at hg
  split_ifs at hg with ht
  cases hg
  exact { h with waited := fun _ he => ht.resolve_right (by simpa using he) }

/-! ## A worker's read -/

/-- The state `set` of `k` leaves once a worker has taken its task, with the transactions `bl`
the key blocked released. -/
def readKey (f : Fetcher ι) (k : Bytes) (d : Data) (bl : List ι) : Fetcher ι :=
  { f with
    tasks := f.tasks.erase k
    keys := Function.update f.keys k (some ⟨some d, []⟩)
    txs := fun id => if id ∈ bl then (f.txs id).map released else f.txs id }

theorem runTask_of_dataOf {k : Bytes} {d : Data} (hd : dataOf (im k) = some d) (f : Fetcher ι) :
    runTask im f k = f.set k d := by
  unfold runTask
  cases hl : im k with
  | found v =>
    simp only [dataOf, hl] at hd
    obtain ⟨c, hc, rfl⟩ := Option.map_eq_some_iff.mp hd
    simp [hc]
  | notFound =>
    simp only [dataOf, hl, Option.some.injEq] at hd
    rw [← hd]
  | failed => simp [dataOf, hl] at hd

theorem runTask_of_dataOf_eq_none {k : Bytes} (hd : dataOf (im k) = none) (f : Fetcher ι) :
    ∃ err, runTask im f k = some (f.handleErr err) := by
  unfold runTask
  cases hl : im k with
  | found v =>
    simp only [dataOf, hl, Option.map_eq_none_iff] at hd
    exact ⟨.invalidKeyValue, by simp [hd]⟩
  | notFound => simp [dataOf, hl] at hd
  | failed => exact ⟨_, rfl⟩

/-- `set` of a key with an entry does not panic: it releases the transactions the key
blocked. -/
theorem Inv.set_eq (h : Inv im f) {k : Bytes} {key : Key ι} (hkey : f.keys k = some key)
    (d : Data) :
    ({ f with tasks := f.tasks.erase k } : Fetcher ι).set k d =
      some (f.readKey k d key.blocked) := by
  have hbl := h.blocked k key hkey
  unfold Fetcher.set
  simp only [hkey]
  rw [foldlM_release hbl.1 fun id hid => by
    obtain ⟨tx, htx, hw, -⟩ := hbl.2 id hid
    exact ⟨tx, htx, hw⟩]
  rfl

/-- A worker's read keeps the invariant: the key is cached, and each transaction it blocked
counts one key less, its waiter closed when that was the last. -/
theorem Inv.readKey (h : Inv im f) {k : Bytes} {key : Key ι} (hkey : f.keys k = some key)
    (hw : f.waited = false) {d : Data} (hd : dataOf (im k) = some d) :
    Inv im (f.readKey k d key.blocked) := by
  have hbl := h.blocked k key hkey
  have htxs : ∀ id tx', (f.readKey k d key.blocked).txs id = some tx' →
      ∃ tx, f.txs id = some tx ∧ tx' = if id ∈ key.blocked then released tx else tx := by
    intro id tx' h'
    simp only [Fetcher.readKey] at h'
    split_ifs at h' with hm
    · obtain ⟨tx, htx, rfl⟩ := Option.map_eq_some_iff.mp h'
      exact ⟨tx, htx, by simp [hm]⟩
    · exact ⟨tx', h', by simp [hm]⟩
  -- a transaction's count loses `k` exactly when the read released it
  have hcount : ∀ id tx, f.txs id = some tx →
      ((tx.keys.keys.filter (waitsOn (f.readKey k d key.blocked).keys id)).length : ℤ) =
        if id ∈ key.blocked then tx.blockers - 1 else tx.blockers := by
    intro id tx htx
    simp only [Fetcher.readKey]
    rw [filter_waitsOn_read tx.keys.keys_nodup, h.blockers id tx htx]
    split_ifs with hm
    · obtain ⟨tx₀, htx₀, -, hk⟩ := hbl.2 id hm
      obtain rfl : tx₀ = tx := Option.some.inj (htx₀.symm.trans htx)
      have hmem : k ∈ tx₀.keys.keys.filter (waitsOn f.keys id) :=
        List.mem_filter.mpr ⟨AList.mem_keys.mp hk, by simp [waitsOn, hkey, hm]⟩
      have := List.length_pos_of_mem hmem
      rw [List.length_erase_of_mem hmem]
      omega
    · rw [List.erase_of_not_mem]
      simp [waitsOn, hkey, hm]
  have hblockers : ∀ id tx', (f.readKey k d key.blocked).txs id = some tx' →
      tx'.blockers =
        (tx'.keys.keys.filter (waitsOn (f.readKey k d key.blocked).keys id)).length := by
    intro id tx' h'
    obtain ⟨tx, htx, rfl⟩ := htxs id tx' h'
    split_ifs with hm
    · rw [keys_released, blockers_released, hcount id tx htx, if_pos hm]
    · rw [hcount id tx htx, if_neg hm]
  have hwaiter : ∀ id tx', (f.readKey k d key.blocked).txs id = some tx' →
      (tx'.waiter = some .waiting ↔ 0 < tx'.blockers) := by
    intro id tx' h'
    obtain ⟨tx, htx, rfl⟩ := htxs id tx' h'
    have hf := h.waiter id tx htx
    split_ifs with hm
    · -- released: closed exactly when the count reaches zero
      obtain ⟨tx₀, htx₀, hwt, -⟩ := hbl.2 id hm
      obtain rfl : tx₀ = tx := Option.some.inj (htx₀.symm.trans htx)
      have hpos := hf.mp hwt
      unfold released
      split_ifs with h0
      · simp only [Option.some.injEq, reduceCtorEq, false_iff]
        omega
      · simp only [hwt, true_iff]
        omega
    · exact hf
  exact {
    tasks_nodup := h.tasks_nodup.erase k
    task := fun k' hk' => by
      obtain ⟨hne, hk'⟩ := h.tasks_nodup.mem_erase_iff.mp hk'
      simpa [Fetcher.readKey, hne] using h.task k' hk'
    pending := fun he k' key' hk' hc' => by
      by_cases hne : k' = k
      · subst hne
        simp only [Fetcher.readKey, Function.update_self, Option.some.injEq] at hk'
        simp [← hk'] at hc'
      · simp only [Fetcher.readKey, Function.update_of_ne hne] at hk'
        exact h.tasks_nodup.mem_erase_iff.mpr ⟨hne, h.pending he k' key' hk' hc'⟩
    cache := fun k' key' d' hk' hc' => by
      by_cases hne : k' = k
      · subst hne
        simp only [Fetcher.readKey, Function.update_self, Option.some.injEq] at hk'
        subst hk'
        cases hc'
        exact ⟨hd, rfl⟩
      · simp only [Fetcher.readKey, Function.update_of_ne hne] at hk'
        exact h.cache k' key' d' hk' hc'
    blocked := fun k' key' hk' => by
      by_cases hne : k' = k
      · subst hne
        simp only [Fetcher.readKey, Function.update_self, Option.some.injEq] at hk'
        simp [← hk']
      · simp only [Fetcher.readKey, Function.update_of_ne hne] at hk'
        refine ⟨(h.blocked k' key' hk').1, fun id hid => ?_⟩
        obtain ⟨tx, htx, -, hmem⟩ := (h.blocked k' key' hk').2 id hid
        let tx' := if id ∈ key.blocked then released tx else tx
        have htx' : (f.readKey k d key.blocked).txs id = some tx' := by
          simp only [Fetcher.readKey, tx']
          split_ifs <;> simp [htx]
        have hkeys : tx'.keys = tx.keys := by
          simp only [tx']
          split_ifs <;> simp
        -- the transaction still waits on `k'`, so its waiter stays open
        have hpos : 0 < tx'.blockers := by
          rw [hblockers id tx' htx', hkeys]
          exact_mod_cast List.length_pos_of_mem (List.mem_filter.mpr
            ⟨AList.mem_keys.mp hmem, by simp [waitsOn, Fetcher.readKey, hne, hk', hid]⟩)
        exact ⟨tx', htx', (hwaiter id tx' htx').mpr hpos, hkeys ▸ hmem⟩
    keys := fun id tx' h' k' hk' => by
      obtain ⟨tx, htx, rfl⟩ := htxs id tx' h'
      have hk'' : k' ∈ tx.keys := by
        split_ifs at hk' <;> simpa using hk'
      by_cases hne : k' = k
      · subst hne
        exact ⟨⟨some d, []⟩, by simp [Fetcher.readKey], Or.inl rfl⟩
      · simpa [Fetcher.readKey, hne] using h.keys id tx htx k' hk''
    blockers := hblockers
    waiter := hwaiter
    waited := fun hw' => by simp [Fetcher.readKey, hw] at hw' }

/-- What a worker's step does: it takes a pending task before `Wait`, and either reads the key
or stops on an error. -/
theorem Inv.work_cases {k : Bytes} {g : Fetcher ι} (h : Inv im f)
    (hg : f.step im (.work k) = some g) :
    k ∈ f.tasks ∧ f.waited = false ∧ ∃ key, f.keys k = some key ∧ key.cache = none ∧
      ((∃ d, dataOf (im k) = some d ∧ g = f.readKey k d key.blocked) ∨
        ∃ err, g = ({ f with tasks := f.tasks.erase k } : Fetcher ι).handleErr err) := by
  simp only [Fetcher.step] at hg
  split_ifs at hg with hk
  simp only [Bool.and_eq_true, decide_eq_true_eq, Bool.not_eq_eq_eq_not, Bool.not_true] at hk
  obtain ⟨key, hkey, hc⟩ := h.task k hk.1
  refine ⟨hk.1, hk.2, key, hkey, hc, ?_⟩
  cases hd : dataOf (im k) with
  | none =>
    obtain ⟨err, he⟩ := runTask_of_dataOf_eq_none hd ({ f with tasks := f.tasks.erase k })
    rw [he] at hg
    exact Or.inr ⟨err, (Option.some.inj hg).symm⟩
  | some d =>
    rw [runTask_of_dataOf hd, h.set_eq hkey] at hg
    exact Or.inl ⟨d, rfl, (Option.some.inj hg).symm⟩

/-- A worker's step keeps the invariant. -/
theorem Inv.work {k : Bytes} {g : Fetcher ι} (h : Inv im f) (hg : f.step im (.work k) = some g) :
    Inv im g := by
  obtain ⟨-, hw, key, hkey, -, ⟨d, hd, rfl⟩ | ⟨err, rfl⟩⟩ := h.work_cases hg
  · exact h.readKey hkey hw hd
  · exact h.dropTask hw k err

/-- A pending task always runs before `Wait`: no worker's step panics. -/
theorem Inv.work_isSome (h : Inv im f) (hw : f.waited = false) {k : Bytes} (hk : k ∈ f.tasks) :
    (f.step im (.work k)).isSome := by
  obtain ⟨key, hkey, -⟩ := h.task k hk
  simp only [Fetcher.step]
  rw [if_pos (by simp [hk, hw])]
  cases hd : dataOf (im k) with
  | none =>
    obtain ⟨err, he⟩ := runTask_of_dataOf_eq_none hd ({ f with tasks := f.tasks.erase k })
    simp [he]
  | some d =>
    rw [runTask_of_dataOf hd, h.set_eq hkey]
    rfl

/-! ## Registration -/

/-- The `tx` that `Fetch` registers, with `blockers` keys to wait on. -/
def newTx (blockers : ℤ) (stateKeys : Keys) : Tx :=
  if blockers > 0 then ⟨blockers, some .waiting, stateKeys⟩ else ⟨0, none, stateKeys⟩

@[simp]
theorem keys_newTx (blockers : ℤ) (stateKeys : Keys) :
    (newTx blockers stateKeys).keys = stateKeys := by
  unfold newTx
  split_ifs <;> rfl

theorem blockers_newTx {blockers : ℤ} (h : 0 ≤ blockers) (stateKeys : Keys) :
    (newTx blockers stateKeys).blockers = blockers := by
  unfold newTx
  split_ifs <;> simp only
  omega

theorem waiter_newTx (blockers : ℤ) (stateKeys : Keys) :
    (newTx blockers stateKeys).waiter = some .waiting ↔ 0 < blockers := by
  unfold newTx
  split_ifs with h <;> simp [h]

/-- The state `Fetch` of `txID` leaves when there is no error. -/
def registerTx (f : Fetcher ι) (txID : ι) (stateKeys : Keys) : Fetcher ι :=
  let ks := stateKeys.keys
  { f with
    keys := fun k => if k ∈ ks then some (registered txID (f.keys k)) else f.keys k
    txs := Function.update f.txs txID
      (some (newTx (ks.filter fun k => !cached (f.keys k)).length stateKeys))
    tasks := f.tasks ++ ks.filter fun k => f.keys k = none }

theorem fetch_of_err_eq_none (he : f.err = none) (txID : ι) (stateKeys : Keys) :
    f.fetch txID stateKeys =
      if f.waited && !(stateKeys.keys.filter fun k => f.keys k = none).isEmpty then none
      else some (f.registerTx txID stateKeys) := by
  unfold Fetcher.fetch
  rw [foldl_registerKey txID stateKeys.keys_nodup]
  simp [he, registerTx, newTx]

@[simp]
theorem cache_registered (txID : ι) (e : Option (Key ι)) :
    (registered txID e).cache = e.bind (·.cache) := rfl

theorem isSome_cache_registered (txID : ι) (e : Option (Key ι)) :
    (registered txID e).cache.isSome = cached e := by
  cases e <;> simp [cached]

theorem mem_blocked_registered {txID id : ι} {e : Option (Key ι)} :
    id ∈ (registered txID e).blocked ↔ e.any (id ∈ ·.blocked) ∨ (id = txID ∧ cached e = false) := by
  cases e with
  | none => simp [registered, cached]
  | some key => by_cases hc : key.cache.isSome <;> simp [registered, cached, hc]

theorem waitsOn_registerTx (txID id : ι) (stateKeys : Keys) (k : Bytes) :
    waitsOn (f.registerTx txID stateKeys).keys id k =
      (waitsOn f.keys id k ||
        (decide (id = txID) && decide (k ∈ stateKeys.keys) && !cached (f.keys k))) := by
  by_cases hk : k ∈ stateKeys.keys
  · cases hc : cached (f.keys k) <;>
      simp [registerTx, waitsOn, hk, mem_blocked_registered, hc]
  · simp [registerTx, waitsOn, hk]

/-- `Fetch` of a new transaction keeps the invariant: it waits on exactly the keys of its own
not yet read, and the keys never seen become tasks. -/
theorem Inv.registerTx (h : Inv im f) {txID : ι} (hfresh : f.txs txID = none)
    (he : f.err = none) {stateKeys : Keys}
    (hw : f.waited = true → (stateKeys.keys.filter fun k => f.keys k = none) = []) :
    Inv im (f.registerTx txID stateKeys) := by
  have hks := stateKeys.keys_nodup
  have hnot := h.not_waitsOn hfresh
  -- the count of every other transaction stays, and the new one counts the keys not read
  have hother : ∀ id, id ≠ txID →
      waitsOn (f.registerTx txID stateKeys).keys id = waitsOn f.keys id := by
    intro id hid
    funext k
    simp [waitsOn_registerTx, hid]
  have hself : stateKeys.keys.filter (waitsOn (f.registerTx txID stateKeys).keys txID) =
      stateKeys.keys.filter fun k => !cached (f.keys k) :=
    List.filter_congr fun k hk => by simp [waitsOn_registerTx, hnot, hk]
  have hentry : ∀ k key', (f.registerTx txID stateKeys).keys k = some key' →
      (k ∈ stateKeys.keys ∧ key' = registered txID (f.keys k)) ∨
        (k ∉ stateKeys.keys ∧ f.keys k = some key') := by
    intro k key' hk
    simp only [Fetcher.registerTx] at hk
    split_ifs at hk with hm
    · exact Or.inl ⟨hm, (Option.some.inj hk).symm⟩
    · exact Or.inr ⟨hm, hk⟩
  have hkeys : ∀ k key, f.keys k = some key → ∃ key',
      (f.registerTx txID stateKeys).keys k = some key' ∧ key'.cache = key.cache ∧
        key.blocked ⊆ key'.blocked := by
    intro k key hk
    by_cases hm : k ∈ stateKeys.keys
    · refine ⟨registered txID (f.keys k), by simp [Fetcher.registerTx, hm], by simp [hk], ?_⟩
      intro id hid
      exact mem_blocked_registered.mpr (Or.inl (by simp [hk, hid]))
    · exact ⟨key, by simp [Fetcher.registerTx, hm, hk], rfl, fun _ => id⟩
  have hpos : ∀ k ∈ stateKeys.keys, cached (f.keys k) = false →
      (0 : ℤ) < (stateKeys.keys.filter fun k => !cached (f.keys k)).length := by
    intro k hk hc
    exact_mod_cast List.length_pos_of_mem (List.mem_filter.mpr ⟨hk, by simp [hc]⟩)
  have htxs : ∀ id, id ≠ txID → (f.registerTx txID stateKeys).txs id = f.txs id :=
    fun id hid => by simp [Fetcher.registerTx, hid]
  have hnew : (f.registerTx txID stateKeys).txs txID =
      some (newTx (stateKeys.keys.filter fun k => !cached (f.keys k)).length stateKeys) := by
    simp [Fetcher.registerTx]
  -- the transactions blocked before stay, with their waiters open
  have hold : ∀ k key, f.keys k = some key → ∀ id ∈ key.blocked, ∃ tx,
      (f.registerTx txID stateKeys).txs id = some tx ∧ tx.waiter = some .waiting ∧ k ∈ tx.keys := by
    intro k key hf id hid
    obtain ⟨tx, htx, hwt, hmem⟩ := (h.blocked k key hf).2 id hid
    have hne : id ≠ txID := by
      rintro rfl
      simp [hfresh] at htx
    exact ⟨tx, by rw [htxs id hne, htx], hwt, hmem⟩
  exact {
    tasks_nodup := by
      refine List.nodup_append.mpr ⟨h.tasks_nodup, hks.filter _, fun a ha b hb hab => ?_⟩
      obtain ⟨key, hkey, -⟩ := h.task a ha
      subst hab
      simp [hkey] at hb
    task := fun k hk => by
      rcases List.mem_append.mp hk with hk | hk
      · obtain ⟨key, hkey, hc⟩ := h.task k hk
        obtain ⟨key', hk', hc', -⟩ := hkeys k key hkey
        exact ⟨key', hk', hc'.trans hc⟩
      · obtain ⟨hm, hn⟩ := List.mem_filter.mp hk
        exact ⟨registered txID (f.keys k), by simp [Fetcher.registerTx, hm],
          by simp [of_decide_eq_true hn]⟩
    pending := fun _ k key' hk hc => by
      rcases hentry k key' hk with ⟨hm, rfl⟩ | ⟨hm, hk'⟩
      · cases hf : f.keys k with
        | none => exact List.mem_append_right _ (List.mem_filter.mpr ⟨hm, by simp [hf]⟩)
        | some key =>
          simp only [cache_registered, hf, Option.bind_some] at hc
          exact List.mem_append_left _ (h.pending he k key hf hc)
      · exact List.mem_append_left _ (h.pending he k key' hk' hc)
    cache := fun k key' d hk hc => by
      rcases hentry k key' hk with ⟨hm, rfl⟩ | ⟨hm, hk'⟩
      · cases hf : f.keys k with
        | none => simp [hf] at hc
        | some key =>
          simp only [cache_registered, hf, Option.bind_some] at hc
          obtain ⟨hd, hb⟩ := h.cache k key d hf hc
          exact ⟨hd, by simp [registered, cached, hc, hb]⟩
      · exact h.cache k key' d hk' hc
    blocked := fun k key' hk => by
      rcases hentry k key' hk with ⟨hm, rfl⟩ | ⟨hm, hk'⟩
      · refine ⟨?_, fun id hid => ?_⟩
        · cases hf : f.keys k with
          | none => simp [registered, cached]
          | some key =>
            have hn : txID ∉ key.blocked := by simpa [waitsOn, hf] using hnot k
            by_cases hc : key.cache.isSome <;>
              simp [registered, cached, hc, (h.blocked k key hf).1, List.nodup_append]
            rintro a ha rfl
            exact hn ha
        · rcases mem_blocked_registered.mp hid with hid | ⟨rfl, hc⟩
          · cases hf : f.keys k with
            | none => simp [hf] at hid
            | some key =>
              simp only [hf, Option.any_some, decide_eq_true_eq] at hid
              exact hold k key hf id hid
          · exact ⟨_, hnew, (waiter_newTx _ _).mpr (hpos k hm hc),
              by simpa [AList.mem_keys] using hm⟩
      · exact ⟨(h.blocked k key' hk').1, hold k key' hk'⟩
    keys := fun id tx hid k hk => by
      by_cases hne : id = txID
      · subst hne
        rw [hnew, Option.some.injEq] at hid
        subst hid
        have hm : k ∈ stateKeys.keys := AList.mem_keys.mp (by simpa using hk)
        refine ⟨registered id (f.keys k), by simp [Fetcher.registerTx, hm], ?_⟩
        cases hc : cached (f.keys k)
        · exact Or.inr (mem_blocked_registered.mpr (Or.inr ⟨rfl, hc⟩))
        · exact Or.inl (by rw [isSome_cache_registered, hc])
      · rw [htxs id hne] at hid
        obtain ⟨key, hkey, hor⟩ := h.keys id tx hid k hk
        obtain ⟨key', hk', hc', hsub⟩ := hkeys k key hkey
        exact ⟨key', hk', hor.imp (fun hc => by rw [hc']; exact hc) fun hm => hsub hm⟩
    blockers := fun id tx hid => by
      by_cases hne : id = txID
      · subst hne
        rw [hnew, Option.some.injEq] at hid
        subst hid
        rw [keys_newTx, hself, blockers_newTx (by omega)]
      · rw [htxs id hne] at hid
        rw [hother id hne]
        exact h.blockers id tx hid
    waiter := fun id tx hid => by
      by_cases hne : id = txID
      · subst hne
        rw [hnew, Option.some.injEq] at hid
        subst hid
        rw [waiter_newTx, blockers_newTx (by omega)]
      · rw [htxs id hne] at hid
        exact h.waiter id tx hid
    waited := fun hw' _ => by
      simp only [Fetcher.registerTx] at hw' ⊢
      rw [h.waited hw' he, hw hw']
      rfl }

/-- What `Fetch` does: nothing once there is an error, and otherwise it registers the
transaction, and never panics before `Wait`. -/
theorem fetch_cases {txID : ι} {stateKeys : Keys} {g : Fetcher ι}
    (hg : f.fetch txID stateKeys = some g) :
    (f.err.isSome ∧ g = f) ∨
      (f.err = none ∧ (f.waited = true → (stateKeys.keys.filter fun k => f.keys k = none) = []) ∧
        g = f.registerTx txID stateKeys) := by
  cases he : f.err with
  | some err =>
    simp only [Fetcher.fetch, he, Option.isSome_some, if_true, Option.some.injEq] at hg
    exact Or.inl ⟨rfl, hg.symm⟩
  | none =>
    rw [fetch_of_err_eq_none he] at hg
    split_ifs at hg with hw
    refine Or.inr ⟨rfl, fun hw' => by simpa [hw'] using hw, (Option.some.inj hg).symm⟩

/-! ## Every step -/

/-- Every step keeps the invariant, given that a `Fetch` is of a transaction not registered. -/
theorem Inv.step {e : Event ι} {g : Fetcher ι} (h : Inv im f)
    (hfresh : ∀ txID stateKeys, e = .fetch txID stateKeys → f.txs txID = none)
    (hg : f.step im e = some g) : Inv im g := by
  cases e with
  | fetch txID stateKeys =>
    rcases fetch_cases hg with ⟨-, rfl⟩ | ⟨he, hw, rfl⟩
    · exact h
    · exact h.registerTx (hfresh _ _ rfl) he hw
  | work k => exact h.work hg
  | stop =>
    cases hg
    exact h.handleErr _
  | wait => exact h.wait hg

/-- A transaction whose waiter is not open has every key read. -/
theorem Inv.cached_of_waiter (h : Inv im f) {id : ι} {tx : Tx} (htx : f.txs id = some tx)
    (hw : tx.waiter ≠ some .waiting) :
    ∀ k ∈ tx.keys, ∃ key d, f.keys k = some key ∧ key.cache = some d ∧ dataOf (im k) = some d := by
  intro k hk
  -- no key left to wait on
  have hlen : (tx.keys.keys.filter (waitsOn f.keys id)).length = 0 := by
    have h₁ := h.blockers id tx htx
    have h₂ := (h.waiter id tx htx).not.mp hw
    omega
  have hno := List.filter_eq_nil_iff.mp (List.length_eq_zero_iff.mp hlen) k (AList.mem_keys.mp hk)
  obtain ⟨key, hkey, hor⟩ := h.keys id tx htx k hk
  obtain ⟨d, hd⟩ := Option.isSome_iff_exists.mp (hor.resolve_right fun hm => hno (by
    simp [waitsOn, hkey, hm]))
  exact ⟨key, d, hkey, hd, (h.cache k key d hkey hd).1⟩

/-- Once no task is left, without an error, no waiter is open. -/
theorem Inv.waiter_of_tasks_eq_nil (h : Inv im f) (he : f.err = none) (ht : f.tasks = [])
    {id : ι} {tx : Tx} (htx : f.txs id = some tx) : tx.waiter ≠ some .waiting := by
  intro hw
  -- an open waiter waits on a key, which is not read and so has a task
  have hpos : 0 < (tx.keys.keys.filter (waitsOn f.keys id)).length := by
    have h₁ := h.blockers id tx htx
    have h₂ := (h.waiter id tx htx).mp hw
    omega
  obtain ⟨k, hk⟩ := List.exists_mem_of_length_pos hpos
  obtain ⟨key, hkey, hid⟩ : ∃ key, f.keys k = some key ∧ id ∈ key.blocked := by
    have hw := (List.mem_filter.mp hk).2
    cases hf : f.keys k with
    | none => simp [waitsOn, hf] at hw
    | some key => exact ⟨key, rfl, by simpa [waitsOn, hf] using hw⟩
  cases hc : key.cache with
  | none => simpa [ht] using h.pending he k key hkey hc
  | some d => simp [(h.cache k key d hkey hc).2] at hid

theorem storage_eq {stateKeys : Keys}
    (h : ∀ k ∈ stateKeys, ∃ key d, f.keys k = some key ∧ key.cache = some d ∧
      dataOf (im k) = some d) :
    f.storage stateKeys = some fun k => if k ∈ stateKeys then (im k).value else none := by
  unfold Fetcher.storage
  rw [foldlM_storeKey stateKeys.keys_nodup (fun k hk => h k (AList.mem_keys.mpr hk)) _
    fun _ _ => rfl]
  simp only [← AList.mem_keys]

/-- Without an error, whatever `Get` of a registered transaction returns is what `im` holds of
its keys. -/
theorem Inv.get_eq (h : Inv im f) (he : f.err = none) {txID : ι} {tx : Tx}
    (htx : f.txs txID = some tx) {r : Got} (hr : Get f txID r) :
    r = .storage fun k => if k ∈ tx.keys then (im k).value else none := by
  cases hr with
  | missingTx h' => simp [htx] at h'
  | ready h' hw hs =>
    obtain rfl := Option.some.inj (h'.symm.trans htx)
    rw [storage_eq (h.cached_of_waiter h' hw), Option.some.injEq] at hs
    rw [hs]
  | failed _ _ h' => simp [he] at h'

/-- Once no task is left, without an error, `Get` of a registered transaction returns. -/
theorem Inv.get_of_tasks_eq_nil (h : Inv im f) (he : f.err = none) (ht : f.tasks = [])
    {txID : ι} {tx : Tx} (htx : f.txs txID = some tx) :
    Get f txID (.storage fun k => if k ∈ tx.keys then (im k).value else none) :=
  have hw := h.waiter_of_tasks_eq_nil he ht htx
  .ready htx hw (storage_eq (h.cached_of_waiter htx hw))

end Fetcher

end Hypersdk.Fetcher
