import Hypersdk.Emap.Emap
import Hypersdk.Emap.Impl

/-!
# Replay protection

A transaction may not be included twice. Block verification asks the context of the block's
parent (`GetVerifyContext`, `vm/verify_context.go`) which of the block's transactions are
repeats of transactions not yet expired:

* while the parent is processing, `StatelessBlock.IsRepeat` (`chain/block.go`) walks from it
  down the processing ancestors, looking each transaction up in each block, and hands over to
  the VM's `EMap` at the first accepted block; it stops early at a block older than
  `oldestAllowed`;
* once the parent is accepted, `AcceptedVerifyContext.IsRepeat` asks the `EMap` alone.

The `EMap` is fed by `VM.Accepted` (`vm/resolutions.go`): `SetMin(blk.Tmstmp)`, then
`Add(blk.Txs)`, for every accepted block after genesis.

Block ids are heights here: the VM follows one chain, `chain`, with the block of height `h`
at index `h`.

`isRepeat_child_of_tip` is the agreement of the two: on a chain whose transactions expire
within the validity window of their blocks (as `Base.Execute` checks when a block is
verified), both answer which candidate transactions have their id in some block of the chain,
however many of its blocks are accepted. The map is the abstract one of `Emap.Emap`;
`seen_fedImpl` and `contains_fedImpl` carry it to `emap.go`'s (`Emap.Impl`), fed the calls
`Accepted` makes.
-/

namespace Hypersdk.Vm

open Emap

variable {α ι : Type} [DecidableEq ι]

/-- A block as replay protection reads it: `Tmstmp`, `Hght`, `Txs` and whether its status is
`Accepted`. -/
structure Block (α : Type) where
  tmstmp : ℤ
  hght : ℕ
  txs : List α
  accepted : Bool

/-- The errors: no context for the genesis block, and a block that cannot be found. -/
inductive RepeatError
  | genesisContext
  | notFound
  deriving DecidableEq, Repr

section IsRepeat

variable (ID : α → ι) (seen : EMap ι)

/-- `StatelessBlock.IsRepeat` on a block and its ancestors (the block first, each followed by
its parent), with the VM's map `seen`; running out of ancestors is a parent not found. -/
def isRepeat (oldestAllowed : ℤ) (txs : List α) (stop : Bool) :
    List (Block α) → Finset ℕ → Except RepeatError (Finset ℕ)
  | [], _ => .error .notFound
  | b :: ancestors, marker =>
    if b.tmstmp < oldestAllowed then .ok marker
    else if b.accepted || b.hght == 0 then .ok (seen.contains ID txs marker stop)
    else
      -- the block's own transactions, by `txsSet`
      match markLoop (fun tx => decide (ID tx ∈ (b.txs.map ID).toFinset)) stop txs 0 marker with
      | (marker, true) => .ok marker
      | (marker, false) => isRepeat oldestAllowed txs stop ancestors marker

variable (expiry : α → ℤ)

/-- The replay protection part of `VM.Accepted`. -/
def accept (seen : EMap ι) (b : Block α) : EMap ι :=
  ((seen.setMin b.tmstmp).1).addAll ID expiry b.txs

/-- The map after accepting `blocks` in order, from an empty one. -/
def fed (blocks : List (Block α)) : EMap ι := blocks.foldl (accept ID expiry) EMap.new

end IsRepeat

/-- The state of the VM that replay protection reads. -/
structure VM (α ι : Type) where
  /-- The blocks the VM holds, by height from genesis. -/
  chain : List (Block α)
  /-- The height of `lastAccepted`. -/
  lastAccepted : ℕ
  /-- Whether `lastAccepted` is processed. -/
  lastAcceptedProcessed : Bool
  /-- `seen`. -/
  seen : EMap ι

/-- The verification contexts. -/
inductive VerifyContext
  /-- `PendingVerifyContext` of the block of this height. -/
  | pending (h : ℕ)
  /-- `AcceptedVerifyContext`. -/
  | accepted
  deriving DecidableEq

namespace VM

/-- `GetVerifyContext` for a block of height `blockHeight`, whose parent is the block below. -/
def getVerifyContext (vm : VM α ι) (blockHeight : ℕ) : Except RepeatError VerifyContext :=
  if blockHeight = 0 then .error .genesisContext
  else if blockHeight - 1 > vm.lastAccepted then
    if blockHeight - 1 < vm.chain.length then .ok (.pending (blockHeight - 1))
    else .error .notFound
  else if !vm.lastAcceptedProcessed && blockHeight - 1 = vm.lastAccepted then
    .ok (.pending vm.lastAccepted)
  else .ok .accepted

/-- The block of height `h` and its ancestors, the block first. -/
def ancestry (vm : VM α ι) (h : ℕ) : List (Block α) := (vm.chain.take (h + 1)).reverse

end VM

/-- `VerifyContext.IsRepeat`; the accepted context ignores `oldestAllowed`. -/
def VerifyContext.isRepeat (ID : α → ι) (vm : VM α ι) (oldestAllowed : ℤ) (txs : List α)
    (marker : Finset ℕ) (stop : Bool) : VerifyContext → Except RepeatError (Finset ℕ)
  | .pending h => Vm.isRepeat ID vm.seen oldestAllowed txs stop (vm.ancestry h) marker
  | .accepted => .ok (vm.seen.contains ID txs marker stop)

/-! ## The map fed by accepted blocks -/

section Fed

variable {ID : α → ι} {expiry : α → ℤ}

/-- A chain as block verification leaves it: timestamps do not decrease, and every
transaction expires no earlier than its block and at most `W` after it (`Base.Execute`).
Blocks are timed after the epoch. -/
structure WellTimed (expiry : α → ℤ) (W : ℤ) (blocks : List (Block α)) : Prop where
  sorted : blocks.Pairwise fun b b' => b.tmstmp ≤ b'.tmstmp
  expiry_ge : ∀ b ∈ blocks, ∀ y ∈ b.txs, b.tmstmp ≤ expiry y
  expiry_le : ∀ b ∈ blocks, ∀ y ∈ b.txs, expiry y ≤ b.tmstmp + W
  pos : ∀ b ∈ blocks, 0 < b.tmstmp

theorem WellTimed.sublist {W : ℤ} {l₁ l₂ : List (Block α)} (h : WellTimed expiry W l₂)
    (hs : l₁.Sublist l₂) : WellTimed expiry W l₁ :=
  ⟨h.sorted.sublist hs, fun b hb => h.expiry_ge b (hs.subset hb),
    fun b hb => h.expiry_le b (hs.subset hb), fun b hb => h.pos b (hs.subset hb)⟩

/-- What the map holds after accepting `blocks`: the ids of their transactions with their
expiries, for the expiries no earlier than any of the blocks. -/
def Holds (ID : α → ι) (expiry : α → ℤ) (blocks : List (Block α)) (m : ι → Option ℤ) : Prop :=
  ∀ id t, m id = some t ↔
    (∃ b ∈ blocks, ∃ y ∈ b.txs, ID y = id ∧ expiry y = t) ∧ ∀ b ∈ blocks, b.tmstmp ≤ t

/-- What `add` records for a transaction, when the map records every id with its expiry. -/
theorem add_recorded {m : ι → Option ℤ} (hm : ∀ x t, m (ID x) = some t → t = expiry x) {x : α}
    (hx : expiry x ≠ 0) (id : ι) (t : ℤ) :
    (if expiry x = 0 ∨ (m (ID x)).isSome then m
      else Function.update m (ID x) (some (expiry x))) id = some t ↔
      m id = some t ∨ (ID x = id ∧ expiry x = t) := by
  cases hmx : m (ID x) with
  | some t₀ =>
    -- the id is there already, with the same expiry
    have ht₀ : t₀ = expiry x := hm x t₀ hmx
    simp only [Option.isSome_some, or_true, if_true]
    constructor
    · exact .inl
    · rintro (h | ⟨rfl, rfl⟩)
      · exact h
      · rw [hmx, ht₀]
  | none =>
    simp only [hx, Option.isSome_none, Bool.false_eq_true, or_self, if_false]
    by_cases hid : id = ID x
    · subst hid
      simp [hmx, eq_comm]
    · simp [Function.update_of_ne hid, Ne.symm hid]

variable (hinj : ∀ x y, ID x = ID y → expiry x = expiry y)
include hinj

omit [DecidableEq ι] in
theorem holds_expiry {blocks : List (Block α)} {m : ι → Option ℤ} (hm : Holds ID expiry blocks m)
    (x : α) (t : ℤ) (h : m (ID x) = some t) : t = expiry x := by
  obtain ⟨⟨b, -, y, -, hy, rfl⟩, -⟩ := (hm (ID x) t).mp h
  exact hinj y x hy

/-- **`Add`** records the items it is given, each with its expiry. -/
theorem addAll_valid {e : EMap ι} {m : ι → Option ℤ} (he : e.Valid m)
    (hm : ∀ x t, m (ID x) = some t → t = expiry x) {items : List α}
    (hpos : ∀ x ∈ items, expiry x ≠ 0) :
    ∃ m', (e.addAll ID expiry items).Valid m' ∧
      ∀ id t, m' id = some t ↔ m id = some t ∨ ∃ x ∈ items, ID x = id ∧ expiry x = t := by
  induction items generalizing e m with
  | nil => exact ⟨m, he, by simp⟩
  | cons x xs ih =>
    have hx : expiry x ≠ 0 := hpos x (by simp)
    have he₁ := EMap.add_valid he (ID x) (expiry x)
    have hm₁ : ∀ y t, (if expiry x = 0 ∨ (m (ID x)).isSome then m
        else Function.update m (ID x) (some (expiry x))) (ID y) = some t → t = expiry y := by
      intro y t h
      rcases (add_recorded hm hx (ID y) t).mp h with h | ⟨hxy, rfl⟩
      · exact hm y t h
      · exact hinj x y hxy
    obtain ⟨m', hv, hchar⟩ := ih he₁ hm₁ (fun y hy => hpos y (by simp [hy]))
    refine ⟨m', hv, fun id t => ?_⟩
    rw [hchar, add_recorded hm hx]
    simp only [List.mem_cons]
    constructor
    · rintro ((h | h) | ⟨y, hy, h⟩)
      · exact .inl h
      · exact .inr ⟨x, .inl rfl, h⟩
      · exact .inr ⟨y, .inr hy, h⟩
    · rintro (h | ⟨y, rfl | hy, h⟩)
      · exact .inl (.inl h)
      · exact .inl (.inr h)
      · exact .inr ⟨y, hy, h⟩

/-- **Accepting a block**: the map then holds what it held of the blocks before, and the
block's own transactions, that expire no earlier than the block. -/
theorem accept_valid {W : ℤ} {pre : List (Block α)} {b : Block α}
    (hw : WellTimed expiry W (pre ++ [b])) {e : EMap ι} {m : ι → Option ℤ} (he : e.Valid m)
    (hm : Holds ID expiry pre m) :
    ∃ m', (accept ID expiry e b).Valid m' ∧ Holds ID expiry (pre ++ [b]) m' := by
  have hb : b ∈ pre ++ [b] := by simp
  have hle : ∀ b' ∈ pre, b'.tmstmp ≤ b.tmstmp := fun b' hb' =>
    (List.pairwise_append.mp hw.sorted).2.2 b' hb' b (by simp)
  -- first `SetMin`: what is left expires no earlier than the block
  have he₁ := EMap.setMin_valid he b.tmstmp
  set m₁ : ι → Option ℤ := fun id => (m id).filter fun t' => decide (b.tmstmp ≤ t')
  have hm₁ : ∀ x t, m₁ (ID x) = some t → t = expiry x := by
    intro x t h
    simp only [m₁, Option.filter_eq_some_iff] at h
    exact holds_expiry hinj hm x t h.1
  -- then `Add` of the block's transactions
  obtain ⟨m', hv, hchar⟩ := addAll_valid hinj he₁ hm₁
    fun y (hy : y ∈ b.txs) => (lt_of_lt_of_le (hw.pos b hb) (hw.expiry_ge b hb y hy)).ne'
  refine ⟨m', hv, fun id t => ?_⟩
  rw [hchar]
  simp only [m₁, Option.filter_eq_some_iff, decide_eq_true_eq, hm id t, List.mem_append,
    List.mem_singleton]
  constructor
  · rintro (⟨⟨⟨b', hb', h⟩, hall⟩, hbt⟩ | ⟨y, hy, rfl, rfl⟩)
    · refine ⟨⟨b', .inl hb', h⟩, fun b'' hb'' => ?_⟩
      rcases hb'' with hb'' | rfl
      · exact hall b'' hb''
      · exact hbt
    · refine ⟨⟨b, .inr rfl, y, hy, rfl, rfl⟩, fun b'' hb'' => ?_⟩
      have hge : b.tmstmp ≤ expiry y := hw.expiry_ge b hb y hy
      rcases hb'' with hb'' | rfl
      · exact (hle b'' hb'').trans hge
      · exact hge
  · rintro ⟨⟨b', hb' | rfl, h⟩, hall⟩
    · exact .inl ⟨⟨⟨b', hb', h⟩, fun b'' hb'' => hall b'' (.inl hb'')⟩, hall b (.inr rfl)⟩
    · obtain ⟨y, hy, h⟩ := h
      exact .inr ⟨y, hy, h⟩

/-- **The map after accepting `blocks`** holds what `Holds` says. -/
theorem fed_valid {W : ℤ} {blocks : List (Block α)} (hw : WellTimed expiry W blocks) :
    ∃ m, (fed ID expiry blocks).Valid m ∧ Holds ID expiry blocks m := by
  -- accept the blocks one by one, after a prefix `pre` already accepted
  suffices h : ∀ (bs pre : List (Block α)) (e : EMap ι) (m : ι → Option ℤ),
      WellTimed expiry W (pre ++ bs) → e.Valid m → Holds ID expiry pre m →
      ∃ m', (bs.foldl (accept ID expiry) e).Valid m' ∧ Holds ID expiry (pre ++ bs) m' by
    simpa [fed] using h blocks [] EMap.new (fun _ => none) (by simpa using hw) EMap.new_valid
      (by simp [Holds])
  intro bs
  induction bs with
  | nil => exact fun pre e m _ he hm => ⟨m, he, by simpa using hm⟩
  | cons b bs ih =>
    intro pre e m hw he hm
    have hw₁ : WellTimed expiry W (pre ++ [b]) :=
      hw.sublist (by simp)
    obtain ⟨m₁, he₁, hm₁⟩ := accept_valid hinj hw₁ he hm
    simpa using ih (pre ++ [b]) _ m₁ (by simpa using hw) he₁ hm₁

/-- **A transaction remembered by the map fed by `blocks`** is one of theirs that expires no
earlier than any of them. -/
theorem mem_fed_seen {W : ℤ} {blocks : List (Block α)} (hw : WellTimed expiry W blocks) (x : α) :
    ID x ∈ (fed ID expiry blocks).seen ↔
      (∃ b ∈ blocks, ID x ∈ b.txs.map ID) ∧ ∀ b ∈ blocks, b.tmstmp ≤ expiry x := by
  obtain ⟨m, hv, hm⟩ := fed_valid hinj hw
  rw [hv.seen_iff, Option.isSome_iff_exists]
  constructor
  · rintro ⟨t, ht⟩
    obtain ⟨⟨b, hb, y, hy, hyx, rfl⟩, hall⟩ := (hm (ID x) t).mp ht
    exact ⟨⟨b, hb, List.mem_map.mpr ⟨y, hy, hyx⟩⟩, by rwa [← hinj y x hyx]⟩
  · rintro ⟨⟨b, hb, hx⟩, hall⟩
    obtain ⟨y, hy, hyx⟩ := List.mem_map.mp hx
    exact ⟨expiry x, (hm (ID x) (expiry x)).mpr ⟨⟨b, hb, y, hy, hyx, hinj y x hyx⟩, hall⟩⟩

omit [DecidableEq ι] in
/-- A candidate expiring at `T` or later that is a repeat of a transaction of a well-timed
block comes from a block no older than `T - W`. -/
theorem sub_le_of_mem_txs {W T : ℤ} {blocks : List (Block α)} (hw : WellTimed expiry W blocks)
    {b : Block α} (hb : b ∈ blocks) {x : α} (hx : T ≤ expiry x) (hid : ID x ∈ b.txs.map ID) :
    T - W ≤ b.tmstmp := by
  obtain ⟨y, hy, hyx⟩ := List.mem_map.mp hid
  have hle := hw.expiry_le b hb y hy
  rw [hinj y x hyx] at hle
  omega

end Fed

/-! ## The walk down the processing ancestors -/

/-- **The walk without `stop`** looks each candidate up in the processing blocks down to the
first accepted one, and in the map there, as long as the blocks are no older than
`oldestAllowed`. -/
theorem isRepeat_walk (ID : α → ι) (seen : EMap ι) {ps rest : List (Block α)} {a : Block α}
    (hps : ∀ b ∈ ps, b.accepted = false ∧ b.hght ≠ 0) (ha : a.accepted = true)
    (hsorted : (ps ++ a :: rest).Pairwise fun b b' => b'.tmstmp ≤ b.tmstmp)
    (oldestAllowed : ℤ) (txs : List α) (marker : Finset ℕ) :
    ∃ r, isRepeat ID seen oldestAllowed txs false (ps ++ a :: rest) marker = .ok r ∧
      ∀ i, i ∈ r ↔ i ∈ marker ∨ ∃ x, txs[i]? = some x ∧
        ((∃ b ∈ ps, oldestAllowed ≤ b.tmstmp ∧ ID x ∈ b.txs.map ID) ∨
          (oldestAllowed ≤ a.tmstmp ∧ ID x ∈ seen.seen)) := by
  induction ps generalizing marker with
  | nil =>
    by_cases hold : a.tmstmp < oldestAllowed
    · refine ⟨marker, by simp [isRepeat, hold], fun i => ?_⟩
      simp [not_le.mpr hold]
    · refine ⟨seen.contains ID txs marker false, by simp [isRepeat, hold, ha], fun i => ?_⟩
      simp [EMap.mem_contains_false, not_lt.mp hold]
  | cons b ps ih =>
    have hb := hps b (by simp)
    rw [List.cons_append, List.pairwise_cons] at hsorted
    by_cases hold : b.tmstmp < oldestAllowed
    · -- the blocks below are older still, so the walk ends here
      have hps' : ∀ c ∈ ps, c.tmstmp < oldestAllowed := fun c hc =>
        (hsorted.1 c (by simp [hc])).trans_lt hold
      have ha' : a.tmstmp < oldestAllowed := (hsorted.1 a (by simp)).trans_lt hold
      refine ⟨marker, by simp [isRepeat, hold], fun i => ?_⟩
      constructor
      · exact .inl
      · rintro (h | ⟨x, -, ⟨c, hc, hle, -⟩ | ⟨hle, -⟩⟩)
        · exact h
        · rcases List.mem_cons.mp hc with rfl | hc
          · exact absurd hle (not_le.mpr hold)
          · exact absurd hle (not_le.mpr (hps' c hc))
        · exact absurd hle (not_le.mpr ha')
    · -- mark the block's own transactions, then walk on to its parent
      set P : α → Bool := fun tx => decide (ID tx ∈ (b.txs.map ID).toFinset)
      obtain ⟨r, hr, hmem⟩ := ih (fun c hc => hps c (by simp [hc])) hsorted.2
        (markLoop P false txs 0 marker).1
      have hloop : markLoop P false txs 0 marker = ((markLoop P false txs 0 marker).1, false) :=
        Prod.ext rfl (markLoop_false_snd P txs 0 marker)
      refine ⟨r, ?_, fun i => ?_⟩
      · have hnot : (b.accepted || b.hght == 0) = false := by simp [hb.1, hb.2]
        simp only [List.cons_append, isRepeat, hold, if_false, hnot, Bool.false_eq_true]
        rw [hloop]
        exact hr
      · rw [hmem, mem_markLoop_false_zero]
        cases htx : txs[i]? with
        | none => simp
        | some x =>
          simp only [P, Option.some.injEq, exists_eq_left', decide_eq_true_eq,
            List.mem_toFinset]
          simp only [List.mem_cons, or_and_right, exists_or, exists_eq_left, not_lt.mp hold,
            true_and, or_assoc]

/-! ## The map of `emap.go`

The VM's map is `emap.EMap`; `Emap.Impl` models it with its heap, `times` map and buckets, and
refines the map of `Emap.Emap` on every run of calls (`Impl.EMap.refines_run`). Fed the calls
`Accepted` makes, it holds the same ids as `fed`, so its `Contains` is the answer the accepted
context gives. -/

section Impl

variable (ID : α → ι) (expiry : α → ℤ)

/-- The calls `Accepted` makes on the map for a block: `SetMin(blk.Tmstmp)`, then
`Add(blk.Txs)`. -/
def acceptCalls (b : Block α) : List (Impl.Call α) := [.setMin b.tmstmp, .add b.txs]

/-- `emap.go`'s map after accepting `blocks` in order, from an empty one. -/
def fedImpl (blocks : List (Block α)) : Impl.EMap ι :=
  (blocks.flatMap acceptCalls).foldl (Impl.EMap.call ID expiry) Impl.EMap.new

theorem accept_eq_events (seen : EMap ι) (b : Block α) :
    accept ID expiry seen b =
      ((acceptCalls b).flatMap (Impl.Call.events ID expiry)).foldl EMap.event seen := by
  simp [accept, acceptCalls, Impl.Call.events, EMap.addAll, List.foldl_map, EMap.event]

theorem foldl_accept_eq_events (blocks : List (Block α)) (seen : EMap ι) :
    blocks.foldl (accept ID expiry) seen =
      ((blocks.flatMap acceptCalls).flatMap (Impl.Call.events ID expiry)).foldl EMap.event seen := by
  induction blocks generalizing seen with
  | nil => rfl
  | cons b bs ih =>
    rw [List.foldl_cons, ih, accept_eq_events, List.flatMap_cons, List.flatMap_append,
      List.foldl_append]

/-- **`emap.go`'s map, fed as `Accepted` feeds it, holds the ids of `fed`.** -/
theorem seen_fedImpl (blocks : List (Block α)) :
    (fedImpl ID expiry blocks).seen = (fed ID expiry blocks).seen := by
  rw [fedImpl, Impl.EMap.foldl_call, fed, foldl_accept_eq_events]
  exact (Impl.EMap.refines_run _).seen

/-- `Contains` of `emap.go`'s map, fed as `Accepted` feeds it, is the accepted context's answer
over `fed`. -/
theorem contains_fedImpl (blocks : List (Block α)) (txs : List α) (marker : Finset ℕ)
    (stop : Bool) :
    (markLoop (fun x => decide (ID x ∈ (fedImpl ID expiry blocks).seen)) stop txs 0 marker).1 =
      (fed ID expiry blocks).contains ID txs marker stop := by
  rw [seen_fedImpl]
  rfl

end Impl

/-! ## Agreement of the two contexts -/

/-- The VM following its chain: the blocks up to height `k` are accepted, and those after
genesis were fed in order to `seen` by `Accepted`; the blocks above are processing. Genesis
has no transactions. -/
structure Following (ID : α → ι) (expiry : α → ℤ) (vm : VM α ι) (k : ℕ) : Prop where
  k_lt : k < vm.chain.length
  lastAccepted : vm.lastAccepted = k
  accepted : ∀ b ∈ vm.chain.take (k + 1), b.accepted = true
  processing : ∀ b ∈ vm.chain.drop (k + 1), b.accepted = false ∧ b.hght ≠ 0
  genesis : ∀ b ∈ vm.chain.head?, b.txs = []
  seen : vm.seen = fed ID expiry ((vm.chain.take (k + 1)).drop 1)

omit [DecidableEq ι] in
theorem le_of_mem_of_mem_getLast? {l : List (Block α)}
    (hs : l.Pairwise fun b b' => b.tmstmp ≤ b'.tmstmp) {b tip : Block α} (hb : b ∈ l)
    (htip : tip ∈ l.getLast?) : b.tmstmp ≤ tip.tmstmp := by
  obtain ⟨init, rfl⟩ : ∃ init, l = init ++ [tip] :=
    ⟨_, (List.dropLast_append_getLast? tip htip).symm⟩
  rcases List.mem_append.mp hb with hb | hb
  · exact (List.pairwise_append.mp hs).2.2 b hb tip (by simp)
  · rw [List.mem_singleton.mp hb]

/-- **Both contexts find the repeats of the chain.** For a block after the tip of a
well-timed chain, at a time `T` no earlier than the tip, the context `GetVerifyContext` returns
marks, without `stop` and with `oldestAllowed = T - W`, exactly the candidates expiring at `T`
or later whose id is that of a transaction of the chain: whatever the number of accepted blocks
and whether the last one is processed. -/
theorem isRepeat_child_of_tip {ID : α → ι} {expiry : α → ℤ}
    (hinj : ∀ x y, ID x = ID y → expiry x = expiry y) {W : ℤ} {vm : VM α ι} {k : ℕ}
    (hvm : Following ID expiry vm k) (hw : WellTimed expiry W vm.chain) {T : ℤ}
    (hT : ∀ tip ∈ vm.chain.getLast?, tip.tmstmp ≤ T) {txs : List α}
    (htxs : ∀ x ∈ txs, T ≤ expiry x) (marker : Finset ℕ) :
    ∃ ctx r, vm.getVerifyContext vm.chain.length = .ok ctx ∧
      ctx.isRepeat ID vm (T - W) txs marker false = .ok r ∧
      ∀ i, i ∈ r ↔ i ∈ marker ∨ ∃ x, txs[i]? = some x ∧ ∃ b ∈ vm.chain, ID x ∈ b.txs.map ID := by
  have hk := hvm.k_lt
  have hle : ∀ b ∈ vm.chain, b.tmstmp ≤ T := by
    intro b hb
    cases hlast : vm.chain.getLast? with
    | none => simp [List.getLast?_eq_none_iff.mp hlast] at hb
    | some tip => exact (le_of_mem_of_mem_getLast? hw.sorted hb hlast).trans (hT tip hlast)
  -- the accepted blocks, ending with `a`, and the processing ones
  set acc := vm.chain.take (k + 1) with hacc_def
  set proc := vm.chain.drop (k + 1) with hproc_def
  have hchain : vm.chain = acc ++ proc := (List.take_append_drop _ _).symm
  have hne : acc ≠ [] := by
    intro h
    have hlen := congrArg List.length h
    simp only [acc, List.length_take, List.length_nil] at hlen
    omega
  obtain ⟨rest, a, hacc⟩ : ∃ rest a, acc = rest ++ [a] := by
    rcases List.eq_nil_or_concat acc with h | ⟨rest, a, h⟩
    · exact absurd h hne
    · exact ⟨rest, a, by simpa using h⟩
  obtain ⟨g, tl, hg⟩ : ∃ g tl, acc = g :: tl := List.exists_cons_of_ne_nil hne
  have hgen : g.txs = [] := hvm.genesis g (by simp [hchain, hg])
  have ha : a.accepted = true := hvm.accepted a (by simp [← hacc_def, hacc])
  have hwacc : WellTimed expiry W acc := hw.sublist (List.take_sublist _ _)
  -- the map remembers the accepted candidates
  have hseen : ∀ x, T ≤ expiry x → (ID x ∈ vm.seen.seen ↔ ∃ b ∈ acc, ID x ∈ b.txs.map ID) := by
    intro x hx
    rw [hvm.seen, ← hacc_def, mem_fed_seen hinj (hwacc.sublist (List.drop_sublist _ _)), hg]
    simp only [List.drop_one, List.tail_cons, List.mem_cons, exists_eq_or_imp, hgen,
      List.map_nil, List.not_mem_nil, false_or]
    refine ⟨fun h => h.1, fun h => ⟨h, fun b hb => (hle b ?_).trans hx⟩⟩
    simp [hchain, hg, hb]
  -- an accepted repeat is recent enough to be looked up at `a`
  have hrecent : ∀ x, T ≤ expiry x → (∃ b ∈ acc, ID x ∈ b.txs.map ID) → T - W ≤ a.tmstmp := by
    rintro x hx ⟨b, hb, hid⟩
    have hba : b.tmstmp ≤ a.tmstmp :=
      le_of_mem_of_mem_getLast? hwacc.sorted hb (by simp [hacc])
    exact (sub_le_of_mem_txs hinj hwacc hb hx hid).trans hba
  -- what the walk finds is what the chain holds
  have hfound : ∀ x, T ≤ expiry x →
      (((∃ b ∈ proc.reverse, T - W ≤ b.tmstmp ∧ ID x ∈ b.txs.map ID) ∨
        (T - W ≤ a.tmstmp ∧ ID x ∈ vm.seen.seen)) ↔ ∃ b ∈ vm.chain, ID x ∈ b.txs.map ID) := by
    intro x hx
    rw [hseen x hx]
    constructor
    · rintro (⟨b, hb, -, hid⟩ | ⟨-, b, hb, hid⟩)
      · exact ⟨b, by simp [hchain, List.mem_reverse.mp hb], hid⟩
      · exact ⟨b, by simp [hchain, hb], hid⟩
    · rintro ⟨b, hb, hid⟩
      rw [hchain] at hb
      rcases List.mem_append.mp hb with hb | hb
      · exact .inr ⟨hrecent x hx ⟨b, hb, hid⟩, b, hb, hid⟩
      · exact .inl ⟨b, List.mem_reverse.mpr hb,
          sub_le_of_mem_txs hinj hw (by simp [hchain, hb]) hx hid, hid⟩
  -- the walk from a block down the chain, when it is the tip or `a`
  have hwalk : ∀ ps, ps = proc.reverse ∨ ps = [] → (ps = [] → proc = []) →
      ∃ r, isRepeat ID vm.seen (T - W) txs false (ps ++ a :: rest.reverse) marker = .ok r ∧
        ∀ i, i ∈ r ↔ i ∈ marker ∨ ∃ x, txs[i]? = some x ∧ ∃ b ∈ vm.chain, ID x ∈ b.txs.map ID := by
    intro ps hps hnil
    have hps' : ∀ b ∈ ps, b.accepted = false ∧ b.hght ≠ 0 := by
      rcases hps with rfl | rfl
      · exact fun b hb => hvm.processing b (List.mem_reverse.mp hb)
      · simp
    have hsorted : (ps ++ a :: rest.reverse).Pairwise fun b b' => b'.tmstmp ≤ b.tmstmp := by
      have h : (ps ++ a :: rest.reverse).Sublist vm.chain.reverse := by
        rw [hchain, List.reverse_append, hacc]
        rcases hps with rfl | rfl
        · simp
        · simp
      exact (List.pairwise_reverse.mpr hw.sorted).sublist h
    obtain ⟨r, hr, hmem⟩ := isRepeat_walk ID vm.seen hps' ha hsorted (T - W) txs marker
    refine ⟨r, hr, fun i => ?_⟩
    rw [hmem]
    cases htx : txs[i]? with
    | none => simp
    | some x =>
      have hx : T ≤ expiry x := htxs x (List.mem_of_getElem? htx)
      simp only [Option.some.injEq, exists_eq_left', ← hfound x hx]
      rcases hps with rfl | rfl
      · rfl
      · simp [hnil rfl]
  by_cases htip : k + 1 < vm.chain.length
  · -- the tip is processing: its own context walks down to `a`
    refine ⟨.pending (vm.chain.length - 1), ?_⟩
    have hctx : vm.getVerifyContext vm.chain.length = .ok (.pending (vm.chain.length - 1)) := by
      simp only [VM.getVerifyContext, hvm.lastAccepted]
      rw [if_neg (by omega), if_pos (by omega), if_pos (by omega)]
    have hanc : vm.ancestry (vm.chain.length - 1) = proc.reverse ++ a :: rest.reverse := by
      rw [VM.ancestry, Nat.sub_add_cancel (by omega), List.take_length, hchain,
        List.reverse_append, hacc]
      simp
    obtain ⟨r, hr, hmem⟩ := hwalk proc.reverse (.inl rfl) (fun h => List.reverse_eq_nil_iff.mp h)
    exact ⟨r, hctx, by rw [VerifyContext.isRepeat, hanc]; exact hr, hmem⟩
  · -- the tip is `a`, accepted
    have hproc : proc = [] := List.drop_eq_nil_of_le (by omega)
    cases hp : vm.lastAcceptedProcessed
    · refine ⟨.pending k, ?_⟩
      have hctx : vm.getVerifyContext vm.chain.length = .ok (.pending k) := by
        simp only [VM.getVerifyContext, hvm.lastAccepted, hp]
        rw [if_neg (by omega), if_neg (by omega), if_pos (by simp; omega)]
      have hanc : vm.ancestry k = [] ++ a :: rest.reverse := by
        rw [VM.ancestry, ← hacc_def, hacc]
        simp
      obtain ⟨r, hr, hmem⟩ := hwalk [] (.inr rfl) (fun _ => hproc)
      exact ⟨r, hctx, by rw [VerifyContext.isRepeat, hanc]; exact hr, hmem⟩
    · refine ⟨.accepted, _, ?_, rfl, fun i => ?_⟩
      · simp only [VM.getVerifyContext, hvm.lastAccepted, hp]
        rw [if_neg (by omega), if_neg (by omega), if_neg (by simp)]
      · rw [EMap.mem_contains_false]
        cases htx : txs[i]? with
        | none => simp
        | some x =>
          have hx : T ≤ expiry x := htxs x (List.mem_of_getElem? htx)
          simp only [Option.some.injEq, exists_eq_left', hseen x hx, hchain, hproc,
            List.append_nil]

/-- A chain of three blocks, the second accepted and the tip processing: of the candidates
expiring at 3000, 4000 and 5000, a block after the tip finds the first two repeated. A
transaction is its expiry here. -/
theorem isRepeat_child_of_three_blocks :
    let vm : VM ℤ ℤ := ⟨[⟨1000, 0, [], true⟩, ⟨2000, 1, [3000], true⟩, ⟨3000, 2, [4000], false⟩],
      1, true, fed id id [⟨2000, 1, [3000], true⟩]⟩
    ∃ ctx r, vm.getVerifyContext vm.chain.length = .ok ctx ∧
      ctx.isRepeat id vm (3000 - 60000) [3000, 4000, 5000] ∅ false = .ok r ∧
      ∀ i, i ∈ r ↔ i ∈ (∅ : Finset ℕ) ∨
        ∃ x, [3000, 4000, 5000][i]? = some x ∧ ∃ b ∈ vm.chain, id x ∈ b.txs.map id :=
  isRepeat_child_of_tip (fun _ _ h => h) ⟨by decide, rfl, by decide, by decide, by decide, rfl⟩
    ⟨by decide, by decide, by decide, by decide⟩ (by decide) (by decide) ∅

end Hypersdk.Vm
