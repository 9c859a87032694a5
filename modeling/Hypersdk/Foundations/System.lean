import Mathlib

/-!
# Transition systems with computed steps, and pools of processes

A `System` computes the state an action leads to, `none` where the action is not enabled, so
that a model can run a concrete schedule (`run`) as well as quantify over every schedule
(`Reaches`). A `Stable` predicate, one that every step preserves, holds along every run
(`Stable.reaches`): the rule each invariant proof of a model ends with. One that only the steps
of some actions preserve holds at the end of every schedule of those actions
(`StableOn.run`).

A pool of processes of one kind is a function from a finite set of names to local states;
`count` is the number of processes whose state passes a test. Updating one process changes the
count by at most one, in the direction the test of its old and new state says
(`count_update_of_iff`, `count_update_of_not_of`, `count_update_of_of_not`).
-/

namespace Hypersdk.Foundations

/-- A transition system whose steps are computed. -/
structure System (S L : Type*) where
  /-- The state after action `l`, or `none` where `l` is not enabled. -/
  next : L → S → Option S

namespace System

variable {S L : Type*} (T : System S L)

/-- One step by some action. -/
def Step (s s' : S) : Prop := ∃ l, T.next l s = some s'

/-- Zero or more steps. -/
def Reaches : S → S → Prop := Relation.ReflTransGen T.Step

/-- The state a schedule of actions leads to, if every action is enabled in turn. -/
def run : List L → S → Option S
  | [], s => some s
  | l :: ls, s => (T.next l s).bind (run ls)

/-- A predicate that every step preserves. -/
def Stable (P : S → Prop) : Prop := ∀ l s s', T.next l s = some s' → P s → P s'

variable {T}

theorem Reaches.refl (s : S) : T.Reaches s s := Relation.ReflTransGen.refl

theorem Reaches.trans {s₁ s₂ s₃ : S} (h₁ : T.Reaches s₁ s₂) (h₂ : T.Reaches s₂ s₃) :
    T.Reaches s₁ s₃ :=
  Relation.ReflTransGen.trans h₁ h₂

theorem Reaches.tail {s s' s'' : S} {l : L} (h : T.Reaches s s') (hl : T.next l s' = some s'') :
    T.Reaches s s'' :=
  Relation.ReflTransGen.tail h ⟨l, hl⟩

theorem reaches_of_run {ls : List L} {s s' : S} (h : T.run ls s = some s') : T.Reaches s s' := by
  induction ls generalizing s with
  | nil =>
    cases h
    exact Reaches.refl _
  | cons l ls ih =>
    obtain ⟨s₁, h₁, h₂⟩ := Option.bind_eq_some_iff.mp h
    exact Relation.ReflTransGen.head ⟨l, h₁⟩ (ih h₂)

/-- **Invariance.** A stable predicate holds of every state reached from one that has it. -/
theorem Stable.reaches {P : S → Prop} (hP : T.Stable P) {s s' : S} (h : T.Reaches s s')
    (hs : P s) : P s' := by
  induction h with
  | refl => exact hs
  | tail _ hst ih =>
    obtain ⟨l, hl⟩ := hst
    exact hP l _ _ hl ih

theorem Stable.and {P Q : S → Prop} (hP : T.Stable P) (hQ : T.Stable Q) :
    T.Stable fun s => P s ∧ Q s :=
  fun l s s' h hs => ⟨hP l s s' h hs.1, hQ l s s' h hs.2⟩

/-- A predicate that every step by an action passing `ok` preserves. -/
def StableOn (ok : L → Prop) (P : S → Prop) : Prop :=
  ∀ l s s', ok l → T.next l s = some s' → P s → P s'

/-- **Invariance along a schedule.** A predicate that the steps by actions passing `ok` preserve
holds at the end of every schedule of such actions from a state that has it. -/
theorem StableOn.run {ok : L → Prop} {P : S → Prop} (hP : T.StableOn ok P) :
    ∀ {ls : List L} {s s' : S}, (∀ l ∈ ls, ok l) → T.run ls s = some s' → P s → P s'
  | [], s, s', _, h, hs => by
    cases h
    exact hs
  | l :: ls, s, s', hok, h, hs => by
    obtain ⟨s₁, h₁, h₂⟩ := Option.bind_eq_some_iff.mp h
    exact StableOn.run hP (fun l' hl' => hok l' (List.mem_cons_of_mem l hl')) h₂
      (hP l s s₁ (hok l List.mem_cons_self) h₁ hs)

/-- A predicate that every step from a state passing `G` preserves. -/
def StableWhere (G P : S → Prop) : Prop :=
  ∀ l s s', T.next l s = some s' → G s → P s → P s'

/-- **Invariance along a schedule whose states pass a guard.** A predicate that the steps from
states passing `G` preserve holds at the end of every schedule from a state that has it, when
`G` holds at every state the schedule passes through before its last. -/
theorem StableWhere.run {G P : S → Prop} (hP : T.StableWhere G P) {ls : List L} {s s' : S}
    (hG : ∀ n s'', T.run (ls.take n) s = some s'' → G s'') (h : T.run ls s = some s')
    (hs : P s) : P s' := by
  induction ls generalizing s with
  | nil =>
    cases h
    exact hs
  | cons l ls ih =>
    obtain ⟨s₁, h₁, h₂⟩ := Option.bind_eq_some_iff.mp h
    -- the guard at `s` is the guard at the empty prefix; the later ones shift by one action
    have hG₀ : G s := hG 0 s rfl
    refine ih (fun n s'' hn => hG (n + 1) s'' ?_) h₂ (hP l s s₁ h₁ hG₀ hs)
    rw [List.take_succ_cons]
    show (T.next l s).bind (T.run (ls.take n)) = some s''
    rw [h₁]
    exact hn

end System

/-! ## Pools of processes -/

section Pool

open Function

variable {ι W : Type*} [Fintype ι] (p : W → Prop) [DecidablePred p]

/-- The number of processes of the pool `ws` whose state passes `p`. -/
def count (ws : ι → W) : ℕ := (Finset.univ.filter fun i => p (ws i)).card

variable {p} {ws : ι → W}

theorem count_eq_card_iff : count p ws = Fintype.card ι ↔ ∀ i, p (ws i) := by
  rw [count, ← Finset.card_univ, Finset.card_filter_eq_iff]
  simp

theorem count_eq_zero_iff : count p ws = 0 ↔ ∀ i, ¬ p (ws i) := by
  rw [count, Finset.card_filter_eq_zero_iff]
  simp

theorem count_pos_of {i : ι} (h : p (ws i)) : 0 < count p ws := by
  rw [Nat.pos_iff_ne_zero, Ne, count_eq_zero_iff]
  exact fun hall => hall i h

variable [DecidableEq ι] {i : ι} {v : W}

theorem count_update_of_iff (h : p (ws i) ↔ p v) : count p (update ws i v) = count p ws := by
  unfold count
  congr 1
  ext j
  by_cases hj : j = i
  · subst hj
    simpa using h.symm
  · simp [update_of_ne hj]

theorem filter_update_of_not_of (h₁ : ¬ p (ws i)) (h₂ : p v) :
    (Finset.univ.filter fun j => p (update ws i v j)) =
      insert i (Finset.univ.filter fun j => p (ws j)) := by
  ext j
  by_cases hj : j = i
  · subst hj
    simp [h₂]
  · simp [hj]

theorem count_update_of_not_of (h₁ : ¬ p (ws i)) (h₂ : p v) :
    count p (update ws i v) = count p ws + 1 := by
  unfold count
  rw [filter_update_of_not_of h₁ h₂, Finset.card_insert_of_notMem (by simp [h₁])]

theorem count_update_of_of_not (h₁ : p (ws i)) (h₂ : ¬ p v) :
    count p (update ws i v) + 1 = count p ws := by
  have h : count p (update (update ws i v) i (ws i)) = count p (update ws i v) + 1 :=
    count_update_of_not_of (by simpa using h₂) h₁
  rw [update_idem, update_eq_self] at h
  exact h.symm

end Pool

end Hypersdk.Foundations
