import Hypersdk.Foundations.Overlay

/-!
# Serial runs of bodies that commit layers, and when two of them commute

A *body* reads a layer of changes (the changes committed so far) and returns the layer it
commits, or an error. `serial` runs bodies one after another, each layer published over the
changes before it (`publish`). A body that depends only on the keys of `R` (`ReadsOnly`) and
sets only keys of `W` (`WritesOnly`) commutes with a body of an independent footprint: in
either order each computes the same layer, and the two orders end on the same changes
(`commute`). `serial_insert` carries this along a list: a body run after bodies independent
of it computes what it computes before them, and running it there or first ends the same.

This is the core of serializability for a scheduler that orders the bodies whose footprints
conflict: the rest may run in any order.
-/

namespace Hypersdk.Foundations

open Function

universe u v

variable {K V ι : Type*} {ε : Type u}

theorem bind_eq_ok {α β : Type v} {x : Except ε α} {f : α → Except ε β} {b : β}
    (h : x >>= f = .ok b) : ∃ a, x = .ok a ∧ f a = .ok b := by
  cases x with
  | error e => cases h
  | ok a => exact ⟨a, rfl, h⟩

/-! ## Footprints -/

/-- A body depends only on the keys of `R`. -/
def ReadsOnly (b : (K → Option (Option V)) → Except ε (K → Option (Option V))) (R : Set K) :
    Prop :=
  ∀ σ τ, (∀ k ∈ R, σ k = τ k) → b σ = b τ

/-- Every layer a body commits sets only keys of `W`. -/
def WritesOnly (b : (K → Option (Option V)) → Except ε (K → Option (Option V))) (W : Set K) :
    Prop :=
  ∀ σ δ, b σ = .ok δ → ∀ k, (δ k).isSome → k ∈ W

/-- Two footprints are independent: neither writes what the other reads or writes. -/
structure Independent (R W R' W' : Set K) : Prop where
  write_read : Disjoint W R'
  read_write : Disjoint R W'
  write_write : Disjoint W W'

theorem Independent.symm {R W R' W' : Set K} (h : Independent R W R' W') :
    Independent R' W' R W :=
  ⟨h.read_write.symm, h.write_read.symm, h.write_write.symm⟩

/-- A layer that sets only keys of `W` leaves every other key as it was. -/
theorem publish_of_not_mem {δ σ : K → Option (Option V)} {W : Set K}
    (hδ : ∀ k, (δ k).isSome → k ∈ W) {k : K} (hk : k ∉ W) : publish δ σ k = σ k := by
  have hnone : δ k = none := by
    cases h : δ k with
    | none => rfl
    | some x => exact absurd (hδ k (by simp [h])) hk
  simp [publish, hnone]

/-- Layers that set no key in common publish in either order. -/
theorem publish_comm {δ δ' σ : K → Option (Option V)}
    (h : ∀ k, (δ k).isSome → (δ' k).isSome → False) :
    publish δ (publish δ' σ) = publish δ' (publish δ σ) := by
  funext k
  cases hk : δ k with
  | none => simp [publish, hk]
  | some x =>
    cases hk' : δ' k with
    | none => simp [publish, hk, hk']
    | some y => exact (h k (by simp [hk]) (by simp [hk'])).elim

/-! ## Two bodies -/

section Commute

variable {b b' : (K → Option (Option V)) → Except ε (K → Option (Option V))}
  {R W R' W' : Set K}

/-- **Bodies of independent footprints commute.** If `b` commits `δ` and `b'` then commits
`δ'`, then `b'` commits `δ'` first, `b` then commits `δ`, and both orders end the same. -/
theorem commute (hb : ReadsOnly b R) (hbw : WritesOnly b W) (hb' : ReadsOnly b' R')
    (hb'w : WritesOnly b' W') (hi : Independent R W R' W') {σ δ δ' : K → Option (Option V)}
    (h₁ : b σ = .ok δ) (h₂ : b' (publish δ σ) = .ok δ') :
    b' σ = .ok δ' ∧ b (publish δ' σ) = .ok δ ∧
      publish δ' (publish δ σ) = publish δ (publish δ' σ) := by
  -- `δ` leaves what `b'` reads as it was
  have h₂' : b' σ = .ok δ' := by
    rw [← h₂]
    exact hb' σ (publish δ σ) fun k hk =>
      (publish_of_not_mem (hbw σ δ h₁) (Set.disjoint_right.mp hi.write_read hk)).symm
  refine ⟨h₂', ?_, ?_⟩
  · -- and `δ'` what `b` reads
    rw [← h₁]
    exact hb (publish δ' σ) σ fun k hk =>
      publish_of_not_mem (hb'w σ δ' h₂') (Set.disjoint_left.mp hi.read_write hk)
  · exact publish_comm fun k hk' hk =>
      Set.disjoint_left.mp hi.write_write (hbw σ δ h₁ k hk) (hb'w σ δ' h₂' k hk')

end Commute

/-! ## Serial runs -/

section Serial

variable (body : ι → (K → Option (Option V)) → Except ε (K → Option (Option V)))

/-- Run bodies one after another, each committing its layer over the changes before it. -/
def serial : List ι → (K → Option (Option V)) → Except ε (K → Option (Option V))
  | [], σ => .ok σ
  | i :: is, σ => body i σ >>= fun δ => serial is (publish δ σ)

@[simp] theorem serial_nil (σ : K → Option (Option V)) : serial body [] σ = .ok σ := rfl

theorem serial_cons (i : ι) (is : List ι) (σ : K → Option (Option V)) :
    serial body (i :: is) σ = body i σ >>= fun δ => serial body is (publish δ σ) := rfl

theorem serial_append (l₁ l₂ : List ι) (σ : K → Option (Option V)) :
    serial body (l₁ ++ l₂) σ = serial body l₁ σ >>= serial body l₂ := by
  induction l₁ generalizing σ with
  | nil => rfl
  | cons i is ih =>
    rw [List.cons_append, serial_cons, serial_cons]
    cases body i σ with
    | error e => rfl
    | ok δ => exact ih (publish δ σ)

variable {body} {R W : ι → Set K} (hR : ∀ i, ReadsOnly (body i) (R i))
  (hW : ∀ i, WritesOnly (body i) (W i))
include hR hW

/-- **A body commutes past bodies independent of it.** If bodies `B` run from `σ` to `τ` and
`j` then commits `δ`, then `j` commits `δ` from `σ` too, and `B` run after it end on `δ`
published over `τ`; by induction on `B`, one `commute` per body. -/
theorem serial_insert {j : ι} :
    ∀ (B : List ι), (∀ i ∈ B, Independent (R j) (W j) (R i) (W i)) →
      ∀ {σ τ δ : K → Option (Option V)}, serial body B σ = .ok τ → body j τ = .ok δ →
      body j σ = .ok δ ∧ serial body B (publish δ σ) = .ok (publish δ τ)
  | [], _, _, _, _, h, hj => by
    cases h
    exact ⟨hj, rfl⟩
  | i :: B, hB, σ, τ, δ, h, hj => by
    rw [serial_cons] at h
    obtain ⟨δi, hi, hrest⟩ := bind_eq_ok h
    obtain ⟨hj', hrest'⟩ :=
      serial_insert B (fun i' hi' => hB i' (List.mem_cons_of_mem _ hi')) hrest hj
    obtain ⟨hjσ, hiσ, hcomm⟩ :=
      commute (hR i) (hW i) (hR j) (hW j) (hB i List.mem_cons_self).symm hi hj'
    refine ⟨hjσ, ?_⟩
    rw [serial_cons, hiσ]
    show serial body B (publish δi (publish δ σ)) = _
    rw [← hcomm]
    exact hrest'

/-- Inserting a body into a serial run before the bodies `B` independent of it. -/
theorem serial_insert_append {A B : List ι} {j : ι}
    (hB : ∀ i ∈ B, Independent (R j) (W j) (R i) (W i)) {σ τ δ : K → Option (Option V)}
    (h : serial body (A ++ B) σ = .ok τ) (hj : body j τ = .ok δ) :
    serial body (A ++ j :: B) σ = .ok (publish δ τ) := by
  rw [serial_append] at h ⊢
  obtain ⟨α, hA, hB'⟩ := bind_eq_ok h
  obtain ⟨hjα, hrest⟩ := serial_insert hR hW B hB hB' hj
  rw [hA]
  show serial body (j :: B) α = _
  rw [serial_cons, hjα]
  exact hrest

end Serial

end Hypersdk.Foundations
