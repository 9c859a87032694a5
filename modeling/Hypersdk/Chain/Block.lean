import Hypersdk.Chain.Unmarshal

/-!
# Blocks on the wire

`StatefulBlock.Marshal` and `UnmarshalBlock` (`chain/block.go`), with `Transaction.Marshal`
and `marshalActions` (`chain/transaction.go`) and `Base.Marshal` (`chain/base.go`), over the
writes and reads of `codec.Packer`. A transaction read by `UnmarshalTx` keeps the bytes it was
read from, and `Marshal` writes those back.

A block that `UnmarshalBlock` accepts is the encoding of the block it returns: the parent, the
timestamp, the height, the count, each transaction's bytes and the state root, with nothing left
over (`unmarshalBlock_inv`). `Marshal` writes that encoding when it fits in `NetworkSizeLimit`,
the most the writer may grow to, and fails otherwise (`StatefulBlock.marshal_eq`); the reader
has no such limit, so a block read from longer bytes is not written back. A block whose fields
fit their Go types and whose transactions were each read by `UnmarshalTx` is read back from its
encoding (`unmarshalBlock_encoding`), as long as the decoders of the registries read only what
they consume (`TypeParser.Reads`): a transaction is then read the same wherever its bytes stand
(`unmarshalTx_inv`, `ParsedTx.ReadBy.reread`).
-/

namespace Hypersdk.Chain

open Codec BigEndian

variable {α β : Type}

/-- `StatefulBlock`, without the size and the auth counts it keeps beside its fields. -/
structure StatefulBlock (α β : Type) where
  prnt : Bytes
  tmstmp : ℤ
  hght : ℕ
  txs : List (ParsedTx α β)
  stateRoot : Bytes

/-- The fields of a block as Go's types hold them: an `ids.ID` parent and state root, an `int64`
timestamp and a `uint64` height. -/
structure StatefulBlock.Fits (b : StatefulBlock α β) : Prop where
  prnt : b.prnt.length = idLen
  stateRoot : b.stateRoot.length = idLen
  tmstmp_ge : -2 ^ 63 ≤ b.tmstmp
  tmstmp_lt : b.tmstmp < 2 ^ 63
  hght : b.hght < 2 ^ 64

/-- The bytes of a block whose transactions keep the bytes they were read from: the parent, the
timestamp as `uint64`, the height, the count, each transaction's bytes and the state root. -/
def StatefulBlock.encoding (b : StatefulBlock α β) : Bytes :=
  b.prnt ++ ofNat 8 (b.tmstmp % 2 ^ 64).toNat ++ ofNat 8 b.hght ++ ofNat 4 b.txs.length ++
    b.txs.flatMap ParsedTx.bytes ++ b.stateRoot

/-! ## Writing -/

section Marshal

variable (wr : Writers) (actionID : α → UInt8) (marshalAction : α → Packer → Packer)
  (authID : β → UInt8) (marshalAuth : β → Packer → Packer)

/-- `p.Err()`, returned as the error of a `Marshal`. -/
def marshalErr (p : Packer) : Except PackerError Packer :=
  match p.err with
  | some e => .error e
  | none => .ok p

/-- `Base.Marshal`. -/
def Base.marshal (b : Base) (p : Packer) : Packer :=
  packUint64 wr b.maxFee (packID wr b.chainID (packInt64 wr b.timestamp p))

/-- `marshalActions`, with the type byte and the encoder of each action and of the auth. -/
def ParsedTx.marshalActions (t : ParsedTx α β) (p : Packer) : Except PackerError Packer :=
  let p := t.base.marshal wr p
  let p := wr.packByte (UInt8.ofNat t.actions.length) p
  let p := t.actions.foldl
    (fun p action => marshalAction action (wr.packByte (actionID action) p)) p
  marshalErr (marshalAuth t.auth (wr.packByte (authID t.auth) p))

/-- `Transaction.Marshal`: the bytes the transaction was read from, where it has them. -/
def ParsedTx.marshal (t : ParsedTx α β) (p : Packer) : Except PackerError Packer :=
  if t.bytes.length > 0 then marshalErr (wr.packFixedBytes t.bytes p)
  else t.marshalActions wr actionID marshalAction authID marshalAuth p

/-- `StatefulBlock.Marshal`. -/
def StatefulBlock.marshal (b : StatefulBlock α β) : Except PackerError Bytes := do
  let p := newWriter Consts.networkSizeLimit
  let p := packID wr b.prnt p
  let p := packInt64 wr b.tmstmp p
  let p := packUint64 wr b.hght p
  let p := packInt wr b.txs.length p
  let p ← b.txs.foldlM (fun p tx => tx.marshal wr actionID marshalAction authID marshalAuth p) p
  let p := packID wr b.stateRoot p
  match p.err with
  | some e => throw e
  | none => pure p.bytes

end Marshal

section Marshalled

variable {wr : Writers} {actionID : α → UInt8} {marshalAction : α → Packer → Packer}
  {authID : β → UInt8} {marshalAuth : β → Packer → Packer}

/-- The writes `Marshal` makes of a block whose transactions keep their bytes. -/
def StatefulBlock.write (wr : Writers) (b : StatefulBlock α β) (p : Packer) : Packer :=
  packID wr b.stateRoot (b.txs.foldl (fun p tx => wr.packFixedBytes tx.bytes p)
    (packInt wr b.txs.length (packUint64 wr b.hght (packInt64 wr b.tmstmp (packID wr b.prnt p)))))

theorem appends_write (hwr : wr.Spec) (b : StatefulBlock α β) : Appends (b.write wr) b.encoding :=
  ((((((appends_packFixedBytes hwr b.prnt).comp (appends_packInt64 hwr b.tmstmp)).comp
    (appends_packUint64 hwr b.hght)).comp (appends_packInt hwr b.txs.length)).comp
      (Appends.foldl b.txs fun tx _ => appends_packFixedBytes hwr tx.bytes)).comp
        (appends_packFixedBytes hwr b.stateRoot))

theorem foldl_packFixedBytes_of_isSome (hwr : wr.Spec) :
    ∀ (txs : List (ParsedTx α β)) {p : Packer}, p.err.isSome = true →
      txs.foldl (fun p tx => wr.packFixedBytes tx.bytes p) p = p
  | [], _, _ => rfl
  | tx :: txs, p, h => by
    rw [List.foldl_cons, hwr.packFixedBytes_of_isSome _ p h]
    exact foldl_packFixedBytes_of_isSome hwr txs h

/-- The loop of `Marshal` over transactions that keep their bytes, and what follows it: their
writes, one after the other, then the rest, which returns an error a packer has. -/
theorem foldlM_marshal_bind (hwr : wr.Spec) {γ : Type} {k : Packer → Except PackerError γ}
    (hk : ∀ p e, p.err = some e → k p = .error e) :
    ∀ (txs : List (ParsedTx α β)) (p : Packer), (∀ tx ∈ txs, 0 < tx.bytes.length) →
      (txs.foldlM (fun p tx => tx.marshal wr actionID marshalAction authID marshalAuth p) p >>= k) =
        k (txs.foldl (fun p tx => wr.packFixedBytes tx.bytes p) p)
  | [], p, _ => rfl
  | tx :: txs, p, hb => by
    have hm : tx.marshal wr actionID marshalAction authID marshalAuth p =
        marshalErr (wr.packFixedBytes tx.bytes p) := by
      simp [ParsedTx.marshal, hb tx List.mem_cons_self]
    rw [List.foldlM_cons, hm, List.foldl_cons, bind_assoc]
    cases he : (wr.packFixedBytes tx.bytes p).err with
    | none =>
      simp only [marshalErr, he]
      exact foldlM_marshal_bind hwr hk txs _ fun t ht => hb t (List.mem_cons_of_mem tx ht)
    | some e =>
      -- the error is kept through the writes that follow
      rw [foldl_packFixedBytes_of_isSome hwr txs (by simp [he]), hk _ e he]
      simp only [marshalErr, he]
      rfl

/-- `Marshal` of a block whose transactions keep their bytes is its writes and their first
error. -/
theorem StatefulBlock.marshal_eq_write (hwr : wr.Spec) {b : StatefulBlock α β}
    (hb : ∀ tx ∈ b.txs, 0 < tx.bytes.length) :
    b.marshal wr actionID marshalAction authID marshalAuth =
      match (b.write wr (newWriter Consts.networkSizeLimit)).err with
      | some e => .error e
      | none => .ok (b.write wr (newWriter Consts.networkSizeLimit)).bytes := by
  unfold StatefulBlock.marshal
  rw [foldlM_marshal_bind hwr (fun p e he => ?_) _ _ hb]
  · rfl
  · simp [packID, hwr.packFixedBytes_of_isSome _ p (by simp [he]), he]
    rfl

/-- `Marshal` writes a block whose transactions keep their bytes as its encoding, when it fits
in `NetworkSizeLimit`, and fails otherwise. -/
theorem StatefulBlock.marshal_eq (hwr : wr.Spec) {b : StatefulBlock α β}
    (hb : ∀ tx ∈ b.txs, 0 < tx.bytes.length) :
    b.marshal wr actionID marshalAction authID marshalAuth =
      if b.encoding.length ≤ Consts.networkSizeLimit then .ok b.encoding else .error .wrappers := by
  have hw : (newWriter Consts.networkSizeLimit).Writing := ⟨rfl, rfl⟩
  rw [StatefulBlock.marshal_eq_write hwr hb]
  split_ifs with hle
  · rw [(appends_write hwr b).writes _ hw (by simpa [newWriter] using hle)]
    simp [newWriter]
  · rw [(appends_write hwr b).overflow _ hw (by simp [newWriter]) (by simp [newWriter]; omega)]

end Marshalled

/-! ## Reading -/

variable (w : Wrappers)

/-- `UnmarshalBlock`, with the registries `parser.Registry()` returns. -/
def unmarshalBlock (raw : Bytes) (actionRegistry : TypeParser UnmarshalError α)
    (authRegistry : TypeParser UnmarshalError β) (actor sponsor : β → Address) :
    Parse (StatefulBlock α β) := do
  let p := newReader raw Consts.networkSizeLimit
  let (prnt, p) := unpackID w false (List.replicate idLen 0) p
  let (tmstmp, p) := unpackInt64 w false p
  let (hght, p) := unpackUint64 w false p
  let (txCount, p) := unpackInt w false p
  let (txs, p) ← unmarshalTxsLoop w actionRegistry authRegistry actor sponsor txCount [] p
  let (stateRoot, p) := unpackID w false (List.replicate idLen 0) p
  if !p.empty then throw .invalidObject
  let (b, _) ← checkErr ⟨prnt, tmstmp, hght, txs, stateRoot⟩ p
  pure b

/-! ## What a read returns -/

section Inversion

variable {w}

theorem Parse.bind_eq_pure {γ δ : Type} {x : Parse γ} {f : γ → Parse δ} {y : δ}
    (h : x >>= f = pure y) : ∃ a, x = pure a ∧ f a = pure y := by
  have h' := congrArg ExceptT.run h
  rw [ExceptT.run_bind] at h'
  rcases hx : x.run with _ | (e | a)
  · simp [hx] at h'
  · simp [hx] at h'
  · refine ⟨a, ExceptT.ext (by simp [hx]), ?_⟩
    rw [hx] at h'
    exact ExceptT.ext (by simpa using h')

theorem Parse.pure_inj {γ : Type} {a b : γ} (h : (pure a : Parse γ) = pure b) : a = b := by
  have h' := congrArg ExceptT.run h
  simpa using h'

theorem throw_ne_pure {γ : Type} (e : UnmarshalError) (y : γ) :
    (throw e : Parse γ) ≠ pure y := by
  intro h
  have h' := congrArg ExceptT.run h
  simp at h'

theorem throw_bind_ne_pure {γ δ : Type} (e : UnmarshalError) (f : γ → Parse δ) (y : δ) :
    (throw e >>= f : Parse δ) ≠ pure y := by
  intro h
  have h' := congrArg ExceptT.run h
  simp at h'

theorem checkErr_of_err_eq_none {γ : Type} (a : γ) {p : Packer} (h : p.err = none) :
    checkErr a p = pure (a, p) := by
  simp [checkErr, h]

theorem checkErr_inv {γ : Type} {a b : γ} {p p' : Packer} (h : checkErr a p = pure (b, p')) :
    p.err = none ∧ b = a ∧ p' = p := by
  unfold checkErr at h
  split at h
  · exact absurd h (throw_ne_pure _ _)
  · next he =>
    obtain ⟨rfl, rfl⟩ := Prod.mk.inj (ExceptT.ext_iff.mp h |> fun h => by simpa using h)
    exact ⟨he, rfl, rfl⟩

/-- `UnmarshalBase` that returns read its 48 bytes, and reads them the same from a packer that
reads as its own over them. -/
theorem unmarshalBase_inv (hw : w.Spec) {p p' : Packer} {base : Base}
    (h : unmarshalBase w p = pure (base, p')) :
    p.err = none ∧ 8 + idLen + 8 ≤ p.rest.length ∧
      p' = { p with offset := p.offset + 8 + idLen + 8 } ∧
      ∀ q e, p.offset + 8 + idLen + 8 ≤ e → q.ReadsAs p e →
        unmarshalBase w q = pure (base, { q with offset := q.offset + 8 + idLen + 8 }) := by
  unfold unmarshalBase at h
  split at h
  rename_i t p₁ ht
  split_ifs at h with hmod
  · exact absurd h (throw_bind_ne_pure _ _ _)
  split at h
  rename_i c p₂ hc
  split at h
  rename_i f p₃ hf
  obtain ⟨he₃, rfl, rfl⟩ := checkErr_inv h
  -- each read left no error, so each read its bytes
  rw [unpackUint64_eq_decodeRead hw] at hf
  obtain ⟨he₂, hn₂, -, -, rfl⟩ := decodeRead_inv hw hf he₃
  rw [unpackID_eq_decodeRead] at hc
  obtain ⟨he₁, hn₁, -, -, rfl⟩ := decodeRead_inv hw hc he₂
  rw [unpackInt64_eq_decodeRead hw] at ht
  obtain ⟨he, hn, -, -, rfl⟩ := decodeRead_inv hw ht he₁
  have hlen : 8 + idLen + 8 ≤ p.rest.length := by
    simp only [Packer.rest, List.length_drop] at hn hn₁ hn₂ ⊢
    omega
  refine ⟨he, hlen, rfl, fun q e he' hq => ?_⟩
  -- the same three reads from `q`
  obtain ⟨hq₁, hr₁⟩ := decodeRead_readsAs hw (by rw [ht]; exact he₁) (by omega) hq
  obtain ⟨hq₂, hr₂⟩ := decodeRead_readsAs hw (by rw [hc]; exact he₂) (by simp; omega) hr₁
  obtain ⟨hq₃, hr₃⟩ := decodeRead_readsAs hw (by rw [hf]; exact he₃) (by simp; omega) hr₂
  rw [ht] at hq₁
  rw [hc] at hq₂
  rw [hf] at hq₃
  simp only [unmarshalBase, unpackInt64_eq_decodeRead hw, unpackID_eq_decodeRead,
    unpackUint64_eq_decodeRead hw, hq₁, hq₂, hq₃, hmod, if_false]
  exact checkErr_of_err_eq_none _ hr₃.err_q

variable {ar : TypeParser UnmarshalError α} {au : TypeParser UnmarshalError β}
  {actor sponsor : β → Address}

theorem unmarshalActionsLoop_readAt (hw : w.Spec) (har : ar.Reads) :
    ∀ (k : ℕ) (acc : List α) {p p' : Packer} {acts : List α},
      unmarshalActionsLoop w ar k acc p = pure (acts, p') → p'.err = none →
        Decoder.ReadAt (unmarshalActionsLoop w ar k acc) p acts p'
  | 0, acc, p, p', acts, h, he => by
    simp only [unmarshalActionsLoop] at h
    obtain ⟨rfl, rfl⟩ := Prod.mk.inj (ExceptT.ext_iff.mp h |> fun h => by simpa using h)
    exact ⟨rfl, Packer.Advances.refl p, he, fun q e _ _ => by simp [unmarshalActionsLoop]⟩
  | k + 1, acc, p, p', acts, h, he => by
    have hrun := h
    obtain ⟨t, p₁, hb⟩ : ∃ t p₁, w.unpackByte p = (t, p₁) := ⟨_, _, rfl⟩
    rw [unmarshalActionsLoop, hb] at h
    dsimp only at h
    cases hl : ar.lookupIndex t with
    | none =>
      rw [hl] at h
      exact absurd h (throw_ne_pure _ _)
    | some d =>
      rw [hl] at h
      obtain ⟨⟨a, p₂⟩, hd, hk⟩ := Parse.bind_eq_pure h
      dsimp only at hk
      -- the rest of the loop, the action, then the type byte before it
      have ih := unmarshalActionsLoop_readAt hw har k (acc ++ [a]) hk he
      have hd' := har.readAt hl hd ih.err_eq_none
      rw [unpackByte_eq_decodeRead hw] at hb
      obtain ⟨hadv, ho₁, hb'⟩ := decodeRead_relocate hw hb hd'.err_eq_none
      have ho₂ := hd'.advances.offset
      have ho₃ := ih.advances.offset
      refine ⟨hrun, hadv.trans (hd'.advances.trans ih.advances), he, fun q e hle hq => ?_⟩
      obtain ⟨hq₁, hr₁⟩ := hb' q e (by omega) hq
      rw [← unpackByte_eq_decodeRead hw] at hq₁
      have hq₂ := hd'.relocates _ e (by omega) hr₁
      have hq₃ := ih.relocates _ e hle (hd'.readsAs hr₁ (by omega))
      have hoff : q.offset + 1 + (p₂.offset - p₁.offset) + (p'.offset - p₂.offset) =
          q.offset + (p'.offset - p.offset) := by omega
      rw [unmarshalActionsLoop, hq₁]
      dsimp only
      rw [hl]
      simp [hq₂, hq₃, hoff]

theorem unmarshalActions_readAt (hw : w.Spec) (har : ar.Reads) {p p' : Packer} {acts : List α}
    (h : unmarshalActions w ar p = pure (acts, p')) (he : p'.err = none) :
    Decoder.ReadAt (unmarshalActions w ar) p acts p' := by
  have hrun := h
  obtain ⟨c, p₁, hb⟩ : ∃ c p₁, w.unpackByte p = (c, p₁) := ⟨_, _, rfl⟩
  rw [unmarshalActions, hb] at h
  dsimp only at h
  split_ifs at h with hc
  · exact absurd h (throw_bind_ne_pure _ _ _)
  have hl := unmarshalActionsLoop_readAt hw har c.toNat [] (by simpa using h) he
  rw [unpackByte_eq_decodeRead hw] at hb
  obtain ⟨hadv, ho₁, hb'⟩ := decodeRead_relocate hw hb hl.err_eq_none
  have ho₂ := hl.advances.offset
  refine ⟨hrun, hadv.trans hl.advances, he, fun q e hle hq => ?_⟩
  obtain ⟨hq₁, hr₁⟩ := hb' q e (by omega) hq
  rw [← unpackByte_eq_decodeRead hw] at hq₁
  have hq₂ := hl.relocates _ e hle hr₁
  have hoff : q.offset + 1 + (p'.offset - p₁.offset) = q.offset + (p'.offset - p.offset) := by
    omega
  rw [unmarshalActions, hq₁]
  simp [hc, hq₂, hoff]

theorem unmarshalBase_readAt (hw : w.Spec) {p p' : Packer} {base : Base}
    (h : unmarshalBase w p = pure (base, p')) : Decoder.ReadAt (unmarshalBase w) p base p' := by
  obtain ⟨he, hlen, rfl, hq⟩ := unmarshalBase_inv hw h
  refine ⟨h, Packer.advances_add (by simpa only [Nat.add_assoc] using hlen), he, fun q e hle hr => ?_⟩
  have hoff : q.offset + (p.offset + 8 + idLen + 8 - p.offset) = q.offset + 8 + idLen + 8 := by
    omega
  rw [hoff]
  exact hq q e hle hr

theorem unmarshalTx_inv (hw : w.Spec) (har : ar.Reads) (hau : au.Reads) {p p' : Packer}
    {tx : ParsedTx α β} (h : unmarshalTx w ar au actor sponsor p = pure (tx, p')) :
    Decoder.ReadAt (unmarshalTx w ar au actor sponsor) p tx p' ∧ p.offset < p'.offset ∧
      p'.offset ≤ p.bytes.length ∧ tx.bytes = (p.bytes.take p'.offset).drop p.offset := by
  have hrun := h
  unfold unmarshalTx at h
  -- kept as a function, so that the reads below stay of this name
  generalize hub : w.unpackByte = ub at h
  obtain ⟨⟨base, p₁⟩, hb, h⟩ := Parse.bind_eq_pure h
  dsimp only at h
  obtain ⟨⟨acts, p₂⟩, ha, h⟩ := Parse.bind_eq_pure h
  dsimp only at h
  obtain ⟨t, p₃, ht⟩ : ∃ t p₃, ub p₂ = (t, p₃) := ⟨_, _, rfl⟩
  rw [ht] at h
  dsimp only at h
  cases hl : au.lookupIndex t with
  | none =>
    rw [hl] at h
    exact absurd h (throw_ne_pure _ _)
  | some f =>
    rw [hl] at h
    obtain ⟨⟨auth, p₄⟩, hf, h⟩ := Parse.bind_eq_pure h
    dsimp only at h
    -- the auth answers for the type byte it was read by
    by_cases h₁ : (actor auth).headD 0 ≠ t
    · rw [if_pos h₁] at h
      exact absurd h (throw_bind_ne_pure _ _ _)
    rw [if_neg h₁] at h
    by_cases h₂ : (sponsor auth).headD 0 ≠ t
    · rw [if_pos h₂] at h
      exact absurd h (throw_bind_ne_pure _ _ _)
    rw [if_neg h₂] at h
    obtain ⟨he₄, rfl, rfl⟩ := checkErr_inv h
    -- each read, from the last back to the first
    have hf' := hau.readAt hl hf he₄
    rw [← hub, unpackByte_eq_decodeRead hw] at ht
    obtain ⟨hadv₃, ho₃, ht'⟩ := decodeRead_relocate hw ht hf'.err_eq_none
    have ha' := unmarshalActions_readAt hw har ha (hadv₃.err hf'.err_eq_none)
    have hb' := unmarshalBase_readAt hw hb
    obtain ⟨-, hlen, hp₁, -⟩ := unmarshalBase_inv hw hb
    have ho₁ : p₁.offset = p.offset + 8 + idLen + 8 := by rw [hp₁]
    have ho₂ := ha'.advances.offset
    have ho₄ := hf'.advances.offset
    have hadv := hb'.advances.trans (ha'.advances.trans (hadv₃.trans hf'.advances))
    have hwithin : p'.offset ≤ p.bytes.length := by
      rw [← hadv.bytes]
      refine hadv.within ?_
      simp only [Packer.rest, List.length_drop] at hlen
      omega
    refine ⟨⟨hrun, hadv, he₄, fun q e hle hq => ?_⟩, by simp only [idLen] at ho₁; omega, hwithin,
      by simp only [sliceBytes, hadv.bytes]⟩
    -- the same reads from `q`, one after another
    obtain ⟨q₁, hq₁, hr₁, hq₁e⟩ := hb'.relocate (by omega) hq
    obtain ⟨q₂, hq₂, hr₂, hq₂e⟩ := ha'.relocate (by omega) hr₁
    obtain ⟨hq₃, hr₃⟩ := ht' q₂ e (by omega) hr₂
    rw [← unpackByte_eq_decodeRead hw, hub] at hq₃
    obtain ⟨q₄, hq₄, -, hq₄e⟩ := hf'.relocate hle hr₃
    unfold unmarshalTx
    rw [hub, hq₁, pure_bind]
    dsimp only
    rw [hq₂, pure_bind]
    dsimp only
    rw [hq₃]
    dsimp only
    rw [hl]
    dsimp only
    rw [hq₄, pure_bind]
    dsimp only
    rw [if_neg h₁, if_neg h₂]
    -- the bytes `q` read are those `p` read
    subst hq₁e hq₂e hq₄e
    have ho₂' : q.offset + (p₁.offset - p.offset) + (p₂.offset - p₁.offset) =
        q.offset + (p₂.offset - p.offset) := by omega
    have ho₄' : q.offset + (p₂.offset - p.offset) + 1 + (p'.offset - p₃.offset) =
        q.offset + (p'.offset - p.offset) := by omega
    simp only [sliceBytes, ho₂', ho₄', hq.slice_eq (by omega : p.offset ≤ p₂.offset) (by omega),
      hq.slice_eq (by omega : p.offset ≤ p'.offset) hle, hadv.bytes]
    exact checkErr_of_err_eq_none _ hq.err_q

end Inversion

/-! ## Transactions as `UnmarshalTx` reads them -/

section Transactions

variable {w} {ar : TypeParser UnmarshalError α} {au : TypeParser UnmarshalError β}
  {actor sponsor : β → Address}

variable (w ar au actor sponsor) in
/-- `tx` is a transaction `UnmarshalTx` returned, from some packer. -/
def ParsedTx.ReadBy (tx : ParsedTx α β) : Prop :=
  ∃ p p', unmarshalTx w ar au actor sponsor p = pure (tx, p')

section

variable (hw : w.Spec) (har : ar.Reads) (hau : au.Reads)
include hw har hau

/-- A transaction read by `UnmarshalTx` has the bytes of its base at least. -/
theorem ParsedTx.ReadBy.length_pos {tx : ParsedTx α β} (h : tx.ReadBy w ar au actor sponsor) :
    0 < tx.bytes.length := by
  obtain ⟨p, p', hp⟩ := h
  obtain ⟨-, hlt, hle, hbytes⟩ := unmarshalTx_inv hw har hau hp
  rw [hbytes, List.length_drop, List.length_take]
  omega

/-- A transaction read by `UnmarshalTx` is read again from its bytes, wherever they stand. -/
theorem ParsedTx.ReadBy.reread {tx : ParsedTx α β} (h : tx.ReadBy w ar au actor sponsor)
    {q : Packer} {tail : Bytes} (hq : q.err = none) (hr : q.rest = tx.bytes ++ tail) :
    unmarshalTx w ar au actor sponsor q =
      pure (tx, { q with offset := q.offset + tx.bytes.length }) := by
  obtain ⟨p, p', hp⟩ := h
  obtain ⟨hread, hlt, hle, hbytes⟩ := unmarshalTx_inv hw har hau hp
  have hlen : tx.bytes.length = p'.offset - p.offset := by
    rw [hbytes, List.length_drop, List.length_take]
    omega
  rw [hlen]
  exact hread.relocates q p'.offset le_rfl
    ⟨hread.err_eq_none, hq, hlt.le, hle, tail, by rw [hr, hbytes]⟩

/-- The loop of `UnmarshalBlock` over transactions read by `UnmarshalTx`, from their bytes one
after the other. -/
theorem unmarshalTxsLoop_flatMap :
    ∀ (txs acc : List (ParsedTx α β)) {q : Packer} {tail : Bytes},
      (∀ tx ∈ txs, tx.ReadBy w ar au actor sponsor) → q.err = none →
      q.rest = txs.flatMap ParsedTx.bytes ++ tail →
      unmarshalTxsLoop w ar au actor sponsor txs.length acc q =
        pure (acc ++ txs, { q with offset := q.offset + (txs.flatMap ParsedTx.bytes).length })
  | [], acc, q, _, _, _, _ => by simp [unmarshalTxsLoop]
  | tx :: txs, acc, q, tail, hread, hq, hr => by
    have hr' : q.rest = tx.bytes ++ (txs.flatMap ParsedTx.bytes ++ tail) := by
      rw [hr, List.flatMap_cons, List.append_assoc]
    have htx := (hread tx List.mem_cons_self).reread hw har hau hq hr'
    have hrest := unmarshalTxsLoop_flatMap txs (acc ++ [tx])
      (q := { q with offset := q.offset + tx.bytes.length })
      (fun t ht => hread t (List.mem_cons_of_mem tx ht)) hq (Packer.rest_advance_of_length hr' rfl)
    rw [List.length_cons, unmarshalTxsLoop, htx, pure_bind]
    simp only [hrest, List.append_assoc, List.singleton_append, List.flatMap_cons,
      List.length_append, Nat.add_assoc]

/-- What the loop of `UnmarshalBlock` read: as many transactions as it was asked for, each read
by `UnmarshalTx`, whose bytes are those it moved over. -/
theorem unmarshalTxsLoop_inv :
    ∀ (k : ℕ) (acc : List (ParsedTx α β)) {p p' : Packer} {txs : List (ParsedTx α β)},
      unmarshalTxsLoop w ar au actor sponsor k acc p = pure (txs, p') →
      ∃ new, txs = acc ++ new ∧ new.length = k ∧ (∀ tx ∈ new, tx.ReadBy w ar au actor sponsor) ∧
        p.Advances p' ∧ p.rest = new.flatMap ParsedTx.bytes ++ p'.rest
  | 0, acc, p, p', txs, h => by
    simp only [unmarshalTxsLoop] at h
    obtain ⟨rfl, rfl⟩ := Prod.mk.inj (ExceptT.ext_iff.mp h |> fun h => by simpa using h)
    exact ⟨[], by simp, rfl, by simp, Packer.Advances.refl p, by simp⟩
  | k + 1, acc, p, p', txs, h => by
    rw [unmarshalTxsLoop] at h
    obtain ⟨⟨tx, p₁⟩, htx, h⟩ := Parse.bind_eq_pure h
    obtain ⟨new, rfl, hlen, hread, hadv, hrest⟩ := unmarshalTxsLoop_inv k (acc ++ [tx]) h
    obtain ⟨hr, -, -, hbytes⟩ := unmarshalTx_inv hw har hau htx
    refine ⟨tx :: new, by simp, by simp [hlen], ?_, hr.advances.trans hadv, ?_⟩
    · intro t ht
      rcases List.mem_cons.mp ht with rfl | ht
      · exact ⟨p, p₁, htx⟩
      · exact hread t ht
    · rw [hr.advances.rest_eq, ← hbytes, hrest, List.flatMap_cons, List.append_assoc]

/-- A block that fits, of fewer than `2 ^ 32` transactions each read by `UnmarshalTx`, is read
back from its encoding. -/
theorem unmarshalBlock_encoding {b : StatefulBlock α β} (hb : b.Fits)
    (hread : ∀ tx ∈ b.txs, tx.ReadBy w ar au actor sponsor) (hcount : b.txs.length < 2 ^ 32) :
    unmarshalBlock w b.encoding ar au actor sponsor = pure b := by
  have hr₀ : (newReader b.encoding Consts.networkSizeLimit).rest =
      b.prnt ++ (ofNat 8 (b.tmstmp % 2 ^ 64).toNat ++ (ofNat 8 b.hght ++ (ofNat 4 b.txs.length ++
        (b.txs.flatMap ParsedTx.bytes ++ (b.stateRoot ++ []))))) := by
    simp [newReader, Packer.rest, StatefulBlock.encoding]
  -- the reads, each from the packer the one before it left
  have h₁ := unpackID_append_of_not_required hw rfl hb.prnt hr₀
  have hr₁ := Packer.rest_advance_of_length hr₀ hb.prnt
  generalize hp₁ : ({ newReader b.encoding Consts.networkSizeLimit with
    offset := (newReader b.encoding Consts.networkSizeLimit).offset + idLen } : Packer) = p₁ at h₁ hr₁
  have he₁ : p₁.err = none := by rw [← hp₁]; rfl
  have h₂ := unpackInt64_append_of_not_required hw he₁ hb.tmstmp_ge hb.tmstmp_lt hr₁
  have hr₂ := Packer.rest_advance_of_length hr₁ (length_ofNat 8 _)
  generalize hp₂ : ({ p₁ with offset := p₁.offset + 8 } : Packer) = p₂ at h₂ hr₂
  have he₂ : p₂.err = none := by rw [← hp₂]; exact he₁
  have h₃ := unpackUint64_append_of_not_required hw he₂ hb.hght hr₂
  have hr₃ := Packer.rest_advance_of_length hr₂ (length_ofNat 8 _)
  generalize hp₃ : ({ p₂ with offset := p₂.offset + 8 } : Packer) = p₃ at h₃ hr₃
  have he₃ : p₃.err = none := by rw [← hp₃]; exact he₂
  have h₄ := unpackInt_append_of_not_required hw he₃ (by omega : b.txs.length < 256 ^ 4) hr₃
  have hr₄ := Packer.rest_advance_of_length hr₃ (length_ofNat 4 _)
  generalize hp₄ : ({ p₃ with offset := p₃.offset + 4 } : Packer) = p₄ at h₄ hr₄
  have he₄ : p₄.err = none := by rw [← hp₄]; exact he₃
  have h₅ := unmarshalTxsLoop_flatMap hw har hau b.txs [] hread he₄ hr₄
  have hr₅ := Packer.rest_advance_of_length hr₄ rfl
  generalize hp₅ : ({ p₄ with offset := p₄.offset + (b.txs.flatMap ParsedTx.bytes).length } :
    Packer) = p₅ at h₅ hr₅
  have he₅ : p₅.err = none := by rw [← hp₅]; exact he₄
  have h₆ := unpackID_append_of_not_required hw he₅ hb.stateRoot hr₅
  -- nothing is left after the state root
  have hempty : ({ p₅ with offset := p₅.offset + idLen } : Packer).empty = true := by
    have hlen := congrArg List.length hr₅
    simp only [Packer.rest, List.length_drop, List.append_nil, hb.stateRoot, idLen] at hlen
    simp only [Packer.empty, idLen, beq_iff_eq]
    omega
  unfold unmarshalBlock
  dsimp only
  rw [h₁]
  dsimp only
  rw [h₂]
  dsimp only
  rw [h₃]
  dsimp only
  rw [h₄]
  dsimp only
  rw [h₅, pure_bind]
  dsimp only
  rw [h₆]
  dsimp only
  simp [hempty, checkErr_of_err_eq_none _ (show ({ p₅ with offset := p₅.offset + idLen } : Packer).err = none from he₅)]

/-- What `UnmarshalBlock` accepts is the encoding of the block it returns, a block that fits,
of fewer than `2 ^ 32` transactions each read by `UnmarshalTx`. -/
theorem unmarshalBlock_inv {raw : Bytes} {b : StatefulBlock α β}
    (h : unmarshalBlock w raw ar au actor sponsor = pure b) :
    raw = b.encoding ∧ b.Fits ∧ (∀ tx ∈ b.txs, tx.ReadBy w ar au actor sponsor) ∧
      b.txs.length < 2 ^ 32 := by
  unfold unmarshalBlock at h
  dsimp only at h
  obtain ⟨prnt, p₁, h₁⟩ : ∃ x p₁, unpackID w false (List.replicate idLen 0)
      (newReader raw Consts.networkSizeLimit) = (x, p₁) := ⟨_, _, rfl⟩
  rw [h₁] at h
  dsimp only at h
  obtain ⟨tmstmp, p₂, h₂⟩ : ∃ x p₂, unpackInt64 w false p₁ = (x, p₂) := ⟨_, _, rfl⟩
  rw [h₂] at h
  dsimp only at h
  obtain ⟨hght, p₃, h₃⟩ : ∃ x p₃, unpackUint64 w false p₂ = (x, p₃) := ⟨_, _, rfl⟩
  rw [h₃] at h
  dsimp only at h
  obtain ⟨txCount, p₄, h₄⟩ : ∃ x p₄, unpackInt w false p₃ = (x, p₄) := ⟨_, _, rfl⟩
  rw [h₄] at h
  dsimp only at h
  obtain ⟨⟨txs, p₅⟩, h₅, h⟩ := Parse.bind_eq_pure h
  dsimp only at h
  obtain ⟨stateRoot, p₆, h₆⟩ : ∃ x p₆, unpackID w false (List.replicate idLen 0) p₅ = (x, p₆) :=
    ⟨_, _, rfl⟩
  rw [h₆] at h
  dsimp only at h
  split_ifs at h with hne
  · exact absurd h (throw_bind_ne_pure _ _ _)
  obtain ⟨⟨b', p₇⟩, hc, h⟩ := Parse.bind_eq_pure h
  obtain ⟨he₆, rfl, -⟩ := checkErr_inv hc
  have hb := Parse.pure_inj h
  dsimp only at hb
  subst hb
  -- each read left no error, so each read its bytes, from the last back to the first
  rw [unpackID_eq_decodeRead] at h₆
  obtain ⟨he₅, sr, hsr, rfl, -, hr₅⟩ := decodeRead_split hw h₆ he₆
  obtain ⟨new, rfl, hlen, hread, hadv, hr₄⟩ := unmarshalTxsLoop_inv hw har hau txCount [] h₅
  rw [unpackInt_eq_decodeRead hw] at h₄
  obtain ⟨he₃, bc, hbc, rfl, -, hr₃⟩ := decodeRead_split hw h₄ (hadv.err he₅)
  rw [unpackUint64_eq_decodeRead hw] at h₃
  obtain ⟨he₂, bh, hbh, rfl, -, hr₂⟩ := decodeRead_split hw h₃ he₃
  rw [unpackInt64_eq_decodeRead hw] at h₂
  obtain ⟨he₁, bt, hbt, rfl, -, hr₁⟩ := decodeRead_split hw h₂ he₂
  rw [unpackID_eq_decodeRead] at h₁
  obtain ⟨-, bp, hbp, rfl, -, hr₀⟩ := decodeRead_split hw h₁ he₁
  have hr₆ : p₆.rest = [] := by
    simp only [Bool.not_eq_true', Bool.not_eq_false, Packer.empty, beq_iff_eq] at hne
    simp [Packer.rest, hne]
  -- the fields are the bytes read
  have ep : goCopy (List.replicate idLen 0) bp = bp := goCopy_of_length_eq (by simp [hbp])
  have es : goCopy (List.replicate idLen 0) sr = sr := goCopy_of_length_eq (by simp [hsr])
  have ht : toNat bt < 2 ^ 64 := lt_of_lt_of_eq (toNat_lt bt) (by rw [hbt]; rfl)
  have hh : toNat bh < 2 ^ 64 := lt_of_lt_of_eq (toNat_lt bh) (by rw [hbh]; rfl)
  have hcnt : toNat bc < 2 ^ 32 := lt_of_lt_of_eq (toNat_lt bc) (by rw [hbc]; rfl)
  have et : ofNat 8 (toInt64 (toNat bt) % 2 ^ 64).toNat = bt := by
    rw [toNat_emod_toInt64 ht, ← hbt, ofNat_toNat]
  have eh : ofNat 8 (toNat bh) = bh := by rw [← hbh, ofNat_toNat]
  have ec : ofNat 4 txs.length = bc := by rw [hlen, ← hbc, ofNat_toNat]
  have hraw : raw = (newReader raw Consts.networkSizeLimit).rest := by simp [newReader, Packer.rest]
  refine ⟨?_, ⟨by simp [ep, hbp], by simp [es, hsr], (toInt64_bounds ht).1, (toInt64_bounds ht).2,
    hh⟩, hread, by simpa [hlen] using hcnt⟩
  rw [hraw, hr₀, hr₁, hr₂, hr₃, hr₄, hr₅, hr₆]
  simp only [StatefulBlock.encoding, ep, es, et, eh, ec, List.append_nil, List.append_assoc]

end

end Transactions

/-! ## A registry of fixed-size actions -/

section Blobs

variable {w}

variable (w) in
/-- A decoder of `n` bytes taken as they are, as an action of fixed-size fields reads. -/
def blobDecoder (n : ℕ) : Decoder UnmarshalError Bytes := fun p =>
  checkErr (w.unpackFixedBytes n p).1 (w.unpackFixedBytes n p).2

variable (w) in
/-- A registry of one type, `0`, read by `blobDecoder n`. -/
def blobRegistry (n : ℕ) : TypeParser UnmarshalError Bytes := ⟨[(0, blobDecoder w n)]⟩

theorem blobDecoder_reads (hw : w.Spec) (n : ℕ) : (blobDecoder w n).Reads := by
  intro p x p' h
  have h' : checkErr (w.unpackFixedBytes n p).1 (w.unpackFixedBytes n p).2 = pure (x, p') := h
  obtain ⟨-, -, rfl⟩ := checkErr_inv h'
  exact advances_unpackFixedBytes hw n p

theorem blobDecoder_local (hw : w.Spec) (n : ℕ) : (blobDecoder w n).Local := by
  intro p x p' q e h he hle hq
  have h' : checkErr (w.unpackFixedBytes n p).1 (w.unpackFixedBytes n p).2 = pure (x, p') := h
  obtain ⟨he', rfl, rfl⟩ := checkErr_inv h'
  obtain ⟨-, -, hp⟩ := unpackFixedBytes_of_err_eq_none hw he'
  have hn : p.offset + n ≤ e := by rw [hp] at hle; exact hle
  obtain ⟨hq', -⟩ := unpackFixedBytes_readsAs hw he' hn hq
  show checkErr (w.unpackFixedBytes n q).1 (w.unpackFixedBytes n q).2 = _
  rw [hq', hp]
  simp only [Nat.add_sub_cancel_left]
  exact checkErr_of_err_eq_none _ (show ({ q with offset := q.offset + n } : Packer).err = none
    from hq.err_q)

theorem blobRegistry_reads (hw : w.Spec) (n : ℕ) : (blobRegistry w n).Reads := by
  have hd : ∀ i d, (blobRegistry w n).lookupIndex i = some d → d = blobDecoder w n := by
    intro i d hl
    simp only [TypeParser.lookupIndex, blobRegistry, List.find?_cons, List.find?_nil] at hl
    split at hl
    · simpa using hl.symm
    · simp at hl
  exact ⟨fun i d hl => hd i d hl ▸ blobDecoder_reads hw n,
    fun i d hl => hd i d hl ▸ blobDecoder_local hw n⟩

/-- The bytes of a transaction of one action read by `blobDecoder 0` and an auth read by it:
a base, the count `1`, the action's type `0` and the auth's type `0`. -/
def blobTxBytes : Bytes := ofNat 8 1000 ++ List.replicate idLen 1 ++ ofNat 8 1 ++ [1, 0, 0]

/-- The transaction `UnmarshalTx` reads from `blobTxBytes`. -/
def blobTx : ParsedTx Bytes Bytes :=
  ⟨⟨1000, List.replicate idLen 1, 1⟩, [[]], [], ofNat 8 1000 ++ List.replicate idLen 1 ++ ofNat 8 1 ++ [1, 0],
    blobTxBytes⟩

theorem unmarshalTx_blobTx :
    unmarshalTx Wrappers.wrappers (blobRegistry Wrappers.wrappers 0)
        (blobRegistry Wrappers.wrappers 0) (fun _ => []) (fun _ => [])
        (newReader blobTxBytes Consts.networkSizeLimit) =
      pure (blobTx, { newReader blobTxBytes Consts.networkSizeLimit with offset := 51 }) := by
  rfl

/-- A block of `k` copies of `blobTx`, with a zero parent and state root. -/
def blobBlock (k : ℕ) : StatefulBlock Bytes Bytes :=
  ⟨List.replicate idLen 0, 0, 0, List.replicate k blobTx, List.replicate idLen 0⟩

theorem length_encoding_blobBlock (k : ℕ) : (blobBlock k).encoding.length = 84 + k * 51 := by
  have h : blobTxBytes.length = 51 := rfl
  simp [blobBlock, StatefulBlock.encoding, List.length_flatMap, blobTx, h, idLen]
  omega

/-- `UnmarshalBlock` reads a block of as many copies of `blobTx` as `2 ^ 32` allows, however long
its bytes, and `Marshal` fails on one longer than `NetworkSizeLimit`. -/
theorem unmarshalBlock_blobBlock_marshal {k : ℕ} (hk : k < 2 ^ 32)
    (hlong : Consts.networkSizeLimit < 84 + k * 51) :
    unmarshalBlock Wrappers.wrappers (blobBlock k).encoding (blobRegistry Wrappers.wrappers 0)
        (blobRegistry Wrappers.wrappers 0) (fun _ => []) (fun _ => []) = pure (blobBlock k) ∧
      ∀ (actionID : Bytes → UInt8) (marshalAction : Bytes → Packer → Packer)
        (authID : Bytes → UInt8) (marshalAuth : Bytes → Packer → Packer),
        (blobBlock k).marshal Writers.writers actionID marshalAction authID marshalAuth =
          .error .wrappers := by
  have hread : ∀ tx ∈ (blobBlock k).txs, tx.ReadBy Wrappers.wrappers (blobRegistry Wrappers.wrappers 0)
      (blobRegistry Wrappers.wrappers 0) (fun _ => []) (fun _ => []) := by
    intro tx htx
    rw [List.eq_of_mem_replicate htx]
    exact ⟨_, _, unmarshalTx_blobTx⟩
  have hfits : (blobBlock k).Fits := ⟨by simp [blobBlock], by simp [blobBlock], by simp [blobBlock],
    by simp [blobBlock], by simp [blobBlock]⟩
  have hreads := blobRegistry_reads Wrappers.wrappers_spec 0
  refine ⟨unmarshalBlock_encoding Wrappers.wrappers_spec hreads hreads hfits hread
    (by simpa [blobBlock] using hk), fun actionID marshalAction authID marshalAuth => ?_⟩
  have hpos : ∀ tx ∈ (blobBlock k).txs, 0 < tx.bytes.length :=
    fun tx htx => (hread tx htx).length_pos Wrappers.wrappers_spec hreads hreads
  rw [StatefulBlock.marshal_eq Writers.writers_spec hpos, length_encoding_blobBlock, if_neg (by omega)]

end Blobs

/-! ## The round trip -/

section RoundTrip

variable {w} {wr : Writers} {ar : TypeParser UnmarshalError α} {au : TypeParser UnmarshalError β}
  {actor sponsor : β → Address} {actionID : α → UInt8} {marshalAction : α → Packer → Packer}
  {authID : β → UInt8} {marshalAuth : β → Packer → Packer}

theorem length_le_length_flatMap_bytes {txs : List (ParsedTx α β)}
    (h : ∀ tx ∈ txs, 0 < tx.bytes.length) : txs.length ≤ (txs.flatMap ParsedTx.bytes).length := by
  induction txs with
  | nil => simp
  | cons tx txs ih =>
    have h₁ := h tx List.mem_cons_self
    have h₂ := ih fun t ht => h t (List.mem_cons_of_mem tx ht)
    simp only [List.flatMap_cons, List.length_append, List.length_cons]
    omega

theorem block_codec_round_trip (hw : w.Spec) (hwr : wr.Spec) (har : ar.Reads) (hau : au.Reads) :
    (∀ (raw : Bytes) (b : StatefulBlock α β), unmarshalBlock w raw ar au actor sponsor = pure b →
      (raw.length ≤ Consts.networkSizeLimit →
        b.marshal wr actionID marshalAction authID marshalAuth = .ok raw) ∧
      (Consts.networkSizeLimit < raw.length →
        b.marshal wr actionID marshalAction authID marshalAuth = .error .wrappers)) ∧
    (∀ (b : StatefulBlock α β) (raw : Bytes), b.Fits →
      (∀ tx ∈ b.txs, tx.ReadBy w ar au actor sponsor) →
      b.marshal wr actionID marshalAction authID marshalAuth = .ok raw →
        unmarshalBlock w raw ar au actor sponsor = pure b) := by
  refine ⟨fun raw b h => ?_, fun b raw hb hread hm => ?_⟩
  · -- what was read is the encoding, which `Marshal` writes when it fits
    obtain ⟨rfl, -, hread, -⟩ := unmarshalBlock_inv hw har hau h
    have hm : b.marshal wr actionID marshalAction authID marshalAuth = _ :=
      StatefulBlock.marshal_eq hwr fun tx htx => (hread tx htx).length_pos hw har hau
    exact ⟨fun hle => by rw [hm, if_pos hle], fun hlt => by rw [hm, if_neg (by omega)]⟩
  · -- what `Marshal` wrote is the encoding, of a block that fits in `NetworkSizeLimit`
    have hpos := fun tx htx => (hread tx htx).length_pos hw har hau
    rw [StatefulBlock.marshal_eq hwr hpos] at hm
    split_ifs at hm with hle
    · cases hm
      have hcount : b.txs.length < 2 ^ 32 := by
        have := length_le_length_flatMap_bytes hpos
        simp only [StatefulBlock.encoding, List.length_append] at hle
        simp only [Consts.networkSizeLimit] at hle
        omega
      exact unmarshalBlock_encoding hw har hau hb hread hcount

theorem block_codec_round_trip_blobs :
    Wrappers.wrappers.Spec ∧ Writers.writers.Spec ∧ (blobRegistry Wrappers.wrappers 0).Reads ∧
      ((∀ (raw : Bytes) (b : StatefulBlock Bytes Bytes),
          unmarshalBlock Wrappers.wrappers raw (blobRegistry Wrappers.wrappers 0)
            (blobRegistry Wrappers.wrappers 0) (fun _ => []) (fun _ => []) = pure b →
          (raw.length ≤ Consts.networkSizeLimit →
            b.marshal Writers.writers (fun _ => 0) (fun _ p => p) (fun _ => 0) (fun _ p => p) =
              .ok raw) ∧
          (Consts.networkSizeLimit < raw.length →
            b.marshal Writers.writers (fun _ => 0) (fun _ p => p) (fun _ => 0) (fun _ p => p) =
              .error .wrappers)) ∧
        (∀ (b : StatefulBlock Bytes Bytes) (raw : Bytes), b.Fits →
          (∀ tx ∈ b.txs, tx.ReadBy Wrappers.wrappers (blobRegistry Wrappers.wrappers 0)
            (blobRegistry Wrappers.wrappers 0) (fun _ => []) (fun _ => [])) →
          b.marshal Writers.writers (fun _ => 0) (fun _ p => p) (fun _ => 0) (fun _ p => p) =
            .ok raw →
          unmarshalBlock Wrappers.wrappers raw (blobRegistry Wrappers.wrappers 0)
            (blobRegistry Wrappers.wrappers 0) (fun _ => []) (fun _ => []) = pure b)) :=
  ⟨Wrappers.wrappers_spec, Writers.writers_spec, blobRegistry_reads Wrappers.wrappers_spec 0,
    block_codec_round_trip Wrappers.wrappers_spec Writers.writers_spec
      (blobRegistry_reads Wrappers.wrappers_spec 0) (blobRegistry_reads Wrappers.wrappers_spec 0)⟩

/-- `UnmarshalBlock` accepts bytes longer than `NetworkSizeLimit`, from which `Marshal` does not
write the block it returns. -/
theorem unmarshalBlock_accepts_unmarshallable :
    ∃ (raw : Bytes) (b : StatefulBlock Bytes Bytes),
      unmarshalBlock Wrappers.wrappers raw (blobRegistry Wrappers.wrappers 0)
          (blobRegistry Wrappers.wrappers 0) (fun _ => []) (fun _ => []) = pure b ∧
        ∀ (actionID : Bytes → UInt8) (marshalAction : Bytes → Packer → Packer)
          (authID : Bytes → UInt8) (marshalAuth : Bytes → Packer → Packer),
          b.marshal Writers.writers actionID marshalAction authID marshalAuth ≠ .ok raw := by
  obtain ⟨hread, hmarshal⟩ := unmarshalBlock_blobBlock_marshal (k := 2 ^ 16) (by decide) (by decide)
  refine ⟨_, _, hread, fun actionID marshalAction authID marshalAuth => ?_⟩
  rw [hmarshal]
  exact fun h => by cases h

end RoundTrip



end Hypersdk.Chain
