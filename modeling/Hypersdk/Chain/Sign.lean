import Hypersdk.Chain.Block

/-!
# Signing transactions, and lists of transactions on the wire

`Transaction.Digest`, `Transaction.Sign`, `MarshalTxs` and `UnmarshalTxs`
(`chain/transaction.go`). `Sign` marshals a new transaction with the auth its factory returns
for the digest, and reloads it by `UnmarshalTx`. Where the encoder of each action and of the
auth writes bytes that the decoder registered at its type byte reads back
(`TypeParser.Inverts`), `Sign` returns the transaction it was given, with that auth, the
message signed as its digest and the message followed by the auth as its bytes; past
`NetworkSizeLimit` it fails (`ParsedTx.sign_eq`).

`MarshalTxs` writes a count and the bytes of each transaction, and what `UnmarshalTxs` accepts
is exactly such a list, read to its end (`unmarshalTxs_inv`), so that the two invert each other
within `NetworkSizeLimit`, as `Marshal` and `UnmarshalBlock` do. Neither reader accepts two
encodings of one value: the ID of a block, a hash of its bytes, is a function of the block read.
-/

namespace Hypersdk.Codec

variable {ε T : Type}

/-- `d` reads `x` from the bytes `b`: from every packer without an error whose bytes ahead start
with `b`, it returns `x` and moves past `b`. -/
def Decoder.Decodes (d : Decoder ε T) (b : Bytes) (x : T) : Prop :=
  ∀ (p : Packer) (tail : Bytes), p.err = none → p.rest = b ++ tail →
    d p = pure (x, { p with offset := p.offset + b.length })

/-- An encoder and a registry that agree on `x`: `marshal x` appends `enc x`, and the decoder
registered at the type byte `id x` reads `x` back from it. -/
structure TypeParser.Inverts (tp : TypeParser ε T) (id : T → UInt8)
    (marshal : T → Packer → Packer) (enc : T → Bytes) (x : T) : Prop where
  appends : Appends (marshal x) (enc x)
  decodes : ∃ d, tp.lookupIndex (id x) = some d ∧ d.Decodes (enc x) x

theorem appends_packByte {wr : Writers} (hwr : wr.Spec) (x : UInt8) : Appends (wr.packByte x) [x] := by
  rw [show wr.packByte x = wr.packFixedBytes [x] from funext (hwr.packByte_eq x)]
  exact appends_packFixedBytes hwr [x]

end Hypersdk.Codec

namespace Hypersdk.Chain

open Codec BigEndian

variable {α β : Type}

/-- The bytes of a base: the expiry as `uint64`, the chain and the fee. -/
def Base.encoding (b : Base) : Bytes :=
  ofNat 8 (b.timestamp % 2 ^ 64).toNat ++ b.chainID ++ ofNat 8 b.maxFee

/-- A base that `UnmarshalBase` accepts: a set `int64` expiry that is a whole second, a set
`ids.ID` chain and a set `uint64` fee. -/
structure Base.Valid (b : Base) : Prop where
  timestamp_ge : -2 ^ 63 ≤ b.timestamp
  timestamp_lt : b.timestamp < 2 ^ 63
  timestamp_ne : b.timestamp ≠ 0
  timestamp_mod : b.timestamp % 1000 = 0
  chainID_length : b.chainID.length = idLen
  chainID_ne : b.chainID ≠ List.replicate idLen 0
  maxFee_lt : b.maxFee < 2 ^ 64
  maxFee_ne : b.maxFee ≠ 0

/-! ## Signing -/

section Sign

variable (wr : Writers) (w : Wrappers) (actionID : α → UInt8) (marshalAction : α → Packer → Packer)
  (authID : β → UInt8) (marshalAuth : β → Packer → Packer)

/-- A writer's error, returned by a call that also parses. -/
def liftErr {γ : Type} : Except PackerError γ → Parse γ
  | .ok a => pure a
  | .error e => throw (.codec e)

@[simp] theorem liftErr_ok {γ : Type} (a : γ) : liftErr (.ok a) = pure a := rfl

theorem liftErr_error_bind {γ δ : Type} (e : PackerError) (f : γ → Parse δ) :
    liftErr (.error e) >>= f = throw (.codec e) := rfl

/-- `Transaction.Digest`: the digest the transaction was read with, or else the bytes of its
base, the count of its actions and each action after its type byte. -/
def ParsedTx.toDigest (t : ParsedTx α β) : Except PackerError Bytes :=
  if t.digest.length > 0 then .ok t.digest
  else
    let p := newWriter Consts.networkSizeLimit
    let p := t.base.marshal wr p
    let p := wr.packByte (UInt8.ofNat t.actions.length) p
    let p := t.actions.foldl
      (fun p action => marshalAction action (wr.packByte (actionID action) p)) p
    match p.err with
    | some e => .error e
    | none => .ok p.bytes

/-- `Transaction.Sign`: `factory` signs the digest, and the transaction with the auth it
returns is marshalled and read back by `UnmarshalTx`. -/
def ParsedTx.sign (t : ParsedTx α β) (factory : Bytes → Parse β)
    (actionRegistry : TypeParser UnmarshalError α) (authRegistry : TypeParser UnmarshalError β)
    (actor sponsor : β → Address) : Parse (ParsedTx α β) := do
  let msg ← liftErr (t.toDigest wr actionID marshalAction)
  let auth ← factory msg
  let t := { t with auth }
  -- `Marshal` returns the writer's error, which `Sign` then checks a second time
  let p ← liftErr (t.marshal wr actionID marshalAction authID marshalAuth
    (newWriter Consts.networkSizeLimit))
  let (tx, _) ← unmarshalTx w actionRegistry authRegistry actor sponsor
    (newReader p.bytes Consts.maxInt)
  pure tx

/-- The writes of `Digest`, which `marshalActions` makes before the auth. -/
def ParsedTx.writeDigest (t : ParsedTx α β) (p : Packer) : Packer :=
  t.actions.foldl (fun p action => marshalAction action (wr.packByte (actionID action) p))
    (wr.packByte (UInt8.ofNat t.actions.length) (t.base.marshal wr p))

/-- The bytes `Digest` writes, `encAction` giving those of each action. -/
def ParsedTx.digestEncoding (encAction : α → Bytes) (t : ParsedTx α β) : Bytes :=
  t.base.encoding ++ [UInt8.ofNat t.actions.length] ++
    t.actions.flatMap fun action => actionID action :: encAction action

/-- The bytes `marshalActions` writes: those of the digest, then the auth after its type byte. -/
def ParsedTx.encoding (encAction : α → Bytes) (encAuth : β → Bytes) (t : ParsedTx α β) : Bytes :=
  t.digestEncoding actionID encAction ++ authID t.auth :: encAuth t.auth

end Sign

/-! ## What `Digest` and `Marshal` write -/

section Writing

variable {wr : Writers} {actionID : α → UInt8} {marshalAction : α → Packer → Packer}
  {authID : β → UInt8} {marshalAuth : β → Packer → Packer} {encAction : α → Bytes}
  {encAuth : β → Bytes} {t : ParsedTx α β}

theorem Base.appends_marshal (hwr : wr.Spec) (b : Base) : Appends (b.marshal wr) b.encoding :=
  ((appends_packInt64 hwr b.timestamp).comp (appends_packFixedBytes hwr b.chainID)).comp
    (appends_packUint64 hwr b.maxFee)

theorem ParsedTx.appends_writeDigest (hwr : wr.Spec)
    (hacts : ∀ a ∈ t.actions, Appends (marshalAction a) (encAction a)) :
    Appends (t.writeDigest wr actionID marshalAction) (t.digestEncoding actionID encAction) :=
  ((Base.appends_marshal hwr t.base).comp (appends_packByte hwr _)).comp
    (Appends.foldl t.actions fun a ha => (appends_packByte hwr (actionID a)).comp (hacts a ha))

/-- `Digest` of a transaction not yet read: its encoding, where that fits in
`NetworkSizeLimit`. -/
theorem ParsedTx.toDigest_eq (hwr : wr.Spec) (hd : t.digest = [])
    (hacts : ∀ a ∈ t.actions, Appends (marshalAction a) (encAction a)) :
    t.toDigest wr actionID marshalAction =
      if (t.digestEncoding actionID encAction).length ≤ Consts.networkSizeLimit then
        .ok (t.digestEncoding actionID encAction) else .error .wrappers := by
  have hp : (newWriter Consts.networkSizeLimit).Writing := ⟨rfl, rfl⟩
  have ha : Appends (t.writeDigest wr actionID marshalAction) (t.digestEncoding actionID encAction) :=
    t.appends_writeDigest hwr hacts
  have h : t.toDigest wr actionID marshalAction =
      match (t.writeDigest wr actionID marshalAction (newWriter Consts.networkSizeLimit)).err with
      | some e => .error e
      | none => .ok (t.writeDigest wr actionID marshalAction (newWriter Consts.networkSizeLimit)).bytes := by
    rw [ParsedTx.toDigest, if_neg (by simp [hd])]
    rfl
  rw [h]
  split_ifs with hle
  · rw [ha.writes _ hp (by simpa [newWriter] using hle)]
    simp [newWriter, Packer.written]
  · rw [ha.overflow _ hp (by simp [newWriter]) (by simp [newWriter]; omega)]

/-- `Marshal` of a transaction not yet read: its encoding, where that fits in
`NetworkSizeLimit`. -/
theorem ParsedTx.marshal_newWriter (hwr : wr.Spec) (hb : t.bytes = [])
    (hacts : ∀ a ∈ t.actions, Appends (marshalAction a) (encAction a))
    (hauth : Appends (marshalAuth t.auth) (encAuth t.auth)) :
    t.marshal wr actionID marshalAction authID marshalAuth (newWriter Consts.networkSizeLimit) =
      if (t.encoding actionID authID encAction encAuth).length ≤ Consts.networkSizeLimit then
        .ok ((newWriter Consts.networkSizeLimit).written (t.encoding actionID authID encAction encAuth))
      else .error .wrappers := by
  have hp : (newWriter Consts.networkSizeLimit).Writing := ⟨rfl, rfl⟩
  have ha : Appends (fun p => marshalAuth t.auth (wr.packByte (authID t.auth)
      (t.writeDigest wr actionID marshalAction p))) (t.encoding actionID authID encAction encAuth) :=
    (t.appends_writeDigest hwr hacts).comp ((appends_packByte hwr _).comp hauth)
  have h : t.marshal wr actionID marshalAction authID marshalAuth (newWriter Consts.networkSizeLimit) =
      marshalErr (marshalAuth t.auth (wr.packByte (authID t.auth)
        (t.writeDigest wr actionID marshalAction (newWriter Consts.networkSizeLimit)))) := by
    rw [ParsedTx.marshal, if_neg (by simp [hb])]
    rfl
  rw [h]
  split_ifs with hle
  · have hw : marshalAuth t.auth (wr.packByte (authID t.auth)
        (t.writeDigest wr actionID marshalAction (newWriter Consts.networkSizeLimit))) =
        (newWriter Consts.networkSizeLimit).written (t.encoding actionID authID encAction encAuth) :=
      ha.writes _ hp (by simpa [newWriter] using hle)
    rw [hw]
    rfl
  · have he : (marshalAuth t.auth (wr.packByte (authID t.auth)
        (t.writeDigest wr actionID marshalAction (newWriter Consts.networkSizeLimit)))).err =
        some .wrappers :=
      ha.overflow _ hp (by simp [newWriter]) (by simp [newWriter]; omega)
    simp only [marshalErr, he]

end Writing

/-! ## What `UnmarshalTx` reads back -/

section Reading

variable {w : Wrappers} {ar : TypeParser UnmarshalError α} {au : TypeParser UnmarshalError β}
  {actor sponsor : β → Address} {actionID : α → UInt8} {marshalAction : α → Packer → Packer}
  {authID : β → UInt8} {marshalAuth : β → Packer → Packer} {encAction : α → Bytes}
  {encAuth : β → Bytes} {p : Packer} {tail : Bytes}

/-- A required `int64` that is set, written as the eight bytes of `uint64(v)`. -/
theorem unpackInt64_append_of_ne_zero (hw : w.Spec) (h : p.err = none) {v : ℤ}
    (h₁ : -2 ^ 63 ≤ v) (h₂ : v < 2 ^ 63) (h0 : v ≠ 0)
    (hr : p.rest = ofNat 8 (v % 2 ^ 64).toNat ++ tail) :
    unpackInt64 w true p = (v, { p with offset := p.offset + 8 }) := by
  have hl : (v % 2 ^ 64).toNat < 256 ^ 8 := by omega
  have hne : (v % 2 ^ 64).toNat ≠ 0 := by omega
  rw [unpackInt64, unpackLong_append hw h hl hr]
  dsimp only
  rw [toInt64_toNat_emod h₁ h₂, beq_false_of_ne hne]
  rfl

/-- A valid base is read from its bytes. -/
theorem unmarshalBase_encoding (hw : w.Spec) {b : Base} (hb : b.Valid) (h : p.err = none)
    (hr : p.rest = b.encoding ++ tail) :
    unmarshalBase w p = pure (b, { p with offset := p.offset + b.encoding.length }) := by
  have hr₁ : p.rest = ofNat 8 (b.timestamp % 2 ^ 64).toNat ++ (b.chainID ++ ofNat 8 b.maxFee ++ tail) := by
    simp [hr, Base.encoding]
  have h₁ := unpackInt64_append_of_ne_zero hw h hb.timestamp_ge hb.timestamp_lt hb.timestamp_ne hr₁
  have hr₂ := Packer.rest_advance_of_length hr₁ (length_ofNat 8 _)
  have e₂ : ({ p with offset := p.offset + 8 } : Packer).err = none := h
  have h₂ : unpackID w true (List.replicate idLen 0) { p with offset := p.offset + 8 } =
      (b.chainID, { p with offset := p.offset + 8 + idLen }) :=
    unpackID_append hw e₂ hb.chainID_length hb.chainID_ne (by rw [hr₂, List.append_assoc])
  have hr₃ : ({ p with offset := p.offset + 8 + idLen } : Packer).rest = ofNat 8 b.maxFee ++ tail :=
    Packer.rest_advance_of_length (by rw [hr₂, List.append_assoc]) hb.chainID_length
  have e₃ : ({ p with offset := p.offset + 8 + idLen } : Packer).err = none := h
  have h₃ : unpackUint64 w true { p with offset := p.offset + 8 + idLen } =
      (b.maxFee, { p with offset := p.offset + 8 + idLen + 8 }) :=
    unpackUint64_append hw e₃ hb.maxFee_lt hb.maxFee_ne hr₃
  have hlen : b.encoding.length = 8 + idLen + 8 := by
    simp only [Base.encoding, List.length_append, length_ofNat, hb.chainID_length]
  simp only [unmarshalBase, h₁, h₂, h₃]
  simp [hb.timestamp_mod, checkErr, h, hlen, Nat.add_assoc]

/-- The loop of `unmarshalActions` over the encodings of actions, each after its type byte. -/
theorem unmarshalActionsLoop_encoding (hw : w.Spec) :
    ∀ (actions acc : List α) {p : Packer} {tail : Bytes},
      (∀ a ∈ actions, ar.Inverts actionID marshalAction encAction a) → p.err = none →
      p.rest = (actions.flatMap fun a => actionID a :: encAction a) ++ tail →
      unmarshalActionsLoop w ar actions.length acc p = pure (acc ++ actions,
        { p with offset := p.offset + (actions.flatMap fun a => actionID a :: encAction a).length })
  | [], acc, p, _, _, _, _ => by simp [unmarshalActionsLoop]
  | a :: actions, acc, p, tail, hinv, h, hr => by
    obtain ⟨-, d, hl, hd⟩ := hinv a List.mem_cons_self
    have hr₁ : p.rest = actionID a ::
        (encAction a ++ ((actions.flatMap fun a => actionID a :: encAction a) ++ tail)) := by
      simp [hr]
    have h₁ := unpackByte_cons hw h hr₁
    have hr₂ := Packer.rest_advance_of_length (show p.rest = [actionID a] ++ _ from hr₁) rfl
    have e₂ : ({ p with offset := p.offset + 1 } : Packer).err = none := h
    have h₂ := hd _ _ e₂ hr₂
    have ih := unmarshalActionsLoop_encoding hw actions (acc ++ [a])
      (p := { p with offset := p.offset + 1 + (encAction a).length })
      (fun b hb => hinv b (List.mem_cons_of_mem a hb)) h (Packer.rest_advance_of_length hr₂ rfl)
    rw [List.length_cons, unmarshalActionsLoop, h₁]
    dsimp only
    rw [hl]
    dsimp only
    rw [h₂, pure_bind]
    dsimp only
    rw [ih]
    simp only [List.append_assoc, List.singleton_append, List.flatMap_cons, List.length_append,
      List.length_cons, Nat.add_assoc, Nat.add_comm 1]

theorem unmarshalActions_encoding (hw : w.Spec) {actions : List α} (hn₀ : 0 < actions.length)
    (hn : actions.length < 256) (hinv : ∀ a ∈ actions, ar.Inverts actionID marshalAction encAction a)
    (h : p.err = none) (hr : p.rest = UInt8.ofNat actions.length ::
      ((actions.flatMap fun a => actionID a :: encAction a) ++ tail)) :
    unmarshalActions w ar p = pure (actions,
      { p with offset := p.offset + 1 + (actions.flatMap fun a => actionID a :: encAction a).length }) := by
  have hc : (UInt8.ofNat actions.length).toNat = actions.length := UInt8.toNat_ofNat_of_lt' hn
  have hc0 : UInt8.ofNat actions.length ≠ 0 := by
    intro h0
    have h0' := congrArg UInt8.toNat h0
    rw [hc] at h0'
    exact absurd h0' (by simpa using hn₀.ne')
  have e₁ : ({ p with offset := p.offset + 1 } : Packer).err = none := h
  have h₂ := unmarshalActionsLoop_encoding hw actions [] hinv e₁
    (Packer.rest_advance_of_length (show p.rest = [UInt8.ofNat actions.length] ++ _ from hr) rfl)
  rw [unmarshalActions, unpackByte_cons hw h hr]
  dsimp only
  rw [if_neg hc0, hc, h₂]
  rfl

/-- The bytes between the offset of `p` and `e` are `b`, where `p` has `b` ahead and `e` is
where `b` ends. -/
theorem sliceBytes_of_rest {q : Packer} {b : Bytes} (hq : q.bytes = p.bytes)
    (hr : p.rest = b ++ tail) {e : ℕ} (he : e = p.offset + b.length) :
    sliceBytes q p.offset e = b := by
  subst he
  have hs : (p.bytes.take (p.offset + b.length)).drop p.offset = p.rest.take b.length := by
    rw [List.drop_take, Nat.add_sub_cancel_left]
    rfl
  rw [sliceBytes, hq, hs, hr, List.take_left]

/-- **`UnmarshalTx` reads a transaction from its encoding**, with that encoding as its bytes
and the encoding of its base and actions as its digest, where the registries invert the
encoders and the auth answers for its type byte. -/
theorem unmarshalTx_encoding (hw : w.Spec) {t : ParsedTx α β} (hbase : t.base.Valid)
    (hn₀ : 0 < t.actions.length) (hn : t.actions.length < 256)
    (hacts : ∀ a ∈ t.actions, ar.Inverts actionID marshalAction encAction a)
    (hauth : au.Inverts authID marshalAuth encAuth t.auth)
    (hactor : (actor t.auth).headD 0 = authID t.auth)
    (hsponsor : (sponsor t.auth).headD 0 = authID t.auth) (h : p.err = none)
    (hr : p.rest = t.encoding actionID authID encAction encAuth ++ tail) :
    unmarshalTx w ar au actor sponsor p =
      pure ({ t with
          digest := t.digestEncoding actionID encAction
          bytes := t.encoding actionID authID encAction encAuth },
        { p with offset := p.offset + (t.encoding actionID authID encAction encAuth).length }) := by
  obtain ⟨-, d, hl, hd⟩ := hauth
  -- the encoding, read piece by piece
  have hr₁ : p.rest = t.base.encoding ++ (UInt8.ofNat t.actions.length ::
      ((t.actions.flatMap fun a => actionID a :: encAction a) ++
        (authID t.auth :: (encAuth t.auth ++ tail)))) := by
    simp [hr, ParsedTx.encoding, ParsedTx.digestEncoding]
  have h₁ := unmarshalBase_encoding hw hbase h hr₁
  have hr₂ := Packer.rest_advance_of_length hr₁ rfl
  have e₂ : ({ p with offset := p.offset + t.base.encoding.length } : Packer).err = none := h
  have h₂ := unmarshalActions_encoding hw hn₀ hn hacts e₂ hr₂
  have hr₃ : ({ p with offset := p.offset + t.base.encoding.length + 1 +
      (t.actions.flatMap fun a => actionID a :: encAction a).length } : Packer).rest =
      authID t.auth :: (encAuth t.auth ++ tail) :=
    Packer.rest_of_offset_eq (p := p) (b := t.base.encoding ++ [UInt8.ofNat t.actions.length] ++
      (t.actions.flatMap fun a => actionID a :: encAction a)) (by rw [hr₁]; simp) rfl
      (by simp only [List.length_append, List.length_singleton]; omega)
  have e₃ : ({ p with offset := p.offset + t.base.encoding.length + 1 +
      (t.actions.flatMap fun a => actionID a :: encAction a).length } : Packer).err = none := h
  have h₃ := unpackByte_cons hw e₃ hr₃
  have hr₄ := Packer.rest_advance_of_length (show _ = [authID t.auth] ++ _ from hr₃) rfl
  have e₄ : ({ p with offset := p.offset + t.base.encoding.length + 1 +
      (t.actions.flatMap fun a => actionID a :: encAction a).length + 1 } : Packer).err = none := h
  have h₄ := hd _ _ e₄ hr₄
  -- where the digest and the whole transaction end
  have hlenD : (t.digestEncoding actionID encAction).length = t.base.encoding.length + 1 +
      (t.actions.flatMap fun a => actionID a :: encAction a).length := by
    simp only [ParsedTx.digestEncoding, List.length_append, List.length_singleton]
  have hlenE : (t.encoding actionID authID encAction encAuth).length =
      (t.digestEncoding actionID encAction).length + 1 + (encAuth t.auth).length := by
    simp only [ParsedTx.encoding, List.length_append, List.length_cons]
    omega
  have hrD : p.rest = t.digestEncoding actionID encAction ++ (authID t.auth :: (encAuth t.auth ++ tail)) := by
    simp [hr, ParsedTx.encoding]
  have hsD := sliceBytes_of_rest (p := p) (q := { p with offset := p.offset + t.base.encoding.length + 1 +
      (t.actions.flatMap fun a => actionID a :: encAction a).length + 1 + (encAuth t.auth).length })
    rfl hrD (e := p.offset + t.base.encoding.length + 1 +
      (t.actions.flatMap fun a => actionID a :: encAction a).length) (by omega)
  have hsE := sliceBytes_of_rest (p := p) (q := { p with offset := p.offset + t.base.encoding.length + 1 +
      (t.actions.flatMap fun a => actionID a :: encAction a).length + 1 + (encAuth t.auth).length })
    rfl hr (e := p.offset + t.base.encoding.length + 1 +
      (t.actions.flatMap fun a => actionID a :: encAction a).length + 1 + (encAuth t.auth).length)
    (by omega)
  unfold unmarshalTx
  generalize hub : w.unpackByte = ub at h₃ ⊢
  rw [h₁, pure_bind]
  dsimp only
  rw [h₂, pure_bind]
  dsimp only
  rw [show p.offset + t.base.encoding.length + 1 +
    (t.actions.flatMap fun a => actionID a :: encAction a).length = _ from rfl, h₃]
  dsimp only
  rw [hl]
  dsimp only
  rw [h₄, pure_bind]
  dsimp only
  rw [if_neg (not_not_intro hactor), if_neg (not_not_intro hsponsor)]
  have e₅ : ({ p with offset := p.offset + t.base.encoding.length + 1 +
      (t.actions.flatMap fun a => actionID a :: encAction a).length + 1 + (encAuth t.auth).length } :
        Packer).err = none := h
  have ho : p.offset + t.base.encoding.length + 1 +
      (t.actions.flatMap fun a => actionID a :: encAction a).length + 1 + (encAuth t.auth).length =
      p.offset + (t.encoding actionID authID encAction encAuth).length := by
    omega
  rw [hsD, hsE, checkErr_of_err_eq_none _ e₅, ho]

end Reading

/-! ## `Sign` reloads what it signs -/

section Signing

variable {wr : Writers} {w : Wrappers} {ar : TypeParser UnmarshalError α}
  {au : TypeParser UnmarshalError β} {actor sponsor : β → Address} {actionID : α → UInt8}
  {marshalAction : α → Packer → Packer} {authID : β → UInt8} {marshalAuth : β → Packer → Packer}
  {encAction : α → Bytes} {encAuth : β → Bytes}

/-- **`Sign` returns the transaction it signs**: a new transaction, signed by an auth that
answers for its type byte, comes back with that auth, the bytes of its base and actions as its
digest, and those followed by the auth as its bytes, as long as the registries read back what
the encoders write; past `NetworkSizeLimit`, `Sign` fails with the writer's error. -/
theorem ParsedTx.sign_eq (hw : w.Spec) (hwr : wr.Spec) {t : ParsedTx α β} (hd : t.digest = [])
    (hb : t.bytes = []) (hbase : t.base.Valid) (hn₀ : 0 < t.actions.length)
    (hn : t.actions.length < 256)
    (hacts : ∀ a ∈ t.actions, ar.Inverts actionID marshalAction encAction a)
    {factory : Bytes → Parse β} {auth : β}
    (hf : factory (t.digestEncoding actionID encAction) = pure auth)
    (hauth : au.Inverts authID marshalAuth encAuth auth)
    (hactor : (actor auth).headD 0 = authID auth)
    (hsponsor : (sponsor auth).headD 0 = authID auth) :
    t.sign wr w actionID marshalAction authID marshalAuth factory ar au actor sponsor =
      if (ParsedTx.encoding actionID authID encAction encAuth { t with auth }).length ≤
          Consts.networkSizeLimit then
        pure { t with
          auth
          digest := t.digestEncoding actionID encAction
          bytes := ParsedTx.encoding actionID authID encAction encAuth { t with auth } }
      else throw (.codec .wrappers) := by
  have hacts' : ∀ a ∈ t.actions, Appends (marshalAction a) (encAction a) :=
    fun a ha => (hacts a ha).appends
  have hdig : t.toDigest wr actionID marshalAction = _ := t.toDigest_eq hwr hd hacts'
  have hm : ParsedTx.marshal wr actionID marshalAction authID marshalAuth { t with auth }
      (newWriter Consts.networkSizeLimit) = _ :=
    ParsedTx.marshal_newWriter (t := { t with auth }) hwr hb hacts' hauth.appends
  -- the digest is the front of the whole encoding
  have hprefix : (t.digestEncoding actionID encAction).length ≤
      (ParsedTx.encoding actionID authID encAction encAuth { t with auth }).length := by
    simp only [ParsedTx.encoding, List.length_append]
    exact Nat.le_add_right _ _
  unfold ParsedTx.sign
  rw [hdig]
  by_cases hfit : (ParsedTx.encoding actionID authID encAction encAuth { t with auth }).length ≤
      Consts.networkSizeLimit
  · -- the bytes written are read back as the signed transaction
    have hrest : (newReader (ParsedTx.encoding actionID authID encAction encAuth { t with auth })
        Consts.maxInt).rest = ParsedTx.encoding actionID authID encAction encAuth { t with auth } ++
          [] := by simp [newReader, Packer.rest]
    have hread := unmarshalTx_encoding hw (t := { t with auth }) hbase hn₀ hn hacts hauth hactor
      hsponsor rfl hrest
    have hdE : ParsedTx.digestEncoding actionID encAction { t with auth } =
        t.digestEncoding actionID encAction := rfl
    rw [hdE] at hread
    have hbytes : ((newWriter Consts.networkSizeLimit).written
        (ParsedTx.encoding actionID authID encAction encAuth { t with auth })).bytes =
        ParsedTx.encoding actionID authID encAction encAuth { t with auth } := by
      simp [newWriter, Packer.written]
    rw [if_pos (le_trans hprefix hfit), liftErr_ok, pure_bind, hf, pure_bind]
    dsimp only
    rw [hm, if_pos hfit, liftErr_ok, pure_bind, hbytes, hread, pure_bind, if_pos hfit]
  · rw [if_neg hfit]
    by_cases hfitd : (t.digestEncoding actionID encAction).length ≤ Consts.networkSizeLimit
    · rw [if_pos hfitd, liftErr_ok, pure_bind, hf, pure_bind]
      dsimp only
      rw [hm, if_neg hfit, liftErr_error_bind]
    · rw [if_neg hfitd, liftErr_error_bind]

end Signing

section Blobs

variable {w : Wrappers} {wr : Writers}

/-- `blobDecoder n` reads back any `n` bytes that `PackFixedBytes` writes. -/
theorem blobRegistry_inverts (hw : w.Spec) (hwr : wr.Spec) {n : ℕ} {b : Bytes}
    (hb : b.length = n) : (blobRegistry w n).Inverts (fun _ => 0) wr.packFixedBytes id b where
  appends := appends_packFixedBytes hwr b
  decodes := ⟨blobDecoder w n, rfl, fun p tail h hr => by
    subst hb
    have hr' : p.rest = b ++ tail := hr
    show checkErr (w.unpackFixedBytes b.length p).1 (w.unpackFixedBytes b.length p).2 =
      pure (b, { p with offset := p.offset + b.length })
    rw [unpackFixedBytes_append hw h hr']
    exact checkErr_of_err_eq_none _ h⟩

/-- A transaction of one two-byte action, not yet signed. -/
def unsignedBlobTx : ParsedTx Bytes Bytes := ⟨⟨1000, List.replicate idLen 1, 1⟩, [[1, 2]], [], [], []⟩

theorem sign_eq_unsignedBlobTx :
    unsignedBlobTx.sign Writers.writers Wrappers.wrappers (fun _ => 0) Writers.writers.packFixedBytes
        (fun _ => 0) Writers.writers.packFixedBytes (fun _ => pure [7])
        (blobRegistry Wrappers.wrappers 2) (blobRegistry Wrappers.wrappers 1) (fun _ => [])
        (fun _ => []) =
      if (ParsedTx.encoding (fun _ => 0) (fun _ => 0) id id { unsignedBlobTx with auth := [7] }).length ≤
          Consts.networkSizeLimit then
        pure { unsignedBlobTx with
          auth := [7]
          digest := unsignedBlobTx.digestEncoding (fun _ => 0) id
          bytes := ParsedTx.encoding (fun _ => 0) (fun _ => 0) id id { unsignedBlobTx with auth := [7] } }
      else throw (.codec .wrappers) :=
  ParsedTx.sign_eq Wrappers.wrappers_spec Writers.writers_spec rfl rfl
    ⟨by decide, by decide, by decide, by decide, rfl, by decide, by decide, by decide⟩
    (by decide) (by decide)
    (fun a ha => by
      rw [List.mem_singleton.mp ha]
      exact blobRegistry_inverts Wrappers.wrappers_spec Writers.writers_spec rfl)
    rfl (blobRegistry_inverts Wrappers.wrappers_spec Writers.writers_spec rfl) rfl rfl

end Blobs

/-! ## Lists of transactions -/

section Txs

variable (wr : Writers) (actionID : α → UInt8) (marshalAction : α → Packer → Packer)
  (authID : β → UInt8) (marshalAuth : β → Packer → Packer)

/-- The errors of `MarshalTxs`: `ErrNoTxs`, and the writer's. -/
inductive MarshalTxsError
  | noTxs
  | codec (e : PackerError)
  deriving DecidableEq, Repr

/-- `MarshalTxs`: a count, then each transaction's `Marshal`. -/
def marshalTxs (txs : List (ParsedTx α β)) : Except MarshalTxsError Bytes :=
  if txs.isEmpty then .error .noTxs
  else Except.mapError .codec do
    let p := newWriter Consts.networkSizeLimit
    let p := packInt wr txs.length p
    let p ← txs.foldlM (fun p tx => tx.marshal wr actionID marshalAction authID marshalAuth p) p
    match p.err with
    | some e => throw e
    | none => pure p.bytes

/-- The bytes of a list of transactions that keep the bytes they were read from: the count,
then the bytes of each. -/
def txsEncoding (txs : List (ParsedTx α β)) : Bytes :=
  ofNat 4 txs.length ++ txs.flatMap ParsedTx.bytes

end Txs

section TxsLemmas

variable {wr : Writers} {w : Wrappers} {ar : TypeParser UnmarshalError α}
  {au : TypeParser UnmarshalError β} {actor sponsor : β → Address} {actionID : α → UInt8}
  {marshalAction : α → Packer → Packer} {authID : β → UInt8} {marshalAuth : β → Packer → Packer}

/-- `MarshalTxs` of transactions that keep their bytes: no list at all is `ErrNoTxs`, and
otherwise their encoding, where it fits in `NetworkSizeLimit`. -/
theorem marshalTxs_eq (hwr : wr.Spec) {txs : List (ParsedTx α β)}
    (hb : ∀ tx ∈ txs, 0 < tx.bytes.length) :
    marshalTxs wr actionID marshalAction authID marshalAuth txs =
      if txs = [] then .error .noTxs
      else if (txsEncoding txs).length ≤ Consts.networkSizeLimit then .ok (txsEncoding txs)
      else .error (.codec .wrappers) := by
  have hp : (newWriter Consts.networkSizeLimit).Writing := ⟨rfl, rfl⟩
  have ha : Appends (fun p => txs.foldl (fun p tx => wr.packFixedBytes tx.bytes p)
      (packInt wr txs.length p)) (txsEncoding txs) :=
    (appends_packInt hwr _).comp (Appends.foldl txs fun tx _ => appends_packFixedBytes hwr tx.bytes)
  by_cases h0 : txs = []
  · subst h0
    rfl
  rw [if_neg h0, marshalTxs, if_neg (by simpa using h0)]
  dsimp only
  rw [foldlM_marshal_bind hwr (fun p e he => ?_) _ _ hb]
  · split_ifs with hle
    · have hw : txs.foldl (fun p tx => wr.packFixedBytes tx.bytes p)
          (packInt wr txs.length (newWriter Consts.networkSizeLimit)) =
          (newWriter Consts.networkSizeLimit).written (txsEncoding txs) :=
        ha.writes _ hp (by simpa [newWriter] using hle)
      rw [hw]
      simp [newWriter, Packer.written]
      rfl
    · have he : (txs.foldl (fun p tx => wr.packFixedBytes tx.bytes p)
          (packInt wr txs.length (newWriter Consts.networkSizeLimit))).err = some .wrappers :=
        ha.overflow _ hp (by simp [newWriter]) (by simp [newWriter]; omega)
      simp only [he]
      rfl
  · simp only [he]
    rfl

variable (hw : w.Spec) (har : ar.Reads) (hau : au.Reads)
include hw har hau

/-- **What `UnmarshalTxs` accepts is the encoding of the list it returns**: at least one and
fewer than `2 ^ 32` transactions, each read by `UnmarshalTx`, and nothing after them. -/
theorem unmarshalTxs_inv {raw : Bytes} {txs : List (ParsedTx α β)}
    (h : unmarshalTxs w raw ar au actor sponsor = pure txs) :
    raw = txsEncoding txs ∧ txs ≠ [] ∧ (∀ tx ∈ txs, tx.ReadBy w ar au actor sponsor) ∧
      txs.length < 2 ^ 32 := by
  unfold unmarshalTxs at h
  dsimp only at h
  obtain ⟨txCount, p₁, h₁⟩ : ∃ x p₁, unpackInt w true (newReader raw Consts.networkSizeLimit) =
      (x, p₁) := ⟨_, _, rfl⟩
  rw [h₁] at h
  dsimp only at h
  obtain ⟨⟨txs', p₂⟩, h₂, h⟩ := Parse.bind_eq_pure h
  dsimp only at h
  split_ifs at h with hne
  · exact absurd h (throw_bind_ne_pure _ _ _)
  obtain ⟨⟨txs'', p₃⟩, hc, -⟩ := Parse.bind_eq_pure h
  obtain ⟨he₂, -, -⟩ := checkErr_inv hc
  rw [checkErr_of_err_eq_none _ he₂, pure_bind] at h
  have hb := Parse.pure_inj h
  subst hb
  -- the loop read its transactions, after a count that is set
  obtain ⟨new, rfl, hlen, hread, hadv, hr₁⟩ := unmarshalTxsLoop_inv hw har hau txCount [] h₂
  rw [unpackInt_eq_decodeRead hw] at h₁
  obtain ⟨-, bc, hbc, rfl, hbad, hr₀⟩ := decodeRead_split hw h₁ (hadv.err he₂)
  have hr₂ : p₂.rest = [] := by
    simp only [Bool.not_eq_true', Bool.not_eq_false, Packer.empty, beq_iff_eq] at hne
    simp [Packer.rest, hne]
  have hcnt : toNat bc < 2 ^ 32 := lt_of_lt_of_eq (toNat_lt bc) (by rw [hbc]; rfl)
  have hset : toNat bc ≠ 0 := by simpa using hbad
  have ec : ofNat 4 txs'.length = bc := by rw [hlen, ← hbc, ofNat_toNat]
  have hraw : raw = (newReader raw Consts.networkSizeLimit).rest := by simp [newReader, Packer.rest]
  refine ⟨?_, fun hnil => hset ?_, hread, by rw [hlen]; exact hcnt⟩
  · rw [hraw, hr₀, hr₁, hr₂, txsEncoding, ec, List.append_nil]
  · rw [← hlen, show txs' = [] from hnil, List.length_nil]

/-- A list of transactions read by `UnmarshalTx`, at least one and fewer than `2 ^ 32`, is read
back from its encoding. -/
theorem unmarshalTxs_encoding {txs : List (ParsedTx α β)} (h0 : txs ≠ [])
    (hread : ∀ tx ∈ txs, tx.ReadBy w ar au actor sponsor) (hcount : txs.length < 2 ^ 32) :
    unmarshalTxs w (txsEncoding txs) ar au actor sponsor = pure txs := by
  have hr₀ : (newReader (txsEncoding txs) Consts.networkSizeLimit).rest =
      ofNat 4 txs.length ++ (txs.flatMap ParsedTx.bytes ++ []) := by
    simp [newReader, Packer.rest, txsEncoding]
  have h₁ := unpackInt_append_required hw rfl (by omega : txs.length < 256 ^ 4)
    (by simpa using h0) hr₀
  have hr₁ := Packer.rest_advance_of_length hr₀ (length_ofNat 4 _)
  generalize hp₁ : ({ newReader (txsEncoding txs) Consts.networkSizeLimit with
    offset := (newReader (txsEncoding txs) Consts.networkSizeLimit).offset + 4 } : Packer) = p₁
    at h₁ hr₁
  have he₁ : p₁.err = none := by rw [← hp₁]; rfl
  have h₂ := unmarshalTxsLoop_flatMap hw har hau txs [] hread he₁ hr₁
  -- nothing is left after the last transaction
  have hempty : ({ p₁ with offset := p₁.offset + (txs.flatMap ParsedTx.bytes).length } :
      Packer).empty = true := by
    rw [← hp₁]
    simp only [Packer.empty, newReader, txsEncoding, List.length_append, length_ofNat, beq_iff_eq]
  unfold unmarshalTxs
  dsimp only
  rw [h₁]
  dsimp only
  rw [h₂, pure_bind]
  dsimp only
  have he₂ : ({ p₁ with offset := p₁.offset + (txs.flatMap ParsedTx.bytes).length } :
      Packer).err = none := he₁
  rw [hempty, checkErr_of_err_eq_none _ he₂]
  rfl

end TxsLemmas

/-! ## The round trip of transaction lists -/

section RoundTrip

variable {wr : Writers} {w : Wrappers} {ar : TypeParser UnmarshalError α}
  {au : TypeParser UnmarshalError β} {actor sponsor : β → Address} {actionID : α → UInt8}
  {marshalAction : α → Packer → Packer} {authID : β → UInt8} {marshalAuth : β → Packer → Packer}

/-- **`MarshalTxs` and `UnmarshalTxs` invert each other**: a list `UnmarshalTxs` accepts is
written back to the same bytes where they fit in `NetworkSizeLimit`, and fails to be written
otherwise; a list of transactions read by `UnmarshalTx` that `MarshalTxs` writes is read back. -/
theorem txs_codec_round_trip (hw : w.Spec) (hwr : wr.Spec) (har : ar.Reads) (hau : au.Reads) :
    (∀ (raw : Bytes) (txs : List (ParsedTx α β)), unmarshalTxs w raw ar au actor sponsor = pure txs →
      (raw.length ≤ Consts.networkSizeLimit →
        marshalTxs wr actionID marshalAction authID marshalAuth txs = .ok raw) ∧
      (Consts.networkSizeLimit < raw.length →
        marshalTxs wr actionID marshalAction authID marshalAuth txs = .error (.codec .wrappers))) ∧
    (∀ (txs : List (ParsedTx α β)) (raw : Bytes), (∀ tx ∈ txs, tx.ReadBy w ar au actor sponsor) →
      marshalTxs wr actionID marshalAction authID marshalAuth txs = .ok raw →
        unmarshalTxs w raw ar au actor sponsor = pure txs) := by
  refine ⟨fun raw txs h => ?_, fun txs raw hread hm => ?_⟩
  · -- what was read is the encoding of a list that is not empty
    obtain ⟨rfl, h0, hread, -⟩ := unmarshalTxs_inv hw har hau h
    have hm : marshalTxs wr actionID marshalAction authID marshalAuth txs = _ :=
      marshalTxs_eq hwr fun tx htx => (hread tx htx).length_pos hw har hau
    exact ⟨fun hle => by rw [hm, if_neg h0, if_pos hle],
      fun hlt => by rw [hm, if_neg h0, if_neg (by omega)]⟩
  · -- what was written is the encoding of a list that is not empty and fits
    have hpos := fun tx htx => (hread tx htx).length_pos hw har hau
    rw [marshalTxs_eq hwr hpos] at hm
    split_ifs at hm with h0 hle
    cases hm
    have hcount : txs.length < 2 ^ 32 := by
      have := length_le_length_flatMap_bytes hpos
      simp only [txsEncoding, List.length_append, Consts.networkSizeLimit] at hle
      omega
    exact unmarshalTxs_encoding hw har hau h0 hread hcount

theorem txs_codec_round_trip_blobs :
    Wrappers.wrappers.Spec ∧ Writers.writers.Spec ∧ (blobRegistry Wrappers.wrappers 0).Reads ∧
      ((∀ (raw : Bytes) (txs : List (ParsedTx Bytes Bytes)),
          unmarshalTxs Wrappers.wrappers raw (blobRegistry Wrappers.wrappers 0)
            (blobRegistry Wrappers.wrappers 0) (fun _ => []) (fun _ => []) = pure txs →
          (raw.length ≤ Consts.networkSizeLimit →
            marshalTxs Writers.writers (fun _ => 0) (fun _ p => p) (fun _ => 0) (fun _ p => p) txs =
              .ok raw) ∧
          (Consts.networkSizeLimit < raw.length →
            marshalTxs Writers.writers (fun _ => 0) (fun _ p => p) (fun _ => 0) (fun _ p => p) txs =
              .error (.codec .wrappers))) ∧
        (∀ (txs : List (ParsedTx Bytes Bytes)) (raw : Bytes),
          (∀ tx ∈ txs, tx.ReadBy Wrappers.wrappers (blobRegistry Wrappers.wrappers 0)
            (blobRegistry Wrappers.wrappers 0) (fun _ => []) (fun _ => [])) →
          marshalTxs Writers.writers (fun _ => 0) (fun _ p => p) (fun _ => 0) (fun _ p => p) txs =
            .ok raw →
          unmarshalTxs Wrappers.wrappers raw (blobRegistry Wrappers.wrappers 0)
            (blobRegistry Wrappers.wrappers 0) (fun _ => []) (fun _ => []) = pure txs)) :=
  ⟨Wrappers.wrappers_spec, Writers.writers_spec, blobRegistry_reads Wrappers.wrappers_spec 0,
    txs_codec_round_trip Wrappers.wrappers_spec Writers.writers_spec
      (blobRegistry_reads Wrappers.wrappers_spec 0) (blobRegistry_reads Wrappers.wrappers_spec 0)⟩

/-- **Blocks and transaction lists have one encoding each**: two byte strings that
`UnmarshalBlock`, or `UnmarshalTxs`, reads as the same value are the same, so that an ID hashed
from the bytes read is a function of the value read. -/
theorem unmarshal_canonical (hw : w.Spec) (har : ar.Reads) (hau : au.Reads) :
    (∀ (raw₁ raw₂ : Bytes) (b : StatefulBlock α β),
      unmarshalBlock w raw₁ ar au actor sponsor = pure b →
      unmarshalBlock w raw₂ ar au actor sponsor = pure b → raw₁ = raw₂) ∧
    (∀ (raw₁ raw₂ : Bytes) (txs : List (ParsedTx α β)),
      unmarshalTxs w raw₁ ar au actor sponsor = pure txs →
      unmarshalTxs w raw₂ ar au actor sponsor = pure txs → raw₁ = raw₂) := by
  refine ⟨fun raw₁ raw₂ b h₁ h₂ => ?_, fun raw₁ raw₂ txs h₁ h₂ => ?_⟩
  · rw [(unmarshalBlock_inv hw har hau h₁).1, (unmarshalBlock_inv hw har hau h₂).1]
  · rw [(unmarshalTxs_inv hw har hau h₁).1, (unmarshalTxs_inv hw har hau h₂).1]

theorem unmarshal_canonical_blobs :
    Wrappers.wrappers.Spec ∧ (blobRegistry Wrappers.wrappers 0).Reads ∧
      ((∀ (raw₁ raw₂ : Bytes) (b : StatefulBlock Bytes Bytes),
          unmarshalBlock Wrappers.wrappers raw₁ (blobRegistry Wrappers.wrappers 0)
            (blobRegistry Wrappers.wrappers 0) (fun _ => []) (fun _ => []) = pure b →
          unmarshalBlock Wrappers.wrappers raw₂ (blobRegistry Wrappers.wrappers 0)
            (blobRegistry Wrappers.wrappers 0) (fun _ => []) (fun _ => []) = pure b → raw₁ = raw₂) ∧
        (∀ (raw₁ raw₂ : Bytes) (txs : List (ParsedTx Bytes Bytes)),
          unmarshalTxs Wrappers.wrappers raw₁ (blobRegistry Wrappers.wrappers 0)
            (blobRegistry Wrappers.wrappers 0) (fun _ => []) (fun _ => []) = pure txs →
          unmarshalTxs Wrappers.wrappers raw₂ (blobRegistry Wrappers.wrappers 0)
            (blobRegistry Wrappers.wrappers 0) (fun _ => []) (fun _ => []) = pure txs →
            raw₁ = raw₂)) :=
  ⟨Wrappers.wrappers_spec, blobRegistry_reads Wrappers.wrappers_spec 0,
    unmarshal_canonical Wrappers.wrappers_spec (blobRegistry_reads Wrappers.wrappers_spec 0)
      (blobRegistry_reads Wrappers.wrappers_spec 0)⟩

end RoundTrip

end Hypersdk.Chain
