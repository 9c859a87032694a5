import Hypersdk.Typescriptvm.Actions

/-!
# The codecs of the TypeScript VM's actions

`Size` and `Marshal` of `Transfer`, `CreateContract` and `ExecuteContract`
(`examples/typescriptvm/actions/*.go`), read back by the decoders of `Typescriptvm.Actions`.

`marshalKeys` collects the keys of `ExecuteContract.Keys` in the order Go ranges over the map
and sorts them by `bytes.Compare`; the model takes that order as an argument, and what is
written does not depend on it (`writes_marshalKeys`). Every action that fits its fields' Go
types and the decoders' limits is written as its encoding (`writes_marshal`) and read back as
an equal value (`decode_encoding`; the map of keys compares by what it maps each key to).
`Size` counts the encoding only for `Transfer`: `CreateContract.Size` leaves out both length
prefixes and one of the discriminator's two bytes, nine bytes in all, and
`ExecuteContract.Size` leaves out at least the flag of the payload, the function name and its
length, the count and the key bytes of the map, and the compute units.
-/

namespace Hypersdk.Typescriptvm

open Codec BigEndian
open Chain (Parse UnmarshalError checkErr)

/-! ## Sorting and filling a map -/

section Sorting

variable {α : Type} {le : α → α → Bool}

/-- A merge sort by a total order does not see the order of its input: permutations of one
list sort to the same list. -/
theorem mergeSort_eq_of_perm (trans : ∀ a b c, le a b → le b c → le a c)
    (total : ∀ a b, le a b || le b a) (antisymm : ∀ a b, le a b → le b a → a = b)
    {l₁ l₂ : List α} (h : l₁.Perm l₂) : l₁.mergeSort le = l₂.mergeSort le := by
  have hperm : (l₁.mergeSort le).Perm (l₂.mergeSort le) :=
    (List.mergeSort_perm l₁ le).trans (h.trans (List.mergeSort_perm l₂ le).symm)
  exact hperm.eq_of_pairwise (fun a b _ _ hab hba => antisymm a b hab hba)
    (List.pairwise_mergeSort trans total l₁) (List.pairwise_mergeSort trans total l₂)

variable {β : Type} [DecidableEq α]

/-- Inserting each key of `ks` with its value `f k`: the keys of `ks` map to their values, the
others as before. -/
theorem lookup_foldl_insert (f : α → β) (x : α) :
    ∀ (ks : List α) (m : AList fun _ : α => β),
      (ks.foldl (fun m k => m.insert k (f k)) m).lookup x = if x ∈ ks then some (f x) else m.lookup x
  | [], m => by simp
  | k :: ks, m => by
    rw [List.foldl_cons, lookup_foldl_insert f x ks]
    by_cases hx : x ∈ ks
    · simp [hx]
    · by_cases hk : x = k
      · subst hk
        simp
      · simp [hx, hk, AList.lookup_insert_ne hk]

end Sorting

/-- `sort.Slice` by `bytes.Compare(a, b) < 0`, the lexicographic order of bytes. The keys of a
map are distinct, and every sort puts distinct keys in the one increasing order, which
`mergeSort` computes. -/
def sortKeys (ks : List Bytes) : List Bytes := ks.mergeSort fun a b => decide (a ≤ b)

theorem sortKeys_eq_of_perm {ks ks' : List Bytes} (h : ks.Perm ks') : sortKeys ks = sortKeys ks' := by
  -- the order of bytes is total, transitive and antisymmetric
  have trans (a b c : Bytes) (hab : decide (a ≤ b) = true) (hbc : decide (b ≤ c) = true) :
      decide (a ≤ c) = true := by
    simp only [decide_eq_true_eq] at hab hbc ⊢
    exact List.le_trans hab hbc
  have total (a b : Bytes) : (decide (a ≤ b) || decide (b ≤ a)) = true := by
    simpa using List.le_total a b
  have antisymm (a b : Bytes) (hab : decide (a ≤ b) = true) (hba : decide (b ≤ a) = true) :
      a = b := by
    simp only [decide_eq_true_eq] at hab hba
    exact List.le_antisymm hab hba
  exact mergeSort_eq_of_perm trans total antisymm h

theorem perm_sortKeys (ks : List Bytes) : (sortKeys ks).Perm ks := List.mergeSort_perm ks _

/-! ## `Size` and `Marshal` -/

/-- `GetTypeID`. -/
def Action.getTypeID : Action → UInt8
  | .transfer .. => Consts.transferID
  | .createContract .. => Consts.createContractID
  | .executeContract .. => Consts.executeContractID

/-- `Size`. -/
def Action.size : Action → ℕ
  | .transfer .. => addressLen + Hypersdk.Consts.uint64Len
  | .createContract bytecode _ => bytecode.length + Hypersdk.Consts.uint8Len
  | .executeContract contractAddress payload _ keys _ =>
    contractAddress.length + (payload.getD []).length + keys.entries.length * (4 + 1)

variable (wr : Writers)

/-- `packBytesOrNull`: a flag, set when the slice is not nil, then the slice. -/
def packBytesOrNull (b : Option Bytes) (p : Packer) : Packer :=
  let p := packBool wr b.isSome p
  match b with
  | some b => packBytes wr b p
  | none => p

/-- `marshalKeys`: the count, then each key and its permission byte, sorted. `order` is the
order in which `for k := range keys` visits the map. -/
def marshalKeys (keys : StateKeysWithPermissions) (order : List Bytes) (p : Packer) : Packer :=
  let p := packInt wr keys.entries.length p
  (sortKeys order).foldl (fun p k => wr.packByte (keys.get k).bits (packBytes wr k p)) p

/-- `Marshal`; `order` is the order in which `ExecuteContract.Marshal` ranges over its keys. -/
def Action.marshal (order : List Bytes) : Action → Packer → Packer
  | .transfer toAddress value, p => packUint64 wr value (packAddress wr toAddress p)
  | .createContract bytecode discriminator, p =>
    -- `binary.BigEndian.PutUint16` into a slice of two bytes
    packBytes wr (ofNat 2 discriminator) (packBytes wr bytecode p)
  | .executeContract contractAddress payload functionName keys computeUnitsToSpend, p =>
    let p := packAddress wr contractAddress p
    let p := packBytesOrNull wr payload p
    let p := packString wr functionName p
    let p := marshalKeys wr keys order p
    packUint64 wr computeUnitsToSpend p

/-! ## The encodings -/

/-- The bytes of `packBytesOrNull`. -/
def bytesOrNullEncoding : Option Bytes → Bytes
  | some b => 1 :: (ofNat 4 b.length ++ b)
  | none => [0]

/-- A key as `marshalKeys` writes it, with its permission byte. -/
def keyEncoding (keys : StateKeysWithPermissions) (k : Bytes) : Bytes :=
  ofNat 4 k.length ++ k ++ [(keys.get k).bits]

/-- The bytes of `marshalKeys`. -/
def keysEncoding (keys : StateKeysWithPermissions) : Bytes :=
  ofNat 4 keys.entries.length ++ (sortKeys keys.keys).flatMap (keyEncoding keys)

/-- What `Marshal` writes. -/
def Action.encoding : Action → Bytes
  | .transfer toAddress value => toAddress ++ ofNat 8 value
  | .createContract bytecode discriminator =>
    ofNat 4 bytecode.length ++ bytecode ++ (ofNat 4 (ofNat 2 discriminator).length ++ ofNat 2 discriminator)
  | .executeContract contractAddress payload functionName keys computeUnitsToSpend =>
    contractAddress ++ bytesOrNullEncoding payload ++ (ofNat 2 functionName.length ++ functionName) ++
      keysEncoding keys ++ ofNat 8 computeUnitsToSpend

/-- The keys `marshalKeys` ranges over: those of `ExecuteContract.Keys`. -/
def Action.mapKeys : Action → List Bytes
  | .executeContract _ _ _ keys _ => keys.keys
  | _ => []

/-- An action its codec carries: the fields within their Go types (a 33-byte `codec.Address`,
a `uint16` discriminator, `uint64` amounts), the fields the decoders require set (an address
other than `EmptyAddress`, a nonzero `Transfer.Value`), and every length within what its
prefix and its decoder accept. -/
def Action.Fits : Action → Prop
  | .transfer toAddress value =>
    toAddress.length = addressLen ∧ toAddress ≠ List.replicate addressLen 0 ∧ 0 < value ∧
      value < 2 ^ 64
  | .createContract bytecode discriminator => bytecode.length < 2 ^ 32 ∧ discriminator < 2 ^ 16
  | .executeContract contractAddress payload functionName keys computeUnitsToSpend =>
    contractAddress.length = addressLen ∧ contractAddress ≠ List.replicate addressLen 0 ∧
      (∀ b ∈ payload, b.length < 2 ^ 32) ∧ functionName.length ≤ Consts.maxStringLen ∧
      keys.entries.length < 2 ^ 32 ∧ (∀ k ∈ keys.keys, k.length ≤ 10000) ∧
      computeUnitsToSpend < 2 ^ 64

/-- Equal as Go values: the map of an `ExecuteContract` compares by what it maps each key to. -/
def Action.SameAs : Action → Action → Prop
  | .executeContract contractAddress payload functionName keys computeUnitsToSpend,
    .executeContract contractAddress' payload' functionName' keys' computeUnitsToSpend' =>
    contractAddress = contractAddress' ∧ payload = payload' ∧ functionName = functionName' ∧
      (∀ k, keys.lookup k = keys'.lookup k) ∧ computeUnitsToSpend = computeUnitsToSpend'
  | a, a' => a = a'

/-! ## Writing -/

section Writing

variable {wr}

theorem writes_packBytesOrNull (hwr : wr.Spec) (b : Option Bytes) :
    Writes (packBytesOrNull wr b) (bytesOrNullEncoding b) := by
  cases b with
  | none => exact writes_packBool hwr false
  | some b => exact (writes_packBool hwr true).comp (writes_packBytes hwr b)

/-- **`marshalKeys` writes the sorted keys, whatever order Go ranges over the map in.** -/
theorem writes_marshalKeys (hwr : wr.Spec) (keys : StateKeysWithPermissions) {order : List Bytes}
    (horder : order.Perm keys.keys) :
    Writes (marshalKeys wr keys order) (keysEncoding keys) := by
  have hkeys : Writes (fun p => (sortKeys keys.keys).foldl
      (fun p k => wr.packByte (keys.get k).bits (packBytes wr k p)) p)
      ((sortKeys keys.keys).flatMap (keyEncoding keys)) :=
    Writes.foldl _ fun k _ => (writes_packBytes hwr k).comp (writes_packByte hwr _)
  refine ((writes_packInt hwr keys.entries.length).comp hkeys).congr fun p => ?_
  rw [marshalKeys, sortKeys_eq_of_perm horder]

/-- **`Marshal` writes the encoding**, for every order of the map's keys. -/
theorem writes_marshal (hwr : wr.Spec) {a : Action} (hfits : a.Fits) {order : List Bytes}
    (horder : order.Perm a.mapKeys) : Writes (a.marshal wr order) a.encoding := by
  cases a with
  | transfer toAddress value =>
    exact (writes_packFixedBytes hwr toAddress).comp (writes_packUint64 hwr value)
  | createContract bytecode discriminator =>
    exact (writes_packBytes hwr bytecode).comp (writes_packBytes hwr (ofNat 2 discriminator))
  | executeContract contractAddress payload functionName keys computeUnitsToSpend =>
    obtain ⟨-, -, -, hname, -, -, -⟩ := hfits
    exact ((((writes_packFixedBytes hwr contractAddress).comp (writes_packBytesOrNull hwr payload)).comp
      (writes_packString hwr hname)).comp (writes_marshalKeys hwr keys horder)).comp
      (writes_packUint64 hwr computeUnitsToSpend)

end Writing

/-! ## Reading -/

section Reading

variable {w : Wrappers} {p : Packer} {tail : Bytes}

theorem unmarshalTransfer_encoding (hw : w.Spec) (h : p.err = none) {toAddress : Bytes}
    {value : ℕ} (hfits : (Action.transfer toAddress value).Fits)
    (hr : p.rest = (Action.transfer toAddress value).encoding ++ tail) :
    unmarshalTransfer w p = pure (.transfer toAddress value,
      { p with offset := p.offset + (Action.transfer toAddress value).encoding.length }) := by
  obtain ⟨hl, h0, hv0, hv⟩ := hfits
  have hr₁ : p.rest = toAddress ++ (ofNat 8 value ++ tail) := by simp [hr, Action.encoding]
  have h₁ := unpackAddress_append hw h hl h0 hr₁
  have h₂ := unpackUint64_append hw (p := { p with offset := p.offset + addressLen }) h hv hv0.ne'
    (Packer.rest_advance_of_length hr₁ hl)
  simp only [unmarshalTransfer, h₁, h₂]
  simp [checkErr, h, Action.encoding, hl, Nat.add_assoc]

theorem unmarshalCreateContract_encoding (hw : w.Spec) (h : p.err = none) {bytecode : Bytes}
    {discriminator : ℕ} (hfits : (Action.createContract bytecode discriminator).Fits)
    (hr : p.rest = (Action.createContract bytecode discriminator).encoding ++ tail) :
    unmarshalCreateContract w p = pure (.createContract bytecode discriminator,
      { p with offset := p.offset + (Action.createContract bytecode discriminator).encoding.length }) := by
  obtain ⟨hb, hd⟩ := hfits
  have hr₁ : p.rest = ofNat 4 bytecode.length ++ bytecode ++
      (ofNat 4 (ofNat 2 discriminator).length ++ ofNat 2 discriminator ++ tail) := by
    simp [hr, Action.encoding]
  have h₁ : unpackBytes w (-1) false p =
      (bytecode, { p with offset := p.offset + 4 + bytecode.length }) := by
    simp [unpackBytes, unpackBytes_append hw h (lt_of_lt_of_eq hb (by decide)) hr₁]
  have hr₂ : ({ p with offset := p.offset + 4 + bytecode.length } : Packer).rest =
      ofNat 4 (ofNat 2 discriminator).length ++ ofNat 2 discriminator ++ tail := by
    have hlen : (ofNat 4 bytecode.length ++ bytecode).length = 4 + bytecode.length := by simp
    have := Packer.rest_advance_of_length (by rw [hr₁, List.append_assoc]) hlen
    rwa [← Nat.add_assoc] at this
  have h₂ : w.unpackLimitedBytes 2 { p with offset := p.offset + 4 + bytecode.length } =
      (ofNat 2 discriminator, { p with offset := p.offset + 4 + bytecode.length + 4 + 2 }) := by
    simpa using unpackLimitedBytes_append hw (p := { p with offset := p.offset + 4 + bytecode.length })
      h (by simp) (by simp) hr₂
  have hdisc : uint16 (ofNat 2 discriminator) = some discriminator := by
    have := uint16_ofNat_append discriminator []
    rwa [List.append_nil, Nat.mod_eq_of_lt hd] at this
  simp only [unmarshalCreateContract, h₁]
  have ho : p.offset + 4 + bytecode.length + 4 + 2 = p.offset + (4 + (bytecode.length + 6)) := by
    omega
  simp [unpackBytes, h₂, hdisc, Action.encoding, ho]

/-- `unmarshalBytesOrNull` reads the flag and the slice back. -/
theorem unmarshalBytesOrNull_encoding (hw : w.Spec) (h : p.err = none) {b : Option Bytes}
    (hb : ∀ x ∈ b, x.length < 2 ^ 32) (hr : p.rest = bytesOrNullEncoding b ++ tail) :
    unmarshalBytesOrNull w p = pure (b, { p with offset := p.offset + (bytesOrNullEncoding b).length }) := by
  cases b with
  | none =>
    have h₁ := unpackBool_cons hw h (b := false) (by simpa [bytesOrNullEncoding] using hr)
    simp only [unmarshalBytesOrNull, h₁]
    simp [checkErr, h, bytesOrNullEncoding]
  | some x =>
    have h₁ := unpackBool_cons hw h (b := true) (by simpa [bytesOrNullEncoding] using hr)
    have hr₁ : ({ p with offset := p.offset + 1 } : Packer).rest = ofNat 4 x.length ++ x ++ tail :=
      Packer.rest_advance_of_length (b := [1]) (by simpa [bytesOrNullEncoding] using hr) rfl
    have h₂ := unpackBytes_append hw (p := { p with offset := p.offset + 1 }) h
      (lt_of_lt_of_eq (hb x rfl) (by decide)) hr₁
    simp only [unmarshalBytesOrNull, h₁, if_true, unpackBytes, Int.reduceLE, if_false, h₂]
    have ho : p.offset + 1 + 4 + x.length = p.offset + (4 + x.length + 1) := by omega
    simp [checkErr, h, bytesOrNullEncoding, ho]

/-- The loop of `unmarshalKeys` inserts the keys it reads, each with its permission. -/
theorem unmarshalKeysLoop_encoding (hw : w.Spec) (keys : StateKeysWithPermissions) :
    ∀ {ks : List Bytes} (acc : StateKeysWithPermissions) {p : Packer}, (∀ k ∈ ks, k.length ≤ 10000) →
      p.err = none → p.rest = ks.flatMap (keyEncoding keys) ++ tail →
      unmarshalKeysLoop w ks.length acc p =
        (ks.foldl (fun m k => m.insert k (keys.get k)) acc,
          { p with offset := p.offset + (ks.flatMap (keyEncoding keys)).length })
  | [], acc, p, _, _, _ => by simp [unmarshalKeysLoop]
  | k :: ks, acc, p, hks, h, hr => by
    have hk := hks k List.mem_cons_self
    have hr₁ : p.rest = ofNat 4 k.length ++ k ++ ((keys.get k).bits :: (ks.flatMap (keyEncoding keys) ++ tail)) := by
      simp [hr, keyEncoding]
    have h₁ : unpackBytes w 10000 false p = (k, { p with offset := p.offset + 4 + k.length }) := by
      have := unpackLimitedBytes_append hw h (lt_of_le_of_lt hk (by decide)) hk hr₁
      simpa [unpackBytes] using this
    have hr₂ : ({ p with offset := p.offset + 4 + k.length } : Packer).rest =
        (keys.get k).bits :: (ks.flatMap (keyEncoding keys) ++ tail) := by
      have hlen : (ofNat 4 k.length ++ k).length = 4 + k.length := by simp
      have := Packer.rest_advance_of_length (by rw [hr₁, List.append_assoc]) hlen
      rwa [← Nat.add_assoc] at this
    have h₂ := unpackByte_cons hw (p := { p with offset := p.offset + 4 + k.length }) h hr₂
    have hr₃ : ({ p with offset := p.offset + 4 + k.length + 1 } : Packer).rest =
        ks.flatMap (keyEncoding keys) ++ tail :=
      Packer.rest_advance_of_length (b := [(keys.get k).bits]) hr₂ rfl
    have h₃ := unmarshalKeysLoop_encoding hw keys (acc.insert k (keys.get k))
      (p := { p with offset := p.offset + 4 + k.length + 1 })
      (fun k' hk' => hks k' (List.mem_cons_of_mem k hk')) h hr₃
    have hget : (⟨(keys.get k).bits⟩ : State.Permissions) = keys.get k := rfl
    simp only [List.length_cons, unmarshalKeysLoop, h₁, h₂]
    rw [hget, h₃]
    simp [keyEncoding]
    omega

theorem length_sortKeys (keys : StateKeysWithPermissions) :
    (sortKeys keys.keys).length = keys.entries.length := by
  rw [(perm_sortKeys keys.keys).length_eq, AList.keys, List.keys, List.length_map]

/-- Filling an empty map with the sorted keys gives back the map. -/
theorem lookup_foldl_sortKeys (keys : StateKeysWithPermissions) (x : Bytes) :
    ((sortKeys keys.keys).foldl (fun (m : StateKeysWithPermissions) k => m.insert k (keys.get k)) ∅).lookup x = keys.lookup x := by
  rw [lookup_foldl_insert]
  simp only [(perm_sortKeys keys.keys).mem_iff]
  by_cases hx : x ∈ keys.keys
  · obtain ⟨v, hv⟩ := Option.isSome_iff_exists.mp (AList.lookup_isSome.mpr (AList.mem_keys.mpr hx))
    simp [hx, hv, State.Keys.get]
  · rw [if_neg hx, AList.lookup_empty, eq_comm, AList.lookup_eq_none]
    exact fun hm => hx (AList.mem_keys.mp hm)

theorem unmarshalKeys_encoding (hw : w.Spec) (h : p.err = none) {keys : StateKeysWithPermissions}
    (hn : keys.entries.length < 2 ^ 32) (hks : ∀ k ∈ keys.keys, k.length ≤ 10000)
    (hr : p.rest = keysEncoding keys ++ tail) :
    unmarshalKeys w p = pure ((sortKeys keys.keys).foldl (fun (m : StateKeysWithPermissions) k => m.insert k (keys.get k)) ∅,
      { p with offset := p.offset + (keysEncoding keys).length }) := by
  have hr₁ : p.rest = ofNat 4 (sortKeys keys.keys).length ++
      ((sortKeys keys.keys).flatMap (keyEncoding keys) ++ tail) := by
    simp [hr, keysEncoding, length_sortKeys]
  have h₁ : unpackInt w false p = ((sortKeys keys.keys).length, { p with offset := p.offset + 4 }) := by
    have := unpackInt_append hw h (by rw [length_sortKeys]; exact lt_of_lt_of_eq hn (by decide)) hr₁
    simp [unpackInt, this]
  have h₂ := unmarshalKeysLoop_encoding hw keys ∅ (p := { p with offset := p.offset + 4 })
    (fun k hk => hks k ((perm_sortKeys keys.keys).mem_iff.mp hk)) h
    (Packer.rest_advance_of_length hr₁ (length_ofNat 4 _))
  simp only [unmarshalKeys, h₁, h₂]
  simp [checkErr, h, keysEncoding, Nat.add_assoc]

theorem unmarshalExecuteContract_encoding (hw : w.Spec) (h : p.err = none) {contractAddress : Bytes}
    {payload : Option Bytes} {functionName : Bytes} {keys : StateKeysWithPermissions}
    {computeUnitsToSpend : ℕ}
    (hfits : (Action.executeContract contractAddress payload functionName keys computeUnitsToSpend).Fits)
    (hr : p.rest =
      (Action.executeContract contractAddress payload functionName keys computeUnitsToSpend).encoding ++ tail) :
    unmarshalExecuteContract w p = pure (.executeContract contractAddress payload functionName
        ((sortKeys keys.keys).foldl (fun (m : StateKeysWithPermissions) k => m.insert k (keys.get k)) ∅) computeUnitsToSpend,
      { p with offset := p.offset +
        (Action.executeContract contractAddress payload functionName keys computeUnitsToSpend).encoding.length }) := by
  obtain ⟨hl, h0, hb, hname, hn, hks, hc⟩ := hfits
  -- the fields one after another, each read where the one before stopped
  set b₂ := bytesOrNullEncoding payload
  set b₃ := ofNat 2 functionName.length ++ functionName
  set b₄ := keysEncoding keys
  have hr₁ : p.rest = contractAddress ++ (b₂ ++ (b₃ ++ (b₄ ++ (ofNat 8 computeUnitsToSpend ++ tail)))) := by
    simp [hr, Action.encoding, b₂, b₃, b₄]
  have h₁ := unpackAddress_append hw h hl h0 hr₁
  set p₁ : Packer := { p with offset := p.offset + addressLen }
  have hr₂ : p₁.rest = b₂ ++ (b₃ ++ (b₄ ++ (ofNat 8 computeUnitsToSpend ++ tail))) :=
    Packer.rest_advance_of_length hr₁ hl
  have h₂ := unmarshalBytesOrNull_encoding hw (p := p₁) h hb hr₂
  set p₂ : Packer := { p₁ with offset := p₁.offset + b₂.length }
  have hr₃ : p₂.rest = ofNat 2 functionName.length ++ functionName ++
      (b₄ ++ (ofNat 8 computeUnitsToSpend ++ tail)) := by
    simpa [b₃] using Packer.rest_advance_of_length hr₂ rfl
  have h₃ := unpackString_append hw (p := p₂) h
    (lt_of_le_of_lt hname (by simp [Consts.maxStringLen])) hr₃
  set p₃ : Packer := { p₂ with offset := p₂.offset + 2 + functionName.length }
  have hr₄ : p₃.rest = b₄ ++ (ofNat 8 computeUnitsToSpend ++ tail) := by
    have := Packer.rest_advance_of_length (p := p₂) (by rw [hr₃, List.append_assoc]) (n := 2 + functionName.length)
      (by simp)
    simpa [p₃, Nat.add_assoc] using this
  have h₄ := unmarshalKeys_encoding hw (p := p₃) h hn hks hr₄
  set p₄ : Packer := { p₃ with offset := p₃.offset + b₄.length }
  have h₅ := unpackUint64_append_of_not_required hw (p := p₄) h hc
    (Packer.rest_advance_of_length hr₄ rfl)
  have hlen : (Action.executeContract contractAddress payload functionName keys
      computeUnitsToSpend).encoding.length =
      addressLen + (b₂.length + (2 + (functionName.length + (b₄.length + 8)))) := by
    simp [Action.encoding, b₂, b₄, hl]
  rw [hlen]
  simp only [unmarshalExecuteContract, h₁, h₂, h₃, h₄, h₅, pure_bind]
  simp only [p₄, p₃, p₂, p₁, Nat.add_assoc]

/-- **The registered decoder reads the encoding back**, as an equal value. -/
theorem decode_encoding (hw : w.Spec) {a : Action} (hfits : a.Fits) {q : Packer} (h : q.err = none)
    (hr : q.rest = a.encoding ++ tail) :
    ∃ d a', (actionRegistry w).lookupIndex a.getTypeID = some d ∧
      (d q).run = some (.ok (a', { q with offset := q.offset + a.encoding.length })) ∧ a'.SameAs a := by
  cases a with
  | transfer toAddress value =>
    exact ⟨unmarshalTransfer w, .transfer toAddress value, rfl,
      by rw [unmarshalTransfer_encoding hw h hfits hr]; rfl, rfl⟩
  | createContract bytecode discriminator =>
    exact ⟨unmarshalCreateContract w, .createContract bytecode discriminator, rfl,
      by rw [unmarshalCreateContract_encoding hw h hfits hr]; rfl, rfl⟩
  | executeContract contractAddress payload functionName keys computeUnitsToSpend =>
    refine ⟨unmarshalExecuteContract w, _, rfl,
      by rw [unmarshalExecuteContract_encoding hw h hfits hr]; rfl, ?_⟩
    exact ⟨rfl, rfl, rfl, lookup_foldl_sortKeys keys, rfl⟩

end Reading

/-! ## `Size` against the encoding -/

section Size

theorem length_encoding_transfer {toAddress : Bytes} (hl : toAddress.length = addressLen)
    (value : ℕ) :
    (Action.transfer toAddress value).encoding.length = (Action.transfer toAddress value).size := by
  simp [Action.encoding, Action.size, hl, Hypersdk.Consts.uint64Len]

/-- `CreateContract.Size` misses the two length prefixes and one byte of the discriminator. -/
theorem length_encoding_createContract (bytecode : Bytes) (discriminator : ℕ) :
    (Action.createContract bytecode discriminator).encoding.length =
      (Action.createContract bytecode discriminator).size + 9 := by
  simp [Action.encoding, Action.size, Hypersdk.Consts.uint8Len]
  omega

/-- Each key takes five bytes besides its own: its length and its permission. -/
theorem length_flatMap_keyEncoding (keys : StateKeysWithPermissions) (ks : List Bytes) :
    (ks.flatMap (keyEncoding keys)).length = 5 * ks.length + (ks.map List.length).sum := by
  induction ks with
  | nil => simp
  | cons k ks ih =>
    simp only [List.flatMap_cons, List.length_append, ih, keyEncoding, length_ofNat,
      List.length_cons, List.length_nil, List.map_cons, List.sum_cons]
    omega

theorem length_bytesOrNullEncoding (b : Option Bytes) :
    (b.getD []).length + 1 ≤ (bytesOrNullEncoding b).length := by
  cases b <;> simp [bytesOrNullEncoding]

/-- `ExecuteContract.Size` misses at least the flag, the function name and its length, the
count of keys and the compute units. -/
theorem size_lt_length_encoding_executeContract (contractAddress : Bytes) (payload : Option Bytes)
    (functionName : Bytes) (keys : StateKeysWithPermissions) (computeUnitsToSpend : ℕ) :
    (Action.executeContract contractAddress payload functionName keys computeUnitsToSpend).size <
      (Action.executeContract contractAddress payload functionName keys computeUnitsToSpend).encoding.length := by
  have hb := length_bytesOrNullEncoding payload
  have hk := length_flatMap_keyEncoding keys (sortKeys keys.keys)
  simp only [Action.size, Action.encoding, keysEncoding, List.length_append, length_ofNat,
    hk, length_sortKeys]
  omega

end Size

/-- **The action codecs round-trip and do not depend on the map's order, but `Size` does not
count what `Marshal` writes.** Every action that fits its codec is written as its encoding
whatever order Go ranges over `ExecuteContract.Keys` in, and its registered decoder reads that
encoding back as an equal value; the encoding has `Size` bytes for a `Transfer`, nine more for
a `CreateContract`, and more for every `ExecuteContract`. -/
theorem action_codecs_round_trip_size_mismatch {w : Wrappers} {wr : Writers} (hw : w.Spec)
    (hwr : wr.Spec) :
    (∀ (a : Action) (order : List Bytes) (p q : Packer) (tail : Bytes), a.Fits →
      order.Perm a.mapKeys → p.Writing → p.bytes.length + a.encoding.length ≤ p.maxSize →
      q.err = none → q.rest = a.encoding ++ tail →
      a.marshal wr order p = p.written a.encoding ∧
        ∃ d a', (actionRegistry w).lookupIndex a.getTypeID = some d ∧
          (d q).run = some (.ok (a', { q with offset := q.offset + a.encoding.length })) ∧
          a'.SameAs a) ∧
    (∀ toAddress value, (Action.transfer toAddress value).Fits →
      (Action.transfer toAddress value).encoding.length = (Action.transfer toAddress value).size) ∧
    (∀ bytecode discriminator, (Action.createContract bytecode discriminator).encoding.length =
      (Action.createContract bytecode discriminator).size + 9) ∧
    ∀ contractAddress payload functionName keys computeUnitsToSpend,
      (Action.executeContract contractAddress payload functionName keys computeUnitsToSpend).size <
        (Action.executeContract contractAddress payload functionName keys
          computeUnitsToSpend).encoding.length := by
  refine ⟨fun a order p q tail hfits horder hp hle h hr => ⟨writes_marshal hwr hfits horder p hp hle,
    decode_encoding hw hfits h hr⟩, fun toAddress value hfits => ?_, length_encoding_createContract,
    size_lt_length_encoding_executeContract⟩
  exact length_encoding_transfer hfits.1 value

/-- A `CreateContract` with an empty bytecode: `Size` is 1, and `Marshal` writes ten bytes. -/
theorem action_codecs_round_trip_size_mismatch_empty_bytecode :
    (Action.createContract [] 0).size = 1 ∧
      (Action.createContract [] 0).marshal Writers.writers [] (newWriter 10) =
        (newWriter 10).written [0, 0, 0, 0, 0, 0, 0, 2, 0, 0] :=
  ⟨rfl, ((action_codecs_round_trip_size_mismatch Wrappers.wrappers_spec Writers.writers_spec).1
    (.createContract [] 0) [] (newWriter 10) (newReader (Action.createContract [] 0).encoding 10) []
    (by simp [Action.Fits]) (List.Perm.refl _) ⟨rfl, rfl⟩ (by decide) rfl
    (by simp [newReader, Packer.rest])).1⟩

end Hypersdk.Typescriptvm
