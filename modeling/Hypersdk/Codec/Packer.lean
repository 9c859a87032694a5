import Hypersdk.State.Keys

/-!
# The codec packer

`codec.Packer` (`codec/packer.go`) wraps avalanchego's `wrappers.Packer`, which is not part of
this repository: a byte slice, an offset, a size limit and the first error recorded. The model
keeps that state (`Packer`) and takes the avalanchego reads as a parameter, `Wrappers`, with
`Wrappers.Spec` the behaviour avalanchego documents for them and the codec relies on: a read
of `n` bytes returns the next `n` bytes and moves past them, records an error and returns
nothing when fewer are left, and does nothing once an error is recorded; the integer reads are
big-endian; a length-prefixed read takes its length first. `wrappers` and `writers` are
avalanchego's reads and writes on a byte list, which meet the specifications.

Over it, the methods of `codec.Packer` as the source writes them: the `required` checks that
add `ErrFieldNotPopulated`, the copies into fixed-size destinations, and the conversions.
`unpackInt_append`, `unpackLong_append`, `unpackFixedBytes_append` say what a read returns
when the bytes left start with an encoded value.
-/

namespace Hypersdk

/-- `consts.NetworkSizeLimit`: 1.95 MiB. -/
def Consts.networkSizeLimit : ℕ := 2044723

/-- `consts.MaxInt` on a 64-bit platform. -/
def Consts.maxInt : ℕ := 2 ^ 63 - 1

/-- `consts.Uint8Len`. -/
def Consts.uint8Len : ℕ := 1

/-- `consts.Uint64Len`. -/
def Consts.uint64Len : ℕ := 8

namespace Codec

open BigEndian

/-- The errors a packer records. -/
inductive PackerError
  /-- An error of avalanchego's packer: too few bytes, a length over its limit, a bad bool. -/
  | wrappers
  /-- `ErrFieldNotPopulated`: a required field read as zero or empty. -/
  | fieldNotPopulated
  deriving DecidableEq, Repr

/-- The state of avalanchego's `wrappers.Packer`: its bytes, the offset read or written up to,
the size it may grow to and the first error recorded. -/
structure Packer where
  bytes : Bytes
  offset : ℕ
  maxSize : ℕ
  err : Option PackerError
  deriving DecidableEq, Repr

namespace Packer

/-- `Errs.Add`: only the first error is kept. -/
def addErr (p : Packer) (e : PackerError) : Packer := { p with err := p.err.or (some e) }

/-- The bytes not read yet. -/
def rest (p : Packer) : Bytes := p.bytes.drop p.offset

@[simp] theorem addErr_err_of_none {p : Packer} (h : p.err = none) (e : PackerError) :
    (p.addErr e).err = some e := by
  simp [addErr, h]

@[simp] theorem addErr_bytes (p : Packer) (e : PackerError) : (p.addErr e).bytes = p.bytes := rfl

@[simp] theorem addErr_offset (p : Packer) (e : PackerError) :
    (p.addErr e).offset = p.offset := rfl

theorem addErr_err_isSome (p : Packer) (e : PackerError) : (p.addErr e).err.isSome = true := by
  cases h : p.err <;> simp [addErr, h]

end Packer

/-- The reads of avalanchego's `wrappers.Packer` that `codec.Packer` calls. -/
structure Wrappers where
  unpackFixedBytes : ℕ → Packer → Bytes × Packer
  unpackByte : Packer → UInt8 × Packer
  unpackShort : Packer → ℕ × Packer
  unpackInt : Packer → ℕ × Packer
  unpackLong : Packer → ℕ × Packer
  unpackBool : Packer → Bool × Packer
  unpackBytes : Packer → Bytes × Packer
  unpackLimitedBytes : ℕ → Packer → Bytes × Packer
  unpackStr : Packer → Bytes × Packer

/-- The documented behaviour of avalanchego's reads. -/
structure Wrappers.Spec (w : Wrappers) : Prop where
  /-- `UnpackFixedBytes` returns the next `n` bytes and moves past them. -/
  unpackFixedBytes_of_le : ∀ n p, p.err = none → n ≤ p.rest.length →
    w.unpackFixedBytes n p = (p.rest.take n, { p with offset := p.offset + n })
  /-- With fewer than `n` bytes left it records an error and returns nil. -/
  unpackFixedBytes_of_lt : ∀ n p, p.err = none → p.rest.length < n →
    w.unpackFixedBytes n p = ([], p.addErr .wrappers)
  /-- After an error it returns nil and changes nothing. -/
  unpackFixedBytes_of_isSome : ∀ n p, p.err.isSome = true → w.unpackFixedBytes n p = ([], p)
  /-- `UnpackByte` reads one byte, 0 where there is none. -/
  unpackByte_eq : ∀ p,
    w.unpackByte p = ((w.unpackFixedBytes 1 p).1.headD 0, (w.unpackFixedBytes 1 p).2)
  /-- `UnpackShort` reads two bytes big-endian. -/
  unpackShort_eq : ∀ p, w.unpackShort p = (toNat (w.unpackFixedBytes 2 p).1, (w.unpackFixedBytes 2 p).2)
  /-- `UnpackInt` reads four bytes big-endian. -/
  unpackInt_eq : ∀ p, w.unpackInt p = (toNat (w.unpackFixedBytes 4 p).1, (w.unpackFixedBytes 4 p).2)
  /-- `UnpackLong` reads eight bytes big-endian. -/
  unpackLong_eq : ∀ p, w.unpackLong p = (toNat (w.unpackFixedBytes 8 p).1, (w.unpackFixedBytes 8 p).2)
  /-- `UnpackBool` reads a byte that must be 0 or 1. -/
  unpackBool_eq : ∀ p, w.unpackBool p =
    if (w.unpackByte p).1 = 0 then (false, (w.unpackByte p).2)
    else if (w.unpackByte p).1 = 1 then (true, (w.unpackByte p).2)
    else (false, (w.unpackByte p).2.addErr .wrappers)
  /-- `UnpackBytes` reads an `int` length, then that many bytes. -/
  unpackBytes_eq : ∀ p, w.unpackBytes p = w.unpackFixedBytes (w.unpackInt p).1 (w.unpackInt p).2
  /-- `UnpackLimitedBytes` refuses a length over its limit. -/
  unpackLimitedBytes_eq : ∀ limit p, w.unpackLimitedBytes limit p =
    if (w.unpackInt p).1 ≤ limit then w.unpackFixedBytes (w.unpackInt p).1 (w.unpackInt p).2
    else ([], (w.unpackInt p).2.addErr .wrappers)
  /-- `UnpackStr` reads a `short` length, then that many bytes. -/
  unpackStr_eq : ∀ p, w.unpackStr p = w.unpackFixedBytes (w.unpackShort p).1 (w.unpackShort p).2

namespace Wrappers

/-- A read of `n` bytes as avalanchego documents it. -/
def fixedBytes (n : ℕ) (p : Packer) : Bytes × Packer :=
  if p.err.isSome then ([], p)
  else if n ≤ p.rest.length then (p.rest.take n, { p with offset := p.offset + n })
  else ([], p.addErr .wrappers)

/-- An integer of `n` big-endian bytes. -/
def fixedNat (n : ℕ) (p : Packer) : ℕ × Packer :=
  (toNat (fixedBytes n p).1, (fixedBytes n p).2)

/-- avalanchego's reads on a byte list, big-endian, each refusing to read past the end. -/
def wrappers : Wrappers where
  unpackFixedBytes := fixedBytes
  unpackByte p := ((fixedBytes 1 p).1.headD 0, (fixedBytes 1 p).2)
  unpackShort := fixedNat 2
  unpackInt := fixedNat 4
  unpackLong := fixedNat 8
  unpackBool p :=
    let b := ((fixedBytes 1 p).1.headD 0, (fixedBytes 1 p).2)
    if b.1 = 0 then (false, b.2) else if b.1 = 1 then (true, b.2) else (false, b.2.addErr .wrappers)
  unpackBytes p := fixedBytes (fixedNat 4 p).1 (fixedNat 4 p).2
  unpackLimitedBytes limit p :=
    if (fixedNat 4 p).1 ≤ limit then fixedBytes (fixedNat 4 p).1 (fixedNat 4 p).2
    else ([], (fixedNat 4 p).2.addErr .wrappers)
  unpackStr p := fixedBytes (fixedNat 2 p).1 (fixedNat 2 p).2

theorem wrappers_spec : wrappers.Spec where
  unpackFixedBytes_of_le n p h hn := by simp [wrappers, fixedBytes, h, hn]
  unpackFixedBytes_of_lt n p h hn := by simp [wrappers, fixedBytes, h, Nat.not_le.mpr hn]
  unpackFixedBytes_of_isSome n p h := by simp [wrappers, fixedBytes, h]
  unpackByte_eq _ := rfl
  unpackShort_eq _ := rfl
  unpackInt_eq _ := rfl
  unpackLong_eq _ := rfl
  unpackBool_eq _ := rfl
  unpackBytes_eq _ := rfl
  unpackLimitedBytes_eq _ _ := rfl
  unpackStr_eq _ := rfl

end Wrappers

/-! ## Reads of encoded values -/

section Reads

variable {w : Wrappers} {p : Packer} {tail : Bytes}

theorem Packer.rest_advance {b : Bytes} (hr : p.rest = b ++ tail) :
    ({ p with offset := p.offset + b.length } : Packer).rest = tail := by
  have h : p.bytes.drop (p.offset + b.length) = (p.bytes.drop p.offset).drop b.length := by
    rw [List.drop_drop, Nat.add_comm]
  simp only [Packer.rest] at hr ⊢
  rw [h, hr, List.drop_left]

/-- A packer over the same bytes, `b.length` further on, has `b` read. -/
theorem Packer.rest_of_offset_eq {p' : Packer} {b : Bytes} (hr : p.rest = b ++ tail)
    (hb : p'.bytes = p.bytes) (ho : p'.offset = p.offset + b.length) : p'.rest = tail := by
  have h : p'.rest = ({ p with offset := p.offset + b.length } : Packer).rest := by
    simp only [Packer.rest, hb, ho]
  rw [h]
  exact Packer.rest_advance hr

theorem Packer.rest_advance_of_length {b : Bytes} {n : ℕ} (hr : p.rest = b ++ tail)
    (hn : b.length = n) : ({ p with offset := p.offset + n } : Packer).rest = tail := by
  subst hn
  exact Packer.rest_advance hr

theorem unpackFixedBytes_append (hw : w.Spec) (h : p.err = none) {b : Bytes}
    (hr : p.rest = b ++ tail) :
    w.unpackFixedBytes b.length p = (b, { p with offset := p.offset + b.length }) := by
  have hle : b.length ≤ p.rest.length := by simp [hr]
  rw [hw.unpackFixedBytes_of_le _ _ h hle, hr, List.take_left]

theorem unpackByte_cons (hw : w.Spec) (h : p.err = none) {x : UInt8} (hr : p.rest = x :: tail) :
    w.unpackByte p = (x, { p with offset := p.offset + 1 }) := by
  have hb := unpackFixedBytes_append hw h (show p.rest = [x] ++ tail from hr)
  rw [List.length_singleton] at hb
  rw [hw.unpackByte_eq, hb]
  rfl

theorem unpackBool_cons (hw : w.Spec) (h : p.err = none) {b : Bool}
    (hr : p.rest = (if b then 1 else 0) :: tail) :
    w.unpackBool p = (b, { p with offset := p.offset + 1 }) := by
  rw [hw.unpackBool_eq, unpackByte_cons hw h hr]
  cases b <;> simp

/-- A big-endian integer of `n` bytes, read from bytes that start with its encoding. -/
theorem toNat_unpackFixedBytes (hw : w.Spec) (h : p.err = none) {n v : ℕ} (hv : v < 256 ^ n)
    (hr : p.rest = ofNat n v ++ tail) :
    (toNat (w.unpackFixedBytes n p).1, (w.unpackFixedBytes n p).2) =
      (v, { p with offset := p.offset + n }) := by
  have hb := unpackFixedBytes_append hw h hr
  rw [length_ofNat] at hb
  rw [hb, toNat_ofNat, Nat.mod_eq_of_lt hv]

theorem unpackInt_append (hw : w.Spec) (h : p.err = none) {v : ℕ} (hv : v < 256 ^ 4)
    (hr : p.rest = ofNat 4 v ++ tail) : w.unpackInt p = (v, { p with offset := p.offset + 4 }) := by
  rw [hw.unpackInt_eq, toNat_unpackFixedBytes hw h hv hr]

theorem unpackLong_append (hw : w.Spec) (h : p.err = none) {v : ℕ} (hv : v < 256 ^ 8)
    (hr : p.rest = ofNat 8 v ++ tail) : w.unpackLong p = (v, { p with offset := p.offset + 8 }) := by
  rw [hw.unpackLong_eq, toNat_unpackFixedBytes hw h hv hr]

/-- A length-prefixed slice within its limit. -/
theorem unpackLimitedBytes_append (hw : w.Spec) (h : p.err = none) {b : Bytes} {limit : ℕ}
    (hb : b.length < 256 ^ 4) (hl : b.length ≤ limit) (hr : p.rest = ofNat 4 b.length ++ b ++ tail) :
    w.unpackLimitedBytes limit p = (b, { p with offset := p.offset + 4 + b.length }) := by
  have hi := unpackInt_append hw h hb (by rw [hr, List.append_assoc])
  have hr' : ({ p with offset := p.offset + 4 } : Packer).rest = b ++ tail := by
    have := Packer.rest_advance (b := ofNat 4 b.length) (by rw [hr, List.append_assoc])
    simpa using this
  rw [hw.unpackLimitedBytes_eq, hi]
  simp only [hl, if_true]
  have h' : ({ p with offset := p.offset + 4 } : Packer).err = none := h
  exact unpackFixedBytes_append hw h' hr'

theorem unpackBytes_append (hw : w.Spec) (h : p.err = none) {b : Bytes}
    (hb : b.length < 256 ^ 4) (hr : p.rest = ofNat 4 b.length ++ b ++ tail) :
    w.unpackBytes p = (b, { p with offset := p.offset + 4 + b.length }) := by
  have hi := unpackInt_append hw h hb (by rw [hr, List.append_assoc])
  have hr' : ({ p with offset := p.offset + 4 } : Packer).rest = b ++ tail := by
    have := Packer.rest_advance (b := ofNat 4 b.length) (by rw [hr, List.append_assoc])
    simpa using this
  rw [hw.unpackBytes_eq, hi]
  have h' : ({ p with offset := p.offset + 4 } : Packer).err = none := h
  exact unpackFixedBytes_append hw h' hr'

/-- A string: a `short` length, then its bytes. -/
theorem unpackStr_append (hw : w.Spec) (h : p.err = none) {b : Bytes} (hb : b.length < 256 ^ 2)
    (hr : p.rest = ofNat 2 b.length ++ b ++ tail) :
    w.unpackStr p = (b, { p with offset := p.offset + 2 + b.length }) := by
  have hs : w.unpackShort p = (b.length, { p with offset := p.offset + 2 }) := by
    rw [hw.unpackShort_eq, toNat_unpackFixedBytes hw h hb (by rw [hr, List.append_assoc])]
  have hr' : ({ p with offset := p.offset + 2 } : Packer).rest = b ++ tail :=
    Packer.rest_advance_of_length (by rw [hr, List.append_assoc]) (length_ofNat 2 b.length)
  rw [hw.unpackStr_eq, hs]
  have h' : ({ p with offset := p.offset + 2 } : Packer).err = none := h
  exact unpackFixedBytes_append hw h' hr'

end Reads

/-! ## The methods of `codec.Packer` -/

/-- `ids.IDLen`. -/
def idLen : ℕ := 32

/-- `codec.AddressLen`: a type byte and 32 bytes. -/
def addressLen : ℕ := 33

/-- Go's `copy(dst, src)`: the first `min (len dst) (len src)` bytes of `dst` replaced. -/
def goCopy (dst src : Bytes) : Bytes := src.take dst.length ++ dst.drop src.length

/-- Go's `int64(v)` of a `uint64`: two's complement. -/
def toInt64 (v : ℕ) : ℤ := if v < 2 ^ 63 then v else (v : ℤ) - 2 ^ 64

variable (w : Wrappers)

/-- `UnpackID`: 32 bytes copied into `dest`; a required ID must not be all zeros. -/
def unpackID (required : Bool) (dest : Bytes) (p : Packer) : Bytes × Packer :=
  let (b, p) := w.unpackFixedBytes idLen p
  let id := goCopy dest b
  (id, if required && id == List.replicate idLen 0 then p.addErr .fieldNotPopulated else p)

/-- `UnpackAddress`: 33 bytes copied into `dest`, which must not end up all zeros. -/
def unpackAddress (dest : Bytes) (p : Packer) : Bytes × Packer :=
  let (b, p) := w.unpackFixedBytes addressLen p
  let a := goCopy dest b
  (a, if a == List.replicate addressLen 0 then p.addErr .fieldNotPopulated else p)

/-- `UnpackFixedBytes`: `size` bytes copied into `dest`. -/
def unpackFixedBytes (size : ℕ) (dest : Bytes) (p : Packer) : Bytes × Packer :=
  let (b, p) := w.unpackFixedBytes size p
  (goCopy dest b, p)

/-- `UnpackBytes`: a length-prefixed slice, limited to `uint32(limit)` bytes when `limit ≥ 0`. -/
def unpackBytes (limit : ℤ) (required : Bool) (p : Packer) : Bytes × Packer :=
  let (b, p) := if 0 ≤ limit then w.unpackLimitedBytes (limit % 2 ^ 32).toNat p else w.unpackBytes p
  (b, if required && b.isEmpty then p.addErr .fieldNotPopulated else p)

/-- `UnpackUint64`. -/
def unpackUint64 (required : Bool) (p : Packer) : ℕ × Packer :=
  let (v, p) := w.unpackLong p
  (v, if required && v == 0 then p.addErr .fieldNotPopulated else p)

/-- `UnpackInt64`. -/
def unpackInt64 (required : Bool) (p : Packer) : ℤ × Packer :=
  let (v, p) := w.unpackLong p
  (toInt64 v, if required && v == 0 then p.addErr .fieldNotPopulated else p)

/-- `UnpackInt`: a `uint32`, as a Go `int`. -/
def unpackInt (required : Bool) (p : Packer) : ℕ × Packer :=
  let (v, p) := w.unpackInt p
  (v, if required && v == 0 then p.addErr .fieldNotPopulated else p)

/-- `UnpackString`. -/
def unpackString (required : Bool) (p : Packer) : Bytes × Packer :=
  let (s, p) := w.unpackStr p
  (s, if required && s.isEmpty then p.addErr .fieldNotPopulated else p)

section Reads

variable {w} {p : Packer} {tail : Bytes}

theorem goCopy_of_length_eq {dst src : Bytes} (h : src.length = dst.length) : goCopy dst src = src := by
  simp [goCopy, h]

theorem toInt64_of_lt {v : ℕ} (h : v < 2 ^ 63) : toInt64 v = v := by
  unfold toInt64
  rw [if_pos h]

/-- `uint64(v)` of an `int64(v)` read from `v`. -/
theorem toNat_emod_toInt64 {v : ℕ} (h : v < 2 ^ 64) : (toInt64 v % 2 ^ 64).toNat = v := by
  unfold toInt64
  split_ifs <;> omega

/-- `int64(v)` of a `uint64` is an `int64`. -/
theorem toInt64_bounds {v : ℕ} (h : v < 2 ^ 64) : -2 ^ 63 ≤ toInt64 v ∧ toInt64 v < 2 ^ 63 := by
  unfold toInt64
  split_ifs <;> omega

/-- `int64(uint64(v))` of an `int64`. -/
theorem toInt64_toNat_emod {v : ℤ} (h₁ : -2 ^ 63 ≤ v) (h₂ : v < 2 ^ 63) :
    toInt64 (v % 2 ^ 64).toNat = v := by
  unfold toInt64
  split_ifs <;> omega

theorem unpackInt64_append (hw : w.Spec) (h : p.err = none) {v : ℕ} (hv : v < 2 ^ 63)
    (hv0 : v ≠ 0) (hr : p.rest = ofNat 8 v ++ tail) :
    unpackInt64 w true p = ((v : ℤ), { p with offset := p.offset + 8 }) := by
  have hl : v < 256 ^ 8 := lt_of_lt_of_le hv (by decide)
  simp [unpackInt64, unpackLong_append hw h hl hr, toInt64_of_lt hv, hv0]

theorem unpackUint64_append (hw : w.Spec) (h : p.err = none) {v : ℕ} (hv : v < 2 ^ 64)
    (hv0 : v ≠ 0) (hr : p.rest = ofNat 8 v ++ tail) :
    unpackUint64 w true p = (v, { p with offset := p.offset + 8 }) := by
  have hl : v < 256 ^ 8 := lt_of_lt_of_le hv (by decide)
  simp [unpackUint64, unpackLong_append hw h hl hr, hv0]

theorem unpackInt_append_required (hw : w.Spec) (h : p.err = none) {v : ℕ} (hv : v < 256 ^ 4)
    (hv0 : v ≠ 0) (hr : p.rest = ofNat 4 v ++ tail) :
    unpackInt w true p = (v, { p with offset := p.offset + 4 }) := by
  simp [unpackInt, unpackInt_append hw h hv hr, hv0]

/-- A required ID that is not all zeros. -/
theorem unpackID_append (hw : w.Spec) (h : p.err = none) {id : Bytes} (hl : id.length = idLen)
    (h0 : id ≠ List.replicate idLen 0) (hr : p.rest = id ++ tail) :
    unpackID w true (List.replicate idLen 0) p = (id, { p with offset := p.offset + idLen }) := by
  have hb := unpackFixedBytes_append hw h hr
  rw [hl] at hb
  simp [unpackID, hb, goCopy_of_length_eq (hl.trans (List.length_replicate).symm), h0]

/-- An address that is not all zeros. -/
theorem unpackAddress_append (hw : w.Spec) (h : p.err = none) {a : Bytes}
    (hl : a.length = addressLen) (h0 : a ≠ List.replicate addressLen 0) (hr : p.rest = a ++ tail) :
    unpackAddress w (List.replicate addressLen 0) p = (a, { p with offset := p.offset + addressLen }) := by
  have hb := unpackFixedBytes_append hw h hr
  rw [hl] at hb
  simp [unpackAddress, hb, goCopy_of_length_eq (hl.trans (List.length_replicate).symm), h0]

theorem unpackUint64_append_of_not_required (hw : w.Spec) (h : p.err = none) {v : ℕ}
    (hv : v < 2 ^ 64) (hr : p.rest = ofNat 8 v ++ tail) :
    unpackUint64 w false p = (v, { p with offset := p.offset + 8 }) := by
  have hl : v < 256 ^ 8 := lt_of_lt_of_le hv (by decide)
  simp [unpackUint64, unpackLong_append hw h hl hr]

/-- An ID that need not be set: any 32 bytes. -/
theorem unpackID_append_of_not_required (hw : w.Spec) (h : p.err = none) {id : Bytes}
    (hl : id.length = idLen) (hr : p.rest = id ++ tail) :
    unpackID w false (List.replicate idLen 0) p = (id, { p with offset := p.offset + idLen }) := by
  have hb := unpackFixedBytes_append hw h hr
  rw [hl] at hb
  simp [unpackID, hb, goCopy_of_length_eq (hl.trans (List.length_replicate).symm)]

/-- An `int64` that need not be set, written as the eight bytes of `uint64(v)`. -/
theorem unpackInt64_append_of_not_required (hw : w.Spec) (h : p.err = none) {v : ℤ}
    (h₁ : -2 ^ 63 ≤ v) (h₂ : v < 2 ^ 63) (hr : p.rest = ofNat 8 (v % 2 ^ 64).toNat ++ tail) :
    unpackInt64 w false p = (v, { p with offset := p.offset + 8 }) := by
  have hl : (v % 2 ^ 64).toNat < 256 ^ 8 := by omega
  rw [unpackInt64, unpackLong_append hw h hl hr]
  exact congrArg (·, _) (toInt64_toNat_emod h₁ h₂)

theorem unpackInt_append_of_not_required (hw : w.Spec) (h : p.err = none) {v : ℕ}
    (hv : v < 256 ^ 4) (hr : p.rest = ofNat 4 v ++ tail) :
    unpackInt w false p = (v, { p with offset := p.offset + 4 }) := by
  simp [unpackInt, unpackInt_append hw h hv hr]

theorem unpackString_append (hw : w.Spec) (h : p.err = none) {b : Bytes} (hb : b.length < 256 ^ 2)
    (hr : p.rest = ofNat 2 b.length ++ b ++ tail) :
    unpackString w false p = (b, { p with offset := p.offset + 2 + b.length }) := by
  simp [unpackString, unpackStr_append hw h hb hr]

end Reads

/-- `Empty`: every byte was read. -/
def Packer.empty (p : Packer) : Bool := p.offset == p.bytes.length

/-- `NewReader`. -/
def newReader (src : Bytes) (limit : ℕ) : Packer := ⟨src, 0, limit, none⟩

/-! ## Type parsers -/

/-- A registered decoder, `func(*Packer) (T, error)`: a value and the packer after it, an error,
or a panic (`none`). -/
abbrev Decoder (ε T : Type) := Packer → ExceptT ε Option (T × Packer)

/-- The errors of `TypeParser.Register`. -/
inductive RegisterError
  | tooManyItems
  | duplicateItem
  deriving DecidableEq, Repr

/-- `TypeParser`: the decoders registered so far, by type byte, in registration order. -/
structure TypeParser (ε T : Type) where
  indexToDecoder : List (UInt8 × Decoder ε T)

namespace TypeParser

variable {ε T : Type}

/-- `NewTypeParser`. -/
def new : TypeParser ε T := ⟨[]⟩

/-- `LookupIndex`. -/
def lookupIndex (tp : TypeParser ε T) (index : UInt8) : Option (Decoder ε T) :=
  (tp.indexToDecoder.find? (·.1 == index)).map (·.2)

/-- `Register`: at most 256 decoders, one for each type byte. -/
def register (tp : TypeParser ε T) (id : UInt8) (f : Decoder ε T) :
    Except RegisterError (TypeParser ε T) :=
  if tp.indexToDecoder.length = 256 then .error .tooManyItems
  else if (tp.lookupIndex id).isSome then .error .duplicateItem
  else .ok ⟨tp.indexToDecoder ++ [(id, f)]⟩

end TypeParser

/-! ## Reading further

`Advances p p'`: `p'` is `p` read further. Each read of `codec.Packer` advances its packer
(`advances_unpackFixedBytes` and those after it); a decoder of a registry is asked to
(`Decoder.Reads`). `ReadsAs q p e`: `q` has left, first, the bytes of `p` from its offset up to
`e`, so that a read of `p` within them reads the same from `q` (`unpackFixedBytes_readsAs`); a
decoder is asked to read so as well (`Decoder.Local`). -/

/-- `p'` is `p` read further: the same bytes, the offset moved forward and kept within them, an
error kept. -/
structure Packer.Advances (p p' : Packer) : Prop where
  bytes : p'.bytes = p.bytes
  offset : p.offset ≤ p'.offset
  within : p.offset ≤ p.bytes.length → p'.offset ≤ p'.bytes.length
  err : p'.err = none → p.err = none

/-- `q` reads as `p` up to offset `e` of `p`'s bytes: neither has an error, and what `q` has
left starts with the bytes of `p` from its offset up to `e`. -/
structure Packer.ReadsAs (q p : Packer) (e : ℕ) : Prop where
  err : p.err = none
  err_q : q.err = none
  le : p.offset ≤ e
  within : e ≤ p.bytes.length
  starts : ∃ tail, q.rest = (p.bytes.take e).drop p.offset ++ tail

/-- A decoder that moves through its packer only by reading it, as one that calls only the
reads of `codec.Packer` does. -/
def Decoder.Reads {ε T : Type} (d : Decoder ε T) : Prop :=
  ∀ p x p', (d p).run = some (.ok (x, p')) → p.Advances p'

/-- A decoder whose success depends only on the bytes it consumes: where it succeeds without an
error, it does the same from a packer that reads as its own over those bytes. -/
def Decoder.Local {ε T : Type} (d : Decoder ε T) : Prop :=
  ∀ p x p' q e, (d p).run = some (.ok (x, p')) → p'.err = none → p'.offset ≤ e →
    q.ReadsAs p e → (d q).run = some (.ok (x, { q with offset := q.offset + (p'.offset - p.offset) }))

/-- A registry whose decoders all read, and only what they consume. -/
structure TypeParser.Reads {ε T : Type} (tp : TypeParser ε T) : Prop where
  reads : ∀ i d, tp.lookupIndex i = some d → d.Reads
  relocates : ∀ i d, tp.lookupIndex i = some d → d.Local

namespace Packer

variable {p p' p'' q : Packer}

theorem Advances.refl (p : Packer) : p.Advances p := ⟨rfl, le_rfl, id, id⟩

theorem Advances.trans (h : p.Advances p') (h' : p'.Advances p'') : p.Advances p'' where
  bytes := h'.bytes.trans h.bytes
  offset := h.offset.trans h'.offset
  within := fun hp => h'.within (h.within hp)
  err := fun he => h.err (h'.err he)

theorem advances_addErr (p : Packer) (e : PackerError) : p.Advances (p.addErr e) where
  bytes := rfl
  offset := le_rfl
  within := id
  err := fun he => by simp [addErr] at he

theorem rest_add (p : Packer) (n : ℕ) :
    ({ p with offset := p.offset + n } : Packer).rest = p.rest.drop n := by
  simp only [rest, List.drop_drop, Nat.add_comm]

/-- What `p` has left is the `n` bytes a read takes and what it leaves. -/
theorem rest_eq_take_append (p : Packer) (n : ℕ) :
    p.rest = p.rest.take n ++ ({ p with offset := p.offset + n } : Packer).rest := by
  rw [rest_add, List.take_append_drop]

theorem advances_add {n : ℕ} (h : n ≤ p.rest.length) :
    p.Advances { p with offset := p.offset + n } where
  bytes := rfl
  offset := Nat.le_add_right _ _
  within _ := by
    simp only [rest, List.length_drop] at h
    simp only
    omega
  err := id

/-- What `p'` has read beyond `p` is what `p` had left, up to what `p'` has left. -/
theorem Advances.rest_eq (h : p.Advances p') :
    p.rest = (p.bytes.take p'.offset).drop p.offset ++ p'.rest := by
  have ho := h.offset
  have hd : p.bytes.drop p'.offset = (p.bytes.drop p.offset).drop (p'.offset - p.offset) := by
    rw [List.drop_drop]
    congr 1
    omega
  simp only [rest, h.bytes]
  rw [List.drop_take, hd, List.take_append_drop]

/-- Where `p` has read further without an error, within `e`, a packer that reads as `p` read
as far reads as the packer `p` became. -/
theorem ReadsAs.advance {e : ℕ} (hq : q.ReadsAs p e) (h : p.Advances p') (he : p'.err = none)
    (hle : p'.offset ≤ e) :
    ReadsAs { q with offset := q.offset + (p'.offset - p.offset) } p' e := by
  obtain ⟨tail, htail⟩ := hq.starts
  have hlen : p'.offset - p.offset ≤ ((p.bytes.take e).drop p.offset).length := by
    simp only [List.length_drop, List.length_take]
    have := hq.within
    omega
  refine ⟨he, hq.err_q, hle, h.bytes ▸ hq.within, tail, ?_⟩
  rw [rest_add, htail, List.drop_append_of_le_length hlen, List.drop_drop, h.bytes]
  congr 2
  have := h.offset
  omega

/-- A packer that reads as `p` has the same bytes from its offset as `p` from its own. -/
theorem ReadsAs.slice_eq {e d : ℕ} (hq : q.ReadsAs p e) (hd : p.offset ≤ d) (hde : d ≤ e) :
    (q.bytes.take (q.offset + (d - p.offset))).drop q.offset = (p.bytes.take d).drop p.offset := by
  obtain ⟨tail, htail⟩ := hq.starts
  have hlen : d - p.offset ≤ ((p.bytes.take e).drop p.offset).length := by
    simp only [List.length_drop, List.length_take]
    have := hq.within
    omega
  have hq' : (q.bytes.take (q.offset + (d - p.offset))).drop q.offset = q.rest.take (d - p.offset) := by
    rw [List.drop_take, Nat.add_sub_cancel_left]
    rfl
  rw [hq', htail, List.take_append_of_le_length hlen, List.drop_take, List.drop_take,
    List.take_take, Nat.min_eq_left (by omega)]

end Packer

/-- `d` read `x` from `p` up to `p'` and left no error, and it reads `x` so from every packer
that reads as `p` over the bytes it read: what `Decoder.Reads` and `Decoder.Local` give of one
successful read, and what a chain of reads has when each of its reads has it. -/
structure Decoder.ReadAt {ε T : Type} (d : Decoder ε T) (p : Packer) (x : T) (p' : Packer) :
    Prop where
  run : d p = pure (x, p')
  advances : p.Advances p'
  err : p'.err = none
  relocates : ∀ q e, p'.offset ≤ e → q.ReadsAs p e →
    d q = pure (x, { q with offset := q.offset + (p'.offset - p.offset) })

namespace Decoder.ReadAt

variable {ε T : Type} {d : Decoder ε T} {p p' q : Packer} {x : T} {e : ℕ}

theorem err_eq_none (h : d.ReadAt p x p') : p.err = none := h.advances.err h.err

theorem readsAs (h : d.ReadAt p x p') (hq : q.ReadsAs p e) (hle : p'.offset ≤ e) :
    Packer.ReadsAs { q with offset := q.offset + (p'.offset - p.offset) } p' e :=
  hq.advance h.advances h.err hle

/-- The read from a packer that reads as `p`, with the packer it leaves named. -/
theorem relocate (h : d.ReadAt p x p') (hle : p'.offset ≤ e) (hq : q.ReadsAs p e) :
    ∃ q', d q = pure (x, q') ∧ q'.ReadsAs p' e ∧
      q' = { q with offset := q.offset + (p'.offset - p.offset) } :=
  ⟨_, h.relocates q e hle hq, h.readsAs hq hle, rfl⟩

end Decoder.ReadAt

/-- A decoder of a registry that reads reads so at each read it makes without an error. -/
theorem TypeParser.Reads.readAt {ε T : Type} {tp : TypeParser ε T} (h : tp.Reads) {i : UInt8}
    {d : Decoder ε T} (hl : tp.lookupIndex i = some d) {p p' : Packer} {x : T}
    (hd : d p = pure (x, p')) (he : p'.err = none) : d.ReadAt p x p' :=
  ⟨hd, h.reads i d hl p x p' hd, he, fun q e hle hq => h.relocates i d hl p x p' q e hd he hle hq⟩

section Advancing

variable {w : Wrappers} {p q : Packer}

/-- A read of `n` bytes that leaves no error had none before and `n` bytes to read. -/
theorem unpackFixedBytes_of_err_eq_none (hw : w.Spec) {n : ℕ}
    (h : (w.unpackFixedBytes n p).2.err = none) :
    p.err = none ∧ n ≤ p.rest.length ∧
      w.unpackFixedBytes n p = (p.rest.take n, { p with offset := p.offset + n }) := by
  have he : p.err = none := by
    by_contra hne
    rw [hw.unpackFixedBytes_of_isSome n p (Option.ne_none_iff_isSome.mp hne)] at h
    exact hne h
  by_cases hn : n ≤ p.rest.length
  · exact ⟨he, hn, hw.unpackFixedBytes_of_le n p he hn⟩
  · rw [hw.unpackFixedBytes_of_lt n p he (by omega)] at h
    simp [he] at h

theorem advances_unpackFixedBytes (hw : w.Spec) (n : ℕ) (p : Packer) :
    p.Advances (w.unpackFixedBytes n p).2 := by
  by_cases he : p.err.isSome
  · rw [hw.unpackFixedBytes_of_isSome n p he]
    exact Packer.Advances.refl p
  · have he' : p.err = none := Option.not_isSome_iff_eq_none.mp he
    by_cases hn : n ≤ p.rest.length
    · rw [hw.unpackFixedBytes_of_le n p he' hn]
      refine ⟨rfl, by simp, fun _ => ?_, fun _ => he'⟩
      simp only [Packer.rest, List.length_drop] at hn ⊢
      omega
    · rw [hw.unpackFixedBytes_of_lt n p he' (by omega)]
      exact Packer.advances_addErr p _

/-- A read from a packer that reads as `p` over the bytes read reads the same. -/
theorem unpackFixedBytes_readsAs (hw : w.Spec) {n e : ℕ}
    (h : (w.unpackFixedBytes n p).2.err = none) (hn : p.offset + n ≤ e) (hq : q.ReadsAs p e) :
    w.unpackFixedBytes n q = ((w.unpackFixedBytes n p).1, { q with offset := q.offset + n }) ∧
      Packer.ReadsAs { q with offset := q.offset + n } { p with offset := p.offset + n } e := by
  obtain ⟨-, hle, hp⟩ := unpackFixedBytes_of_err_eq_none hw h
  obtain ⟨tail, htail⟩ := hq.starts
  -- the bytes of `p` up to `e`, split at the `n` read
  have h₁ : ((p.bytes.take e).drop p.offset).take n = p.rest.take n := by
    rw [List.drop_take, List.take_take, Nat.min_eq_left (by omega)]
    rfl
  have h₂ : ((p.bytes.take e).drop p.offset).drop n = (p.bytes.take e).drop (p.offset + n) := by
    rw [List.drop_drop, Nat.add_comm]
  have hr : q.rest = p.rest.take n ++ ((p.bytes.take e).drop (p.offset + n) ++ tail) := by
    rw [htail, ← List.take_append_drop n ((p.bytes.take e).drop p.offset), h₁, h₂,
      List.append_assoc]
  have hlen : (p.rest.take n).length = n := List.length_take_of_le hle
  have hq' := unpackFixedBytes_append hw hq.err_q hr
  rw [hlen] at hq'
  refine ⟨by rw [hq', hp], ⟨hq.err, hq.err_q, hn, hq.within, ?_⟩⟩
  exact ⟨tail, by rw [Packer.rest_advance_of_length hr hlen]⟩

/-- A read of `n` bytes, decoded by `g`, with `err` added where `bad` holds of them: the shape
of each read of `codec.Packer`. -/
def decodeRead {γ : Type} (w : Wrappers) (n : ℕ) (g : Bytes → γ) (bad : Bytes → Bool)
    (err : PackerError) (p : Packer) : γ × Packer :=
  let r := w.unpackFixedBytes n p
  (g r.1, if bad r.1 then r.2.addErr err else r.2)

section DecodeRead

variable {γ : Type} {n : ℕ} {g : Bytes → γ} {bad : Bytes → Bool} {err : PackerError}

theorem advances_decodeRead (hw : w.Spec) (p : Packer) :
    p.Advances (decodeRead w n g bad err p).2 := by
  have h := advances_unpackFixedBytes hw n p
  simp only [decodeRead]
  split
  · exact h.trans (Packer.advances_addErr _ err)
  · exact h

/-- A read that leaves no error read its `n` bytes, and they passed its check. -/
theorem decodeRead_of_err_eq_none (hw : w.Spec) (h : (decodeRead w n g bad err p).2.err = none) :
    p.err = none ∧ n ≤ p.rest.length ∧ bad (p.rest.take n) = false ∧
      decodeRead w n g bad err p = (g (p.rest.take n), { p with offset := p.offset + n }) := by
  have hr : (w.unpackFixedBytes n p).2.err = none := (advances_addErr_err h).2
  obtain ⟨he, hn, hp⟩ := unpackFixedBytes_of_err_eq_none hw hr
  have hbad : bad (p.rest.take n) = false := by
    by_contra hb
    simp only [decodeRead, hp] at h
    rw [if_pos (by simpa using hb)] at h
    simp [Packer.addErr, he] at h
  refine ⟨he, hn, hbad, ?_⟩
  simp only [decodeRead, hp, hbad]
  rfl
where
  advances_addErr_err {p' : Packer} {c : Bool}
      (h : (if c then p'.addErr err else p').err = none) : c = false ∧ p'.err = none := by
    cases c
    · exact ⟨rfl, h⟩
    · simp [Packer.addErr] at h

/-- A read that returned `(x, p₁)` with no error read its `n` bytes at `p`. -/
theorem decodeRead_inv (hw : w.Spec) {x : γ} {p₁ : Packer}
    (h : decodeRead w n g bad err p = (x, p₁)) (he : p₁.err = none) :
    p.err = none ∧ n ≤ p.rest.length ∧ bad (p.rest.take n) = false ∧
      x = g (p.rest.take n) ∧ p₁ = { p with offset := p.offset + n } := by
  obtain ⟨hpe, hn, hbad, hp⟩ := decodeRead_of_err_eq_none hw (by rw [h]; exact he)
  rw [hp, Prod.mk.injEq] at h
  exact ⟨hpe, hn, hbad, h.1.symm, h.2.symm⟩

/-- A read of bytes that pass its check. -/
theorem decodeRead_append (hw : w.Spec) (h : p.err = none) {b tail : Bytes}
    (hr : p.rest = b ++ tail) (hb : bad b = false) :
    decodeRead w b.length g bad err p = (g b, { p with offset := p.offset + b.length }) := by
  simp only [decodeRead, unpackFixedBytes_append hw h hr, hb]
  rfl

/-- A read from a packer that reads as `p` over the bytes read reads the same. -/
theorem decodeRead_readsAs (hw : w.Spec) {e : ℕ} (h : (decodeRead w n g bad err p).2.err = none)
    (hn : p.offset + n ≤ e) (hq : q.ReadsAs p e) :
    decodeRead w n g bad err q = ((decodeRead w n g bad err p).1, { q with offset := q.offset + n }) ∧
      Packer.ReadsAs { q with offset := q.offset + n } { p with offset := p.offset + n } e := by
  obtain ⟨he, hle, hbad, hp⟩ := decodeRead_of_err_eq_none hw h
  have hp' := hw.unpackFixedBytes_of_le n p he hle
  have hr : (w.unpackFixedBytes n p).2.err = none := by
    rw [hp']
    exact he
  obtain ⟨hq', hreads⟩ := unpackFixedBytes_readsAs hw hr hn hq
  refine ⟨?_, hreads⟩
  rw [hp]
  simp only [decodeRead, hq', hp', hbad]
  rfl

/-- A read that returned `(x, p₁)` with no error split what `p` had left into the `n` bytes it
decoded and what `p₁` has left. -/
theorem decodeRead_split (hw : w.Spec) {x : γ} {p₁ : Packer}
    (h : decodeRead w n g bad err p = (x, p₁)) (he : p₁.err = none) :
    p.err = none ∧ ∃ b, b.length = n ∧ x = g b ∧ bad b = false ∧ p.rest = b ++ p₁.rest := by
  obtain ⟨hpe, hn, hbad, rfl, rfl⟩ := decodeRead_inv hw h he
  exact ⟨hpe, p.rest.take n, List.length_take_of_le hn, rfl, hbad, Packer.rest_eq_take_append p n⟩

/-- A read that returned `(x, p₁)` with no error advanced `n` bytes, and reads `x` again from a
packer that reads as `p` over them. -/
theorem decodeRead_relocate (hw : w.Spec) {x : γ} {p₁ : Packer}
    (hb : decodeRead w n g bad err p = (x, p₁)) (he : p₁.err = none) :
    p.Advances p₁ ∧ p₁.offset = p.offset + n ∧
      ∀ q e, p₁.offset ≤ e → q.ReadsAs p e →
        decodeRead w n g bad err q = (x, { q with offset := q.offset + n }) ∧
          Packer.ReadsAs { q with offset := q.offset + n } p₁ e := by
  have hadv : p.Advances p₁ := by
    rw [show p₁ = (decodeRead w n g bad err p).2 by rw [hb]]
    exact advances_decodeRead hw p
  obtain ⟨-, -, -, -, hp₁⟩ := decodeRead_inv hw hb he
  have ho : p₁.offset = p.offset + n := by rw [hp₁]
  refine ⟨hadv, ho, fun q e hle hq => ?_⟩
  obtain ⟨hq₁, hr₁⟩ := decodeRead_readsAs hw (by rw [hb]; exact he) (by omega) hq
  rw [hb] at hq₁
  rw [← hp₁] at hr₁
  exact ⟨hq₁, hr₁⟩

end DecodeRead

theorem unpackByte_eq_decodeRead (hw : w.Spec) (p : Packer) :
    w.unpackByte p = decodeRead w 1 (·.headD 0) (fun _ => false) .wrappers p := by
  rw [hw.unpackByte_eq]
  rfl

theorem unpackID_eq_decodeRead (required : Bool) (dest : Bytes) (p : Packer) :
    unpackID w required dest p =
      decodeRead w idLen (goCopy dest)
        (fun b => required && goCopy dest b == List.replicate idLen 0) .fieldNotPopulated p :=
  rfl

theorem unpackInt64_eq_decodeRead (hw : w.Spec) (required : Bool) (p : Packer) :
    unpackInt64 w required p =
      decodeRead w 8 (fun b => toInt64 (toNat b)) (fun b => required && toNat b == 0)
        .fieldNotPopulated p := by
  rw [unpackInt64, hw.unpackLong_eq]
  rfl

theorem unpackUint64_eq_decodeRead (hw : w.Spec) (required : Bool) (p : Packer) :
    unpackUint64 w required p =
      decodeRead w 8 toNat (fun b => required && toNat b == 0) .fieldNotPopulated p := by
  rw [unpackUint64, hw.unpackLong_eq]
  rfl

theorem unpackInt_eq_decodeRead (hw : w.Spec) (required : Bool) (p : Packer) :
    unpackInt w required p =
      decodeRead w 4 toNat (fun b => required && toNat b == 0) .fieldNotPopulated p := by
  rw [unpackInt, hw.unpackInt_eq]
  rfl

end Advancing

/-! ## Writes -/

/-- The writes of avalanchego's `wrappers.Packer` that `codec.Packer` calls. -/
structure Writers where
  packFixedBytes : Bytes → Packer → Packer
  packByte : UInt8 → Packer → Packer
  packInt : ℕ → Packer → Packer
  packLong : ℕ → Packer → Packer

/-- The documented behaviour of avalanchego's writes, on a packer being written, whose offset
is the end of its bytes: a write appends, or records an error where the bytes would grow past
`MaxSize`, and does nothing once an error is recorded; the integers are big-endian. -/
structure Writers.Spec (wr : Writers) : Prop where
  packFixedBytes_of_le : ∀ b p, p.err = none → p.offset = p.bytes.length →
    p.offset + b.length ≤ p.maxSize →
      wr.packFixedBytes b p = { p with bytes := p.bytes ++ b, offset := p.offset + b.length }
  packFixedBytes_of_lt : ∀ b p, p.err = none → p.offset = p.bytes.length →
    p.maxSize < p.offset + b.length → wr.packFixedBytes b p = p.addErr .wrappers
  packFixedBytes_of_isSome : ∀ b p, p.err.isSome = true → wr.packFixedBytes b p = p
  packByte_eq : ∀ x p, wr.packByte x p = wr.packFixedBytes [x] p
  packInt_eq : ∀ v p, wr.packInt v p = wr.packFixedBytes (ofNat 4 v) p
  packLong_eq : ∀ v p, wr.packLong v p = wr.packFixedBytes (ofNat 8 v) p

namespace Writers

/-- A write of `b` at the offset, as avalanchego documents it. -/
def fixedBytes (b : Bytes) (p : Packer) : Packer :=
  if p.err.isSome then p
  else if p.offset + b.length ≤ p.maxSize then
    { p with bytes := writeBytes p.bytes p.offset b, offset := p.offset + b.length }
  else p.addErr .wrappers

/-- avalanchego's writes on a byte list, big-endian, each refusing to write past `maxSize`. -/
def writers : Writers where
  packFixedBytes := fixedBytes
  packByte x := fixedBytes [x]
  packInt v := fixedBytes (ofNat 4 v)
  packLong v := fixedBytes (ofNat 8 v)

theorem writers_spec : writers.Spec where
  packFixedBytes_of_le b p h ho hle := by
    rw [ho] at hle
    simp [writers, fixedBytes, h, hle, writeBytes, ho]
  packFixedBytes_of_lt b p h _ hlt := by simp [writers, fixedBytes, h, Nat.not_le.mpr hlt]
  packFixedBytes_of_isSome b p h := by simp [writers, fixedBytes, h]
  packByte_eq _ _ := rfl
  packInt_eq _ _ := rfl
  packLong_eq _ _ := rfl

end Writers

variable (wr : Writers)

/-- `NewWriter`; the capacity it is given changes nothing here. -/
def newWriter (limit : ℕ) : Packer := ⟨[], 0, limit, none⟩

/-- `PackID`. -/
def packID (src : Bytes) (p : Packer) : Packer := wr.packFixedBytes src p

/-- `PackUint64`. -/
def packUint64 (v : ℕ) (p : Packer) : Packer := wr.packLong v p

/-- `PackInt64`: `uint64(v)`, of the same bits. -/
def packInt64 (v : ℤ) (p : Packer) : Packer := wr.packLong (v % 2 ^ 64).toNat p

/-- `PackInt`: `uint32(v)`. -/
def packInt (v : ℕ) (p : Packer) : Packer := wr.packInt (v % 2 ^ 32) p

/-- `PackBool`: a byte, 1 or 0. -/
def packBool (b : Bool) (p : Packer) : Packer := wr.packByte (if b then 1 else 0) p

/-- `PackBytes`: a `uint32` length, then the bytes. -/
def packBytes (b : Bytes) (p : Packer) : Packer := wr.packFixedBytes b (wr.packInt (b.length % 2 ^ 32) p)

/-- `PackAddress`: the address's bytes as they are. -/
def packAddress (a : Bytes) (p : Packer) : Packer := wr.packFixedBytes a p

/-- `wrappers.MaxStringLen`, the largest length a `short` holds. -/
def Consts.maxStringLen : ℕ := 2 ^ 16 - 1

/-- `PackString`, avalanchego's `PackStr`: a string longer than `MaxStringLen` records an
error; otherwise a `short` length, written big-endian as `PackShort` does, then the bytes. -/
def packString (s : Bytes) (p : Packer) : Packer :=
  if Consts.maxStringLen < s.length then p.addErr .wrappers
  else wr.packFixedBytes s (wr.packFixedBytes (ofNat 2 s.length) p)

/-- `codec.BytesLen`: the length of a slice packed by `PackBytes`. -/
def bytesLen (msg : Bytes) : ℕ := 4 + msg.length

/-- A packer being written, with `b` written more. -/
def Packer.written (p : Packer) (b : Bytes) : Packer :=
  { p with bytes := p.bytes ++ b, offset := p.offset + b.length }

/-- A packer being written: no error yet, and the offset at the end of its bytes. -/
structure Packer.Writing (p : Packer) : Prop where
  err : p.err = none
  offset : p.offset = p.bytes.length

section Writing

variable {wr} {p : Packer}

/-- Within `MaxSize`, a write appends. -/
theorem packFixedBytes_append (hwr : wr.Spec) (h : p.err = none) (ho : p.offset = p.bytes.length)
    {b : Bytes} (hle : p.bytes.length + b.length ≤ p.maxSize) :
    wr.packFixedBytes b p = { p with bytes := p.bytes ++ b, offset := (p.bytes ++ b).length } := by
  rw [hwr.packFixedBytes_of_le b p h ho (by omega), List.length_append, ho]

theorem packFixedBytes_of_isSome (hwr : wr.Spec) (h : p.err.isSome = true) (b : Bytes) :
    (wr.packFixedBytes b p).err.isSome = true := by
  rw [hwr.packFixedBytes_of_isSome b p h]
  exact h

@[simp] theorem Packer.written_bytes (p : Packer) (b : Bytes) : (p.written b).bytes = p.bytes ++ b :=
  rfl

@[simp] theorem Packer.written_err (p : Packer) (b : Bytes) : (p.written b).err = p.err := rfl

@[simp] theorem Packer.written_maxSize (p : Packer) (b : Bytes) :
    (p.written b).maxSize = p.maxSize := rfl

theorem Packer.written_written (p : Packer) (b c : Bytes) :
    (p.written b).written c = p.written (b ++ c) := by
  simp [Packer.written, List.append_assoc, Nat.add_assoc]

@[simp] theorem Packer.written_nil (p : Packer) : p.written [] = p := by simp [Packer.written]

theorem Packer.Writing.written (hp : p.Writing) (b : Bytes) : (p.written b).Writing :=
  ⟨hp.err, by simp [Packer.written, hp.offset]⟩

/-- Within `MaxSize`, a write appends. -/
theorem packFixedBytes_written (hwr : wr.Spec) (hp : p.Writing) {b : Bytes}
    (hle : p.bytes.length + b.length ≤ p.maxSize) : wr.packFixedBytes b p = p.written b :=
  hwr.packFixedBytes_of_le b p hp.err hp.offset (by rw [hp.offset]; exact hle)

theorem packByte_written (hwr : wr.Spec) (hp : p.Writing) {x : UInt8}
    (hle : p.bytes.length + 1 ≤ p.maxSize) : wr.packByte x p = p.written [x] := by
  rw [hwr.packByte_eq, packFixedBytes_written hwr hp (b := [x]) hle]

theorem packBool_written (hwr : wr.Spec) (hp : p.Writing) {b : Bool}
    (hle : p.bytes.length + 1 ≤ p.maxSize) :
    packBool wr b p = p.written [if b then 1 else 0] :=
  packByte_written hwr hp hle

theorem packUint64_written (hwr : wr.Spec) (hp : p.Writing) {v : ℕ}
    (hle : p.bytes.length + 8 ≤ p.maxSize) : packUint64 wr v p = p.written (ofNat 8 v) := by
  rw [packUint64, hwr.packLong_eq, packFixedBytes_written hwr hp (by rw [length_ofNat]; exact hle)]

theorem packInt_written (hwr : wr.Spec) (hp : p.Writing) {v : ℕ}
    (hle : p.bytes.length + 4 ≤ p.maxSize) : packInt wr v p = p.written (ofNat 4 v) := by
  rw [packInt, hwr.packInt_eq, packFixedBytes_written hwr hp (by rw [length_ofNat]; exact hle)]
  exact congrArg p.written (ofNat_mod 4 v)

/-- `PackBytes` writes `BytesLen` bytes: the length, then the slice. -/
theorem packBytes_written (hwr : wr.Spec) (hp : p.Writing) {b : Bytes}
    (hle : p.bytes.length + bytesLen b ≤ p.maxSize) :
    packBytes wr b p = p.written (ofNat 4 b.length ++ b) := by
  have h₁ : wr.packInt (b.length % 2 ^ 32) p = p.written (ofNat 4 b.length) := by
    rw [hwr.packInt_eq, packFixedBytes_written hwr hp (by simp [bytesLen] at hle ⊢; omega)]
    exact congrArg p.written (ofNat_mod 4 b.length)
  rw [packBytes, h₁, packFixedBytes_written hwr (hp.written _)
    (by simp [bytesLen] at hle ⊢; omega), Packer.written_written]

/-- `PackString` writes a string within `MaxStringLen` as its `short` length and its bytes. -/
theorem packString_written (hwr : wr.Spec) (hp : p.Writing) {s : Bytes}
    (hs : s.length ≤ Consts.maxStringLen) (hle : p.bytes.length + (2 + s.length) ≤ p.maxSize) :
    packString wr s p = p.written (ofNat 2 s.length ++ s) := by
  have h₁ : wr.packFixedBytes (ofNat 2 s.length) p = p.written (ofNat 2 s.length) :=
    packFixedBytes_written hwr hp (by rw [length_ofNat]; omega)
  rw [packString, if_neg (Nat.not_lt.mpr hs), h₁,
    packFixedBytes_written hwr (hp.written _) (by simp; omega), Packer.written_written]

/-! ### Writers that append -/

/-- `f` appends `b` to every packer being written that has room for it. -/
def Writes (f : Packer → Packer) (b : Bytes) : Prop :=
  ∀ p : Packer, p.Writing → p.bytes.length + b.length ≤ p.maxSize → f p = p.written b

/-- One write after another appends the two encodings. -/
theorem Writes.comp {f g : Packer → Packer} {b c : Bytes} (hf : Writes f b) (hg : Writes g c) :
    Writes (fun p => g (f p)) (b ++ c) := by
  intro p hp hle
  simp only [List.length_append] at hle
  show g (f p) = _
  rw [hf p hp (by omega), hg _ (hp.written b) (by simp; omega), Packer.written_written]

/-- A loop of writes appends the encodings of its elements, in order. -/
theorem Writes.foldl {ι : Type} {f : ι → Packer → Packer} {b : ι → Bytes} :
    ∀ l : List ι, (∀ i ∈ l, Writes (f i) (b i)) →
      Writes (fun p => l.foldl (fun p i => f i p) p) (l.flatMap b)
  | [], _ => fun p _ _ => by simp
  | i :: l, h => by
    have hl := Writes.foldl l fun j hj => h j (List.mem_cons_of_mem i hj)
    simpa [List.flatMap_cons] using (h i List.mem_cons_self).comp hl

theorem Writes.congr {f g : Packer → Packer} {b : Bytes} (hf : Writes f b) (h : ∀ p, g p = f p) :
    Writes g b :=
  fun p hp hle => (h p).trans (hf p hp hle)

theorem writes_packFixedBytes (hwr : wr.Spec) (b : Bytes) : Writes (wr.packFixedBytes b) b :=
  fun _ hp hle => packFixedBytes_written hwr hp hle

theorem writes_packByte (hwr : wr.Spec) (x : UInt8) : Writes (wr.packByte x) [x] :=
  fun _ hp hle => packByte_written hwr hp hle

theorem writes_packBool (hwr : wr.Spec) (b : Bool) :
    Writes (packBool wr b) [if b then 1 else 0] :=
  fun _ hp hle => packBool_written hwr hp hle

theorem writes_packUint64 (hwr : wr.Spec) (v : ℕ) : Writes (packUint64 wr v) (ofNat 8 v) :=
  fun _ hp hle => packUint64_written hwr hp (by simpa using hle)

theorem writes_packInt (hwr : wr.Spec) (v : ℕ) : Writes (packInt wr v) (ofNat 4 v) :=
  fun _ hp hle => packInt_written hwr hp (by simpa using hle)

theorem writes_packBytes (hwr : wr.Spec) (b : Bytes) :
    Writes (packBytes wr b) (ofNat 4 b.length ++ b) :=
  fun _ hp hle => packBytes_written hwr hp (by simpa [bytesLen] using hle)

theorem writes_packString (hwr : wr.Spec) {s : Bytes} (hs : s.length ≤ Consts.maxStringLen) :
    Writes (packString wr s) (ofNat 2 s.length ++ s) :=
  fun _ hp hle => packString_written hwr hp hs (by simpa using hle)

/-- `f` appends `b` to a packer being written that has room for it, records avalanchego's error
in one within its `MaxSize` that has not, and keeps the error of one that has one. -/
structure Appends (f : Packer → Packer) (b : Bytes) : Prop where
  writes : Writes f b
  overflow : ∀ p : Packer, p.Writing → p.bytes.length ≤ p.maxSize →
    p.maxSize < p.bytes.length + b.length → (f p).err = some .wrappers
  failed : ∀ (p : Packer) (e : PackerError), p.err = some e → (f p).err = some e

theorem Appends.comp {f g : Packer → Packer} {b c : Bytes} (hf : Appends f b) (hg : Appends g c) :
    Appends (fun p => g (f p)) (b ++ c) where
  writes := hf.writes.comp hg.writes
  overflow p hp hle hlt := by
    simp only [List.length_append] at hlt
    by_cases hb : p.bytes.length + b.length ≤ p.maxSize
    · -- `b` fits and `c` does not
      rw [hf.writes p hp hb]
      exact hg.overflow _ (hp.written b) (by simpa using hb) (by simp; omega)
    · exact hg.failed _ _ (hf.overflow p hp hle (by omega))
  failed p e he := hg.failed _ _ (hf.failed p e he)

theorem Appends.foldl {ι : Type} {f : ι → Packer → Packer} {b : ι → Bytes} :
    ∀ l : List ι, (∀ i ∈ l, Appends (f i) (b i)) →
      Appends (fun p => l.foldl (fun p i => f i p) p) (l.flatMap b)
  | [], _ => ⟨Writes.foldl [] (by simp), fun _ _ hle h => by simp at h; omega, fun _ _ h => by simpa⟩
  | i :: l, h => by
    have hl := Appends.foldl l fun j hj => h j (List.mem_cons_of_mem i hj)
    simpa [List.flatMap_cons] using (h i List.mem_cons_self).comp hl

theorem appends_packFixedBytes (hwr : wr.Spec) (b : Bytes) : Appends (wr.packFixedBytes b) b where
  writes := writes_packFixedBytes hwr b
  overflow p hp _ hlt := by
    rw [hwr.packFixedBytes_of_lt b p hp.err hp.offset (by rw [hp.offset]; exact hlt)]
    simp [hp.err]
  failed p e he := by rw [hwr.packFixedBytes_of_isSome b p (by simp [he])]; exact he

theorem appends_packInt (hwr : wr.Spec) (v : ℕ) : Appends (packInt wr v) (ofNat 4 v) := by
  have hm : ofNat 4 (v % 2 ^ 32) = ofNat 4 v := ofNat_mod 4 v
  have h := appends_packFixedBytes hwr (ofNat 4 (v % 2 ^ 32))
  rw [hm] at h
  refine ⟨writes_packInt hwr v, fun p hp hle hlt => ?_, fun p e he => ?_⟩
  · rw [packInt, hwr.packInt_eq, hm]
    exact h.overflow p hp hle hlt
  · rw [packInt, hwr.packInt_eq, hm]
    exact h.failed p e he

theorem appends_packUint64 (hwr : wr.Spec) (v : ℕ) : Appends (packUint64 wr v) (ofNat 8 v) := by
  have h := appends_packFixedBytes hwr (ofNat 8 v)
  refine ⟨writes_packUint64 hwr v, fun p hp hle hlt => ?_, fun p e he => ?_⟩
  · rw [packUint64, hwr.packLong_eq]
    exact h.overflow p hp hle hlt
  · rw [packUint64, hwr.packLong_eq]
    exact h.failed p e he

/-- `PackInt64` writes the eight bytes of `uint64(v)`. -/
theorem appends_packInt64 (hwr : wr.Spec) (v : ℤ) :
    Appends (packInt64 wr v) (ofNat 8 (v % 2 ^ 64).toNat) :=
  appends_packUint64 hwr _

theorem appends_packBytes (hwr : wr.Spec) (b : Bytes) :
    Appends (packBytes wr b) (ofNat 4 b.length ++ b) :=
  (appends_packInt hwr b.length).comp (appends_packFixedBytes hwr b)

/-- Past `MaxSize`, a write records an error. -/
theorem packFixedBytes_isSome_of_lt (hwr : wr.Spec) (h : p.err = none)
    (ho : p.offset = p.bytes.length) {b : Bytes} (hlt : p.maxSize < p.bytes.length + b.length) :
    (wr.packFixedBytes b p).err.isSome = true := by
  rw [hwr.packFixedBytes_of_lt b p h ho (by omega)]
  exact Packer.addErr_err_isSome p _

end Writing

end Codec

end Hypersdk
