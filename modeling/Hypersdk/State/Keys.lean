import Hypersdk.Foundations.BigEndian
import Mathlib

/-!
# State keys, permissions and chunk budgets

`state.Permissions` and `state.Keys` (`state/keys.go`), and the chunk arithmetic of the `keys`
package (`keys/keys.go`). A key ends in a big-endian `uint16`: the number of 64-byte chunks a
value stored under it may take. `Keys.verifyValue` compares a value's chunk count with that
budget; `TStateView.insert` refuses a value that fails it.

Permissions are the byte of the source, so that `has` is the source's bit test: `allocate` and
`write` both carry the `read` bit (`has_read_of_has_write`, `has_read_of_has_allocate`).
-/

namespace Hypersdk

/-- Byte strings: Go's `[]byte`, and the bytes of a Go `string`. -/
abbrev Bytes := List UInt8

/-- Byte strings compare by `==` as by `=`: one named proof, which every membership test of byte
strings then shares. -/
instance instLawfulBEqBytes : LawfulBEq Bytes := inferInstance

namespace Consts

/-- `consts.Uint16Len`. -/
def uint16Len : ℕ := 2

/-- `consts.MaxUint16`. -/
def maxUint16 : ℕ := 65535

end Consts

namespace Keys

open Consts

/-- `chunkSize`, in bytes. -/
def chunkSize : ℕ := 64

/-- `keys.Valid`: a key must hold at least its chunk suffix. -/
def valid (key : Bytes) : Bool := decide (uint16Len ≤ key.length)

/-- `keys.MaxChunks`: the chunk budget written in the last two bytes of a key. -/
def maxChunks (key : Bytes) : Option ℕ :=
  if key.length < uint16Len then none
  else BigEndian.uint16 (key.drop (key.length - uint16Len))

/-- `keys.numChunks`: the chunks a value of `valueLen` bytes is charged, `none` past
`MaxUint16`. -/
def numChunks (valueLen : ℕ) : Option ℕ :=
  if valueLen = 0 then some 0
  else
    let raw := valueLen / chunkSize + 1
    if raw > maxUint16 then none else some raw

/-- `keys.NumChunks`. -/
def numChunksOf (value : Bytes) : Option ℕ := numChunks value.length

/-- `keys.VerifyValue`: the value's chunks fit the key's budget. -/
def verifyValue (key value : Bytes) : Bool :=
  match numChunksOf value, maxChunks key with
  | some valueChunks, some keyChunks => decide (valueChunks ≤ keyChunks)
  | _, _ => false

/-- `keys.EncodeChunks`: append a chunk budget to a key prefix. -/
def encodeChunks (key : Bytes) (maxChunks : ℕ) : Bytes := BigEndian.appendUint16 key maxChunks

/-- `keys.Encode`: a key prefix with the budget of a value of `maxSize` bytes; `none` where
`numChunks` fails. -/
def encode (key : Bytes) (maxSize : ℕ) : Option Bytes := (numChunks maxSize).map (encodeChunks key)

/-! ## Chunk budgets

`numChunks` charges `valueLen / 64 + 1` chunks, not `⌈valueLen / 64⌉`: the two agree except on
the multiples of 64, where the code charges one chunk more (`numChunks_chunkSize_mul`). A budget
computed by `encode` from a size admits every value up to that size
(`verifyValue_encode_of_length_le`); a budget of `c` chunks does not admit `64 c` bytes. -/

theorem maxChunks_encodeChunks (key : Bytes) {c : ℕ} (hc : c ≤ maxUint16) :
    maxChunks (encodeChunks key c) = some c := by
  have hlen : (encodeChunks key c).length = key.length + uint16Len := by
    simp [encodeChunks, BigEndian.appendUint16, uint16Len]
  have hdrop : (encodeChunks key c).drop key.length = [UInt8.ofNat (c / 256), UInt8.ofNat c] := by
    simp [encodeChunks, BigEndian.appendUint16]
  rw [maxChunks, if_neg (by omega), hlen, Nat.add_sub_cancel, hdrop]
  simp only [BigEndian.uint16, UInt8.toNat_ofNat', Option.some.injEq]
  simp only [maxUint16] at hc
  omega

/-- What `numChunks` returns, with its guards. -/
theorem numChunks_eq_some_iff {n c : ℕ} :
    numChunks n = some c ↔
      n = 0 ∧ c = 0 ∨ n ≠ 0 ∧ n / chunkSize + 1 ≤ maxUint16 ∧ c = n / chunkSize + 1 := by
  unfold numChunks
  by_cases h0 : n = 0
  · simp [h0, eq_comm]
  · by_cases hmax : n / chunkSize + 1 > maxUint16
    · rw [if_neg h0]
      show (if n / chunkSize + 1 > maxUint16 then none else some (n / chunkSize + 1)) = some c ↔ _
      rw [if_pos hmax]
      constructor
      · intro h
        cases h
      · rintro (⟨h, -⟩ | ⟨-, hle, -⟩)
        · exact absurd h h0
        · omega
    · simp [h0, hmax, eq_comm]
      omega

theorem numChunks_le_maxUint16 {n c : ℕ} (h : numChunks n = some c) : c ≤ maxUint16 := by
  rcases numChunks_eq_some_iff.mp h with ⟨-, rfl⟩ | ⟨-, hmax, rfl⟩
  · exact Nat.zero_le _
  · exact hmax

/-- A shorter value is charged no more chunks than a longer one. -/
theorem numChunks_mono {m n c : ℕ} (hmn : m ≤ n) (h : numChunks n = some c) :
    ∃ c', numChunks m = some c' ∧ c' ≤ c := by
  have hdiv : m / chunkSize ≤ n / chunkSize := Nat.div_le_div_right hmn
  by_cases hm : m = 0
  · exact ⟨0, numChunks_eq_some_iff.mpr (.inl ⟨hm, rfl⟩), Nat.zero_le c⟩
  · rcases numChunks_eq_some_iff.mp h with ⟨hn, -⟩ | ⟨-, hmax, rfl⟩
    · omega
    · exact ⟨m / chunkSize + 1, numChunks_eq_some_iff.mpr (.inr ⟨hm, by omega, rfl⟩), by omega⟩

/-- A key built by `encode` from `maxSize` admits every value of at most `maxSize` bytes. -/
theorem verifyValue_encode_of_length_le {key k v : Bytes} {maxSize : ℕ}
    (hk : encode key maxSize = some k) (hv : v.length ≤ maxSize) : verifyValue k v = true := by
  obtain ⟨c, hc, rfl⟩ := Option.map_eq_some_iff.mp hk
  obtain ⟨c', hc', hle⟩ := numChunks_mono hv hc
  simp [verifyValue, numChunksOf, hc', maxChunks_encodeChunks key (numChunks_le_maxUint16 hc), hle]

/-- On a multiple of 64 bytes the code charges one chunk past the ceiling. -/
theorem numChunks_chunkSize_mul {c : ℕ} (h0 : 0 < c) (hc : c < maxUint16) :
    numChunks (chunkSize * c) = some (c + 1) := by
  have hdiv : chunkSize * c / chunkSize = c := Nat.mul_div_cancel_left c (by decide)
  refine numChunks_eq_some_iff.mpr (.inr ⟨?_, ?_, ?_⟩)
  · simp only [chunkSize]
    omega
  · omega
  · rw [hdiv]

/-- A value of exactly `64 c` bytes fills `⌈len / 64⌉ = c` chunks, yet it is charged `c + 1` and
a key whose budget is `c` chunks refuses it. -/
theorem verifyValue_refuses_exact_multiple (key v : Bytes) {c : ℕ} (h0 : 0 < c)
    (hc : c < maxUint16) (hv : v.length = chunkSize * c) :
    (v.length + chunkSize - 1) / chunkSize = c ∧ numChunksOf v = some (c + 1) ∧
      verifyValue (encodeChunks key c) v = false := by
  have hceil : (v.length + chunkSize - 1) / chunkSize = c := by
    rw [hv]
    simp only [chunkSize]
    omega
  have hnum : numChunksOf v = some (c + 1) := by
    rw [numChunksOf, hv, numChunks_chunkSize_mul h0 hc]
  refine ⟨hceil, hnum, ?_⟩
  simp [verifyValue, hnum, maxChunks_encodeChunks key hc.le]

/-- `ContractBytecodeChunks` of the typescriptvm example is 2048 chunks, meant for 128 KiB of
bytecode; 131072 bytes are refused under it. -/
theorem verifyValue_refuses_contract_bytecode_of_128KiB :
    (List.replicate 131072 (0 : UInt8)).length = chunkSize * 2048 ∧
      verifyValue (encodeChunks [4] 2048) (List.replicate 131072 0) = false :=
  have hlen : (List.replicate 131072 (0 : UInt8)).length = chunkSize * 2048 := by
    rw [List.length_replicate]
    rfl
  ⟨hlen, (verifyValue_refuses_exact_multiple [4] (List.replicate 131072 0) (by decide)
    (by decide) hlen).2.2⟩

end Keys

namespace State

/-- `state.Permissions`: a byte of permission bits. -/
structure Permissions where
  bits : UInt8
  deriving DecidableEq, Repr

namespace Permissions

/-- `state.Read`. -/
def read : Permissions := ⟨1⟩

/-- `state.Allocate`, which carries the read bit. -/
def allocate : Permissions := ⟨(1 : UInt8) <<< 1 ||| 1⟩

/-- `state.Write`, which carries the read bit. -/
def write : Permissions := ⟨(1 : UInt8) <<< 2 ||| 1⟩

/-- `state.None`. -/
def none : Permissions := ⟨0⟩

/-- `state.All`. -/
def all : Permissions := ⟨read.bits ||| allocate.bits ||| write.bits⟩

/-- `Permissions.Has`: every bit of `require` is set in `p`. -/
def has (p require : Permissions) : Bool := require.bits &&& ~~~p.bits == 0

/-- Holding a set of bits gives every subset of it. -/
theorem has_of_subset {p q r : Permissions} (hrq : r.bits &&& q.bits = r.bits)
    (h : p.has q = true) : p.has r = true := by
  simp only [has, beq_iff_eq] at h ⊢
  rw [← hrq, UInt8.and_assoc, h, UInt8.and_zero]

theorem has_read_of_has_write {p : Permissions} (h : p.has write = true) : p.has read = true :=
  has_of_subset (by decide) h

theorem has_read_of_has_allocate {p : Permissions} (h : p.has allocate = true) :
    p.has read = true :=
  has_of_subset (by decide) h

/-- The union of two permission sets: `|=` in `Keys.Add`. -/
def union (p q : Permissions) : Permissions := ⟨p.bits ||| q.bits⟩

theorem all_has {q : Permissions} (hq : q = read ∨ q = allocate ∨ q = write) :
    all.has q = true := by
  rcases hq with rfl | rfl | rfl <;> decide

end Permissions

/-- `state.Keys`: the state keys of a transaction, each with its permissions. -/
abbrev Keys := AList (fun _ : Bytes => Permissions)

/-- The permissions of `k` in `ks`; a key that is not there has `none`, the zero value a Go
map lookup returns. -/
def Keys.get (ks : Keys) (k : Bytes) : Permissions := (ks.lookup k).getD .none

/-- `Keys.Add`: a well-formed key is added with the union of its permissions; a malformed one
is refused (`none`). -/
def Keys.add (ks : Keys) (key : Bytes) (permission : Permissions) : Option Keys :=
  if Hypersdk.Keys.valid key then some (ks.insert key ((ks.get key).union permission)) else none

end State

end Hypersdk
