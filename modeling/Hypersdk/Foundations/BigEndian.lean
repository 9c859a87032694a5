import Mathlib

/-!
# Big-endian fixed-width integers

The part of Go's `encoding/binary.BigEndian` that the model uses, over byte lists. Go panics
with an index out of range when it reads a slice shorter than the width; here that read is
`none`. Writing is total: `appendUint16` appends the two bytes of `v mod 2¹⁶`.

A record of fixed-width fields packed into one byte slice is read with `readUint64` and written
with `writeUint64` at byte offsets. A write is read back (`readUint64_writeUint64_self`) and
leaves every field it does not overlap as it was (`readUint64_writeUint64_of_disjoint`).
-/

namespace Hypersdk.BigEndian

/-- `BigEndian.Uint16`, reading the first two bytes; `none` where Go panics. -/
def uint16 : List UInt8 → Option ℕ
  | b0 :: b1 :: _ => some (b0.toNat * 256 + b1.toNat)
  | _ => none

/-- `BigEndian.AppendUint16`. -/
def appendUint16 (b : List UInt8) (v : ℕ) : List UInt8 :=
  b ++ [UInt8.ofNat (v / 256), UInt8.ofNat v]

theorem uint16_eq_none_iff (b : List UInt8) : uint16 b = none ↔ b.length < 2 := by
  match b with
  | [] => simp [uint16]
  | [_] => simp [uint16]
  | _ :: _ :: _ => simp [uint16]

/-! ## Unsigned integers of any width -/

/-- The number a big-endian byte string denotes. -/
def toNat (bs : List UInt8) : ℕ := bs.foldl (fun acc b => acc * 256 + b.toNat) 0

/-- The `n` low bytes of `v`, most significant first. -/
def ofNat : ℕ → ℕ → List UInt8
  | 0, _ => []
  | n + 1, v => ofNat n (v / 256) ++ [UInt8.ofNat v]

@[simp] theorem length_ofNat (n v : ℕ) : (ofNat n v).length = n := by
  induction n generalizing v with
  | zero => rfl
  | succ n ih => simp [ofNat, ih]

theorem toNat_append_singleton (bs : List UInt8) (b : UInt8) :
    toNat (bs ++ [b]) = toNat bs * 256 + b.toNat := by
  simp [toNat, List.foldl_append]

theorem toNat_replicate_zero (n : ℕ) : toNat (List.replicate n 0) = 0 := by
  induction n with
  | zero => rfl
  | succ n ih =>
    rw [List.replicate_succ', toNat_append_singleton, ih]
    rfl

theorem toNat_ofNat (n v : ℕ) : toNat (ofNat n v) = v % 256 ^ n := by
  induction n generalizing v with
  | zero => simp [ofNat, toNat, Nat.mod_one]
  | succ n ih =>
    have h256 : (2 : ℕ) ^ 8 = 256 := rfl
    rw [ofNat, toNat_append_singleton, ih, UInt8.toNat_ofNat', h256, pow_succ', Nat.mod_mul,
      Nat.mul_comm, Nat.add_comm]

theorem toNat_lt (bs : List UInt8) : toNat bs < 256 ^ bs.length := by
  induction bs using List.reverseRecOn with
  | nil => decide
  | append_singleton bs b ih =>
    have hb : b.toNat < 256 := UInt8.toNat_lt b
    rw [toNat_append_singleton, List.length_append, List.length_singleton, pow_succ]
    omega

/-- A byte string is the encoding, at its own width, of the number it denotes. -/
theorem ofNat_toNat (bs : List UInt8) : ofNat bs.length (toNat bs) = bs := by
  induction bs using List.reverseRecOn with
  | nil => rfl
  | append_singleton bs b ih =>
    have hb : b.toNat < 256 := UInt8.toNat_lt b
    have hdiv : (toNat bs * 256 + b.toNat) / 256 = toNat bs := by omega
    have hlow : UInt8.ofNat (toNat bs * 256 + b.toNat) = b :=
      UInt8.toNat_inj.mp (by rw [UInt8.toNat_ofNat']; omega)
    rw [List.length_append, List.length_singleton, ofNat, toNat_append_singleton, hdiv, ih, hlow]

/-- `ofNat n` keeps only the value modulo `256 ^ n`. -/
theorem ofNat_mod (n v : ℕ) : ofNat n (v % 256 ^ n) = ofNat n v := by
  have h := ofNat_toNat (ofNat n v)
  rwa [length_ofNat, toNat_ofNat] at h

/-- `BigEndian.Uint64`, reading the first eight bytes; `none` where Go panics. -/
def uint64 (b : List UInt8) : Option ℕ := if 8 ≤ b.length then some (toNat (b.take 8)) else none

theorem uint64_ofNat_append (v : ℕ) (rest : List UInt8) :
    uint64 (ofNat 8 v ++ rest) = some (v % 2 ^ 64) := by
  have hlen : (ofNat 8 v).length = 8 := length_ofNat 8 v
  have htake : (ofNat 8 v ++ rest).take 8 = ofNat 8 v := by
    rw [List.take_append_of_le_length (by omega), List.take_of_length_le (by omega)]
  simp only [uint64, List.length_append, hlen, htake, toNat_ofNat]
  rw [if_pos (by omega)]
  rfl

theorem uint16_ofNat_append (v : ℕ) (rest : List UInt8) :
    uint16 (ofNat 2 v ++ rest) = some (v % 2 ^ 16) := by
  simp only [ofNat, List.nil_append, List.cons_append, uint16,
    UInt8.toNat_ofNat', Option.some.injEq]
  omega

/-! ## Fields of a packed record -/

/-- `BigEndian.Uint64(b[start : start+8])`. -/
def readUint64 (b : List UInt8) (start : ℕ) : ℕ := toNat ((b.drop start).take 8)

/-- The `k`-th of a run of `uint64`s written one after the other. -/
theorem readUint64_flatMap {α : Type} (l : List α) (f : α → ℕ) {k : ℕ} (hk : k < l.length) :
    readUint64 (l.flatMap fun a => ofNat 8 (f a)) (8 * k) = f l[k] % 256 ^ 8 := by
  induction l generalizing k with
  | nil => exact absurd hk (Nat.not_lt_zero k)
  | cons a l ih =>
    cases k with
    | zero =>
      simp [readUint64, toNat_ofNat]
    | succ k =>
      have hdrop : (ofNat 8 (f a) ++ l.flatMap fun a => ofNat 8 (f a)).drop (8 * (k + 1)) =
          (l.flatMap fun a => ofNat 8 (f a)).drop (8 * k) := by
        rw [show 8 * (k + 1) = 8 + 8 * k by omega, ← List.drop_drop,
          List.drop_left' (length_ofNat 8 _)]
      simpa [readUint64, hdrop] using ih (Nat.lt_of_succ_lt_succ hk)

/-- `BigEndian.PutUint64(b[start : start+8], v)`. -/
def writeUint64 (b : List UInt8) (start v : ℕ) : List UInt8 :=
  b.take start ++ ofNat 8 v ++ b.drop (start + 8)

theorem length_writeUint64 {b : List UInt8} {start : ℕ} (v : ℕ) (h : start + 8 ≤ b.length) :
    (writeUint64 b start v).length = b.length := by
  simp [writeUint64]
  omega

/-- `copy(b[start:], src)` for a source that fits: the bytes of `src` in place of those of `b`
from `start` on. -/
def writeBytes (b : List UInt8) (start : ℕ) (src : List UInt8) : List UInt8 :=
  b.take start ++ src ++ b.drop (start + src.length)

theorem writeUint64_eq_writeBytes (b : List UInt8) (start v : ℕ) :
    writeUint64 b start v = writeBytes b start (ofNat 8 v) := by
  rw [writeBytes, length_ofNat]
  rfl

theorem length_writeBytes {b src : List UInt8} {start : ℕ} (h : start + src.length ≤ b.length) :
    (writeBytes b start src).length = b.length := by
  simp [writeBytes]
  omega

/-- A write reads back. -/
theorem take_drop_writeBytes_self {b src : List UInt8} {start : ℕ}
    (h : start + src.length ≤ b.length) :
    ((writeBytes b start src).drop start).take src.length = src := by
  have hlen : (b.take start).length = start := by simp; omega
  rw [writeBytes, List.append_assoc, List.drop_left' hlen, List.take_left' rfl]

/-- A write leaves every range it does not overlap as it was. -/
theorem take_drop_writeBytes_of_disjoint {b src : List UInt8} {start start' n : ℕ}
    (h : start + src.length ≤ b.length) (hd : start + src.length ≤ start' ∨ start' + n ≤ start) :
    ((writeBytes b start src).drop start').take n = (b.drop start').take n := by
  have hlen : (b.take start).length = start := by simp; omega
  unfold writeBytes
  rcases hd with hd | hd
  · -- the range lies past the write: only the untouched suffix is read
    have e : start' = (b.take start ++ src).length + (start' - start - src.length) := by
      simp; omega
    rw [e, ← List.drop_drop, List.drop_left, List.drop_drop]
    congr 2
    simp
    omega
  · -- the range lies before the write: only the untouched prefix is read
    rw [List.append_assoc, List.drop_append_of_le_length (by omega),
      List.take_append_of_le_length (by simp; omega)]
    rw [List.drop_take, List.take_take, Nat.min_eq_left (by omega)]

theorem readUint64_writeUint64_self {b : List UInt8} {start : ℕ} (v : ℕ)
    (h : start + 8 ≤ b.length) : readUint64 (writeUint64 b start v) start = v % 2 ^ 64 := by
  have hsrc : (ofNat 8 v).length = 8 := length_ofNat 8 v
  have hread : ((writeBytes b start (ofNat 8 v)).drop start).take 8 = ofNat 8 v := by
    have h' := @take_drop_writeBytes_self b (ofNat 8 v) start (by omega)
    rwa [hsrc] at h'
  rw [readUint64, writeUint64_eq_writeBytes, hread, toNat_ofNat]
  rfl

theorem readUint64_writeUint64_of_disjoint {b : List UInt8} {start start' : ℕ} (v : ℕ)
    (h : start + 8 ≤ b.length) (hd : start + 8 ≤ start' ∨ start' + 8 ≤ start) :
    readUint64 (writeUint64 b start v) start' = readUint64 b start' := by
  have hsrc : (ofNat 8 v).length = 8 := length_ofNat 8 v
  rw [readUint64, readUint64, writeUint64_eq_writeBytes,
    take_drop_writeBytes_of_disjoint (by omega) (by omega)]

end Hypersdk.BigEndian
