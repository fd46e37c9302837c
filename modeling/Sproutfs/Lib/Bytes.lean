import Mathlib.Algebra.GroupWithZero.Nat
import Mathlib.Data.List.Basic

/-!
# Byte strings with fixed-width little-endian fields

`le w n` is the field of `w` bytes that holds `n`, least significant byte first, and `fromLE` reads
such a field back. `slice b off n` is the `n` bytes of `b` from `off` on, as a decoder takes them.
-/

namespace ByteCodec

abbrev Bytes := List UInt8

/-- The `w` bytes of `n`, least significant first; what does not fit is dropped. -/
def le : Nat → Nat → Bytes
  | 0, _ => []
  | w + 1, n => UInt8.ofNat (n % 256) :: le w (n / 256)

/-- The number whose little-endian bytes are given. -/
def fromLE : Bytes → Nat
  | [] => 0
  | b :: bs => b.toNat + 256 * fromLE bs

/-- The `n` bytes of `b` from `off` on, fewer where `b` ends before. -/
def slice (b : Bytes) (off n : Nat) : Bytes := (b.drop off).take n

def zeros (n : Nat) : Bytes := List.replicate n 0

@[simp] theorem length_le (w n : Nat) : (le w n).length = w := by
  induction w generalizing n with
  | zero => rfl
  | succ w ih => simp [le, ih]

@[simp] theorem length_zeros (n : Nat) : (zeros n).length = n := List.length_replicate

theorem fromLE_le (w n : Nat) : fromLE (le w n) = n % 256 ^ w := by
  induction w generalizing n with
  | zero => simp [le, fromLE, Nat.mod_one]
  | succ w ih =>
    have hb : (UInt8.ofNat (n % 256)).toNat = n % 256 := by
      rw [UInt8.toNat_ofNat']
      omega
    rw [le, fromLE, ih, hb, Nat.pow_succ, Nat.mul_comm (256 ^ w) 256, Nat.mod_mul]

theorem fromLE_le_of_lt {w n : Nat} (h : n < 256 ^ w) : fromLE (le w n) = n := by
  rw [fromLE_le, Nat.mod_eq_of_lt h]

theorem fromLE_lt (b : Bytes) : fromLE b < 256 ^ b.length := by
  induction b with
  | nil => decide
  | cons x b ih =>
    have hx : x.toNat < 256 := x.toNat_lt
    rw [fromLE, List.length_cons, Nat.pow_succ]
    omega

theorem length_slice (b : Bytes) (off n : Nat) :
    (slice b off n).length = min n (b.length - off) := by
  simp [slice]

theorem length_slice_zeros (b : Bytes) (off : Nat) : (slice (b ++ zeros (off + 16)) off 16).length = 16 := by
  rw [length_slice, List.length_append, length_zeros]
  omega

theorem fromLE_slice_lt (b : Bytes) (off w : Nat) : fromLE (slice b off w) < 256 ^ w := by
  have hw : (slice b off w).length ≤ w := by
    rw [length_slice]
    omega
  exact Nat.lt_of_lt_of_le (fromLE_lt _) (Nat.pow_le_pow_right (by decide) hw)

theorem getD_slice_one (b : Bytes) (off : Nat) : (slice b off 1).getD 0 0 = b.getD off 0 := by
  simp [slice, List.getD_eq_getElem?_getD]

theorem slice_append_left {a b : Bytes} {off n : Nat} (h : off + n ≤ a.length) :
    slice (a ++ b) off n = slice a off n := by
  unfold slice
  rw [List.drop_append_of_le_length (by omega), List.take_append_of_le_length]
  simp only [List.length_drop]
  omega

theorem slice_append_right {a b : Bytes} {off n : Nat} (h : a.length ≤ off) :
    slice (a ++ b) off n = slice b (off - a.length) n := by
  unfold slice
  rw [List.drop_append, List.drop_eq_nil_of_le h, List.nil_append]

theorem slice_all {a : Bytes} {n : Nat} (h : a.length ≤ n) : slice a 0 n = a := by
  simp [slice, List.take_of_length_le h]

end ByteCodec
