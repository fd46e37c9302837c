import Mathlib.Algebra.GroupWithZero.Nat

/-!
# The distance of a cache from a window

`distance` and `log2` of `rank/window.go`, and the product that `compare` of `rank/rank.go` takes of a
weight and a distance. A word is a `Nat` below `2 ^ 64`.
-/

namespace Sproutfs.Cluster

def fractionBits : Nat := 32

/-- `bits.Mul64`: the high and the low word of a product. -/
def mul64 (x y : Nat) : Nat × Nat := (x * y / 2 ^ 64, x * y % 2 ^ 64)

/-- The loop of `log2` over the bits of the fraction, from the bit `2 ^ n` on down. -/
def log2Bits : Nat → Nat → Nat → Nat
  | 0, _, result => result
  | n + 1, x, result =>
    let (high, low) := mul64 x x
    if 2 ^ 63 ≤ high then log2Bits n high (result ||| 2 ^ n)
    else log2Bits n ((high <<< 1) % 2 ^ 64 ||| low >>> 63) result

def log2 (m : Nat) : Nat :=
  let top := m.log2
  log2Bits fractionBits ((m <<< (63 - top)) % 2 ^ 64) ((top <<< fractionBits) % 2 ^ 64)

/-- The negated logarithm of a hash over `2 ^ 64`, in fixed point. -/
def distance (h : UInt64) : Nat := (64 <<< fractionBits) - log2 (h ||| 1).toNat

end Sproutfs.Cluster
