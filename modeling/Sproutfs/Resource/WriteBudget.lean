import Mathlib.Algebra.Order.Ring.Int
import Mathlib.Data.Fintype.Pi
import Sproutfs.Lib.Machine

/-!
# The write budget of a host's disk

`DiskLimiter` of `resource/disk.go`, the part that admits the cache's writes: `Admit`, `refillLocked`,
`countLocked` and `fraction`, with the totals of its status that they count. A sum, a product or a
conversion that leaves its type stops the model, as a division by `bits.Div64` that overflows stops the
program. A reading of the clock is in nanoseconds.

Left out: the injected bugs and probes, the log, the readings of the filesystem's space and what is
computed from them.
-/

namespace Sproutfs.Resource

/-! ## Machine integers -/

def int64 (x : Int) : Option Int := if -2 ^ 63 ≤ x ∧ x < 2 ^ 63 then some x else none

def uint64 (x : Nat) : Option Nat := if x < 2 ^ 64 then some x else none

/-- `bits.Mul64`: the high and the low word of a product. -/
def mul64 (x y : Nat) : Nat × Nat := (x * y / 2 ^ 64, x * y % 2 ^ 64)

/-- `bits.Add64` without a carry in: the sum's low word, and the carry. -/
def add64 (x y : Nat) : Nat × Nat := ((x + y) % 2 ^ 64, (x + y) / 2 ^ 64)

/-- `bits.Div64`: the quotient and the remainder of two words by one. It panics where the quotient does
not fit a word. -/
def div64 (hi lo y : Nat) : Option (Nat × Nat) :=
  if hi < y then some ((hi * 2 ^ 64 + lo) / y, (hi * 2 ^ 64 + lo) % y) else none

/-- `time.Time.Sub`, which stops at the longest `time.Duration` either way. -/
def timeSub (now since : Int) : Int := max (-2 ^ 63) (min (2 ^ 63 - 1) (now - since))

/-! ## The budget -/

def maxDiskBytes : Int := 2 ^ 60

/-- `day`, in nanoseconds. -/
def day : Int := 24 * 60 * 60 * 10 ^ 9

def diskWritePriorities : Int := 4

structure WriteBudget where
  bytesPerDay : Int
  burstBytes : Int
  deriving DecidableEq

def WriteBudget.zero : WriteBudget := ⟨0, 0⟩

/-- `WriteBudget.Validate` passes. -/
def WriteBudget.Valid (b : WriteBudget) : Prop :=
  b = .zero ∨
    (0 < b.bytesPerDay ∧ b.bytesPerDay ≤ maxDiskBytes) ∧ 0 < b.burstBytes ∧ b.burstBytes ≤ maxDiskBytes

instance (b : WriteBudget) : Decidable b.Valid := inferInstanceAs (Decidable (_ ∨ _))

/-- The part of `DiskLimiter` that keeps the budget, with the totals of `DiskWritesStatus`. -/
structure DiskLimiter where
  tokens : Int
  /-- The fraction of a byte credited and not yet whole, in byte-nanoseconds over a day. -/
  carry : Nat := 0
  refilledAt : Int
  counting : Bool := false
  counted : Nat := 0
  /-- What was admitted and the device has not counted yet. -/
  pending : Int := 0
  writtenBytes : Nat := 0
  admittedBytes : Nat := 0
  refused : Fin 4 → Nat := fun _ => 0
  deriving DecidableEq

/-- `NewDiskLimiter`, before its first reading. -/
def newDiskLimiter (b : WriteBudget) (now : Int) : DiskLimiter :=
  { tokens := b.burstBytes, refilledAt := now }

/-- `fraction`: `value*numerator/denominator`, rounded down. -/
def fraction (value numerator denominator : Int) : Option Int :=
  (div64 (mul64 value.toNat numerator.toNat).1 (mul64 value.toNat numerator.toNat).2
    denominator.toNat).bind fun x => int64 x.1

/-- The credit for a part of a day, with the fraction of a byte carried, and the fraction left. -/
def credit (perDay rest : Int) (carry : Nat) : Option (Nat × Nat) :=
  let product := mul64 perDay.toNat rest.toNat
  let sum := add64 product.2 carry
  (uint64 (product.1 + sum.2)).bind fun hi => div64 hi sum.1 day.toNat

variable (b : WriteBudget) (l : DiskLimiter)

/-- The part of `refillLocked` that credits the time: whole days whole, the rest exactly. -/
def DiskLimiter.creditTime (elapsed : Int) : Option DiskLimiter :=
  (int64 (elapsed / day * b.bytesPerDay)).bind fun whole =>
  (int64 (l.tokens + whole)).bind fun tokens =>
  (credit b.bytesPerDay (elapsed % day) l.carry).bind fun part =>
  (int64 part.1).bind fun bytes =>
  (int64 (tokens + bytes)).bind fun sum =>
    some (if b.burstBytes ≤ sum then { l with tokens := b.burstBytes, carry := 0 }
      else { l with tokens := sum, carry := part.2 })

/-- `refillLocked`. -/
def DiskLimiter.refill (now : Int) : Option DiskLimiter :=
  let elapsed := timeSub now l.refilledAt
  if b = .zero ∨ elapsed ≤ 0 then some l
  else
    (int64 (b.burstBytes - l.tokens)).bind fun need =>
      if need ≤ 0 then some { l with refilledAt := now, carry := 0 }
      else if need / b.bytesPerDay < elapsed / day then
        some { l with refilledAt := now, tokens := b.burstBytes, carry := 0 }
      else DiskLimiter.creditTime b { l with refilledAt := now } elapsed

/-- A priority as `Admit` clamps it. -/
def clampPriority (priority : Int) : Fin 4 :=
  ⟨(min (max priority 0) (diskWritePriorities - 1)).toNat, by
    have : min (max priority 0) (diskWritePriorities - 1) ≤ 3 := min_le_right ..
    omega⟩

/-- `Admit`: whether the write is admitted, and the limiter after it. -/
def DiskLimiter.admitWrite (now n priority : Int) : Option (Bool × DiskLimiter) :=
  if n < 0 ∨ maxDiskBytes < n then some (false, l)
  else if b = .zero then
    (uint64 (l.admittedBytes + n.toNat)).map fun total => (true, { l with admittedBytes := total })
  else
    (l.refill b now).bind fun l =>
    let p := clampPriority priority
    (fraction b.burstBytes (diskWritePriorities - 1 - p.val) diskWritePriorities).bind fun reserve =>
    (int64 (l.tokens - n)).bind fun left =>
      if left < reserve then
        (uint64 (l.refused p + 1)).map fun count =>
          (false, { l with refused := Function.update l.refused p count })
      else
        (int64 (l.pending + n)).bind fun pending =>
        (uint64 (l.admittedBytes + n.toNat)).map fun total =>
          (true, { l with tokens := left, pending := pending, admittedBytes := total })

/-- `countLocked`, which is called with a budget only. -/
def DiskLimiter.count (now : Int) (written : Nat) : Option DiskLimiter :=
  if b = .zero then some l
  else
    (l.refill b now).bind fun l =>
    if written < l.counted then some { l with counted := written }
    else if l.counting = false then some { l with counting := true, counted := written }
    else
      let delta := written - l.counted
      let seen : Int := min (delta : Int) maxDiskBytes
      (uint64 (l.writtenBytes + delta)).bind fun total =>
      (int64 (seen - l.pending)).bind fun charge =>
      (int64 (l.pending - seen)).bind fun rest =>
      let l := { l with counted := written, writtenBytes := total, pending := max rest 0 }
      if 0 < charge then
        (int64 (l.tokens - charge)).map fun left => { l with tokens := max left (-b.burstBytes) }
      else some l

/-! ## Sequences of calls -/

/-- One call, at a reading of the clock. -/
inductive Call where
  | admitWrite (now n priority : Int)
  | count (now : Int) (written : Nat)
  | status (now : Int)
  deriving DecidableEq

def Call.now : Call → Int
  | .admitWrite now _ _ | .count now _ | .status now => now

/-- The limiter after a call, none where a number left its type. -/
def DiskLimiter.step : Call → Option DiskLimiter
  | .admitWrite now n priority => (l.admitWrite b now n priority).map Prod.snd
  | .count now written => l.count b now written
  | .status now => l.refill b now

/-- The totals the call adds to fit their types. -/
def Room (l : DiskLimiter) : Call → Prop
  | .admitWrite _ n priority => l.pending + n < 2 ^ 63 ∧ l.admittedBytes + n < 2 ^ 64 ∧
      l.refused (clampPriority priority) + 1 < 2 ^ 64
  | .count _ written => l.writtenBytes + (written - l.counted) < 2 ^ 64
  | .status _ => True

/-- What the device counted at a call, up to the most one count may charge. -/
def DiskLimiter.seen (l : DiskLimiter) : Call → Int
  | .count _ written =>
    if l.counting = true ∧ l.counted ≤ written then min ((written - l.counted : Nat) : Int) maxDiskBytes
    else 0
  | .admitWrite _ _ _ | .status _ => 0

/-- What a call charges for bytes the device counted. -/
def DiskLimiter.charge (l : DiskLimiter) (c : Call) : Int := max (l.seen c - l.pending) 0

/-- A quantity of the calls, summed over a sequence of them. -/
def DiskLimiter.sum (f : DiskLimiter → Call → Int) (l : DiskLimiter) : List Call → Int
  | [] => 0
  | c :: rest => f l c + ((l.step b c).map fun l' => DiskLimiter.sum f l' rest).getD 0

end Sproutfs.Resource
