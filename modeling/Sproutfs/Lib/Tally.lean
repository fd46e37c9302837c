import Mathlib.Algebra.Order.BigOperators.Group.Finset
import Mathlib.Algebra.Order.Ring.Int

/-!
# Tallies over a table

A quantity of each entry of a table, summed over the entries with numbers below a bound. Changing one
entry changes the sum by what that entry's quantity changes by.
-/

namespace Tally

open Finset

variable {β : Type*} {f : Option β → Int} {t : Nat → Option β} {n : Nat}

def tally (f : Option β → Int) (t : Nat → Option β) (n : Nat) : Int := ∑ i ∈ range n, f (t i)

theorem tally_update {i : Nat} (hi : i < n) (x : Option β) :
    tally f (Function.update t i x) n = tally f t n + (f x - f (t i)) := by
  have hmem : i ∈ range n := Finset.mem_range.mpr hi
  have hrest : ∑ j ∈ (range n).erase i, f (Function.update t i x j) =
      ∑ j ∈ (range n).erase i, f (t j) := by
    refine Finset.sum_congr rfl fun j hj => ?_
    rw [Function.update_of_ne (Finset.ne_of_mem_erase hj)]
  have hnew := Finset.add_sum_erase (range n) (fun j => f (Function.update t i x j)) hmem
  have hold := Finset.add_sum_erase (range n) (fun j => f (t j)) hmem
  rw [Function.update_self] at hnew
  unfold tally
  omega

theorem tally_succ (x : Option β) :
    tally f (Function.update t n x) (n + 1) = tally f t n + f x := by
  unfold tally
  rw [Finset.sum_range_succ, Function.update_self]
  congr 1
  refine Finset.sum_congr rfl fun j hj => ?_
  have := Finset.mem_range.mp hj
  rw [Function.update_of_ne (by omega)]

theorem le_tally (hf : ∀ x, 0 ≤ f x) {i : Nat} (hi : i < n) : f (t i) ≤ tally f t n :=
  Finset.single_le_sum (f := fun j => f (t j)) (fun j _ => hf (t j)) (Finset.mem_range.mpr hi)

theorem tally_eq_zero (hf : ∀ i, f (t i) = 0) : tally f t n = 0 :=
  Finset.sum_eq_zero fun i _ => hf i

end Tally
