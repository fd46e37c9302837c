import Mathlib.Data.List.FinRange
import Mathlib.Logic.Function.Basic

/-!
# A read's repair of a window

The stripes of a window's pages lie on its ranks. A read that heard from every rank sends each stripe
that no rank holds to a rank that holds fewer than the code puts on it.
-/

namespace Sproutfs.Cluster

variable {ι ε α β : Type} [DecidableEq ι]

/-- The rank a stripe goes on, round the ranks where there are fewer than stripes: `Holders`. -/
def holder (ranks : List ι) (stripe : Nat) : Option ι := ranks[stripe % ranks.length]?

/-- One read of a window, under a code of `width` stripes. -/
structure WindowRead (ι ε : Type) where
  width : Nat
  /-- The code is one the deployment used before its own. -/
  earlier : Bool := false
  ranks : List ι
  distinct : ranks.Nodup
  /-- The page of each want. -/
  pages : List Nat
  /-- For each rank that answered, the indices of each want it holds. -/
  answered : ι → Option (Nat → List (Fin width)) := fun _ => none
  /-- What each want was rebuilt from. -/
  envelopes : Nat → Option ε := fun _ => none

namespace WindowRead

variable (w : WindowRead ι ε)

/-- The answer of a rank is taken: the index of each item that `parse` accepts as a stripe of a want.
An error, or a refusal, is no answer. -/
def take (parse : Nat → α → Option (Fin w.width)) (cache : ι) (reply : Option (List (Nat × α))) :
    WindowRead ι ε :=
  match reply with
  | none => w
  | some items =>
    let indices := fun at_ => items.filterMap fun item =>
      if w.pages.idxOf? item.1 = some at_ then parse at_ item.2 else none
    { w with answered := Function.update w.answered cache (some indices) }

/-- The indices the membership puts on a rank. -/
def own (cache : ι) : List (Fin w.width) :=
  (List.finRange w.width).filter fun i => holder w.ranks i.val = some cache

/-- How many stripes of a page the code puts on a rank. -/
def share (cache : ι) : Nat := (w.own cache).length

/-- The indices in the order a repair offers them to a rank: its own first. -/
def preferred (cache : ι) : List (Fin w.width) :=
  w.own cache ++
    (List.finRange w.width).filter fun i => (holder w.ranks i.val).any (· ≠ cache)

/-- The indices of a want that a rank's answer has. -/
def holds (at_ : Nat) (cache : ι) : List (Fin w.width) := ((w.answered cache).map (· at_)).getD []

/-- How many stripes of a want a rank is short of its share. -/
def lacking (at_ : Nat) (cache : ι) : Nat := w.share cache - (w.holds at_ cache).length

/-- The indices one rank is sent of those offered: as long as it lacks some, those no rank holds. -/
def offer {n : Nat} (mine : List (Fin n)) : Nat → List (Fin n) → List (Fin n) → List (Fin n)
  | 0, _, _ => []
  | _, _, [] => []
  | lacking + 1, held, i :: rest =>
    if i ∈ held ∨ i ∈ mine then offer mine (lacking + 1) held rest
    else i :: offer mine lacking (held ++ [i]) rest

/-- What the ranks are sent of a want, one after the other. -/
def plan (at_ : Nat) : List ι → List (Fin w.width) → List (ι × Fin w.width)
  | [], _ => []
  | cache :: rest, held =>
    let sent := offer (w.holds at_ cache) (w.lacking at_ cache) held (w.preferred cache)
    sent.map (cache, ·) ++ plan at_ rest (held ++ sent)

/-- The indices of a want that the ranks hold. -/
def held (at_ : Nat) : List (Fin w.width) := w.ranks.flatMap (w.holds at_)

/-- The sends of a rebuilt want. None is an envelope that cannot be split. -/
def sends (split : ε → Option (Fin w.width → β)) (at_ : Nat) : Option (List (ι × Fin w.width × β)) :=
  match w.envelopes at_ with
  | none => some []
  | some envelope =>
    let plan := w.plan at_ w.ranks (w.held at_)
    if plan = [] then some []
    else (split envelope).map fun stripes => plan.map fun p => (p.1, p.2, stripes p.2)

/-- What a repair sends of a want: to whom, which index, and its stripe. It returns before it sends
anything where the code is an earlier one, a rank was not heard from or an envelope cannot be split. -/
def repair (split : ε → Option (Fin w.width → β)) (at_ : Nat) : List (ι × Fin w.width × β) :=
  if w.earlier || w.ranks.any fun cache => (w.answered cache).isNone then []
  else if (List.range w.pages.length).any fun b => (w.sends split b).isNone then []
  else if at_ < w.pages.length then (w.sends split at_).getD [] else []

end WindowRead

end Sproutfs.Cluster
