import Mathlib.Algebra.GroupWithZero.Nat
import Sproutfs.Lib.Runs

/-!
# Page ranges

The interval map a connection keeps its client's mapping generations in
(`vmmemory/internal/pageranges/pageranges.go`): an immutable height-balanced tree of runs of pages in one
state, cut at both ends of every range that is set. A page in no run is in the default state.
-/

namespace Sproutfs.PageRanges

open Run

structure State where
  generation : UInt64 := 0
  zero : Bool := false
  deriving DecidableEq, Repr

abbrev Map := JoinTree (Run State)

namespace Map

def first : Map → Option (Run State)
  | .nil => none
  | .node .nil item _ _ _ => some item
  | .node (.node ll x lr h n) _ _ _ _ => first (.node ll x lr h n)

def last : Map → Option (Run State)
  | .nil => none
  | .node _ item .nil _ _ => some item
  | .node _ _ (.node rl x rr h n) _ _ => last (.node rl x rr h n)

/-- The run with the last one on its left, where they touch in one state. -/
def joinTail (left : Map) (run : Run State) : Map × Run State := match last left with
  | none => (left, run)
  | some tail =>
    if h : tail.stop = run.start ∧ tail.value = run.value then
      ((cuts.split left tail.start).1,
        { run with start := tail.start, nonempty := Nat.lt_trans tail.nonempty (h.1 ▸ run.nonempty) })
    else (left, run)

/-- The run with the first one on its right. -/
def joinHead (run : Run State) (right : Map) : Run State × Map := match first right with
  | none => (run, right)
  | some head =>
    if h : head.start = run.stop ∧ head.value = run.value then
      ({ run with stop := head.stop, nonempty := Nat.lt_trans run.nonempty (h.1 ▸ head.nonempty) },
        (cuts.split right head.stop).2)
    else (run, right)

def set (m : Map) (start stop : Nat) (state : State) : Map :=
  if h : start < stop then
    let left := (cuts.split m start).1
    let right := (cuts.split (cuts.split m start).2 stop).2
    if state = {} then match first right with
      | some head => left.join head (cuts.split right head.stop).2
      | none => left
    else
      let (left, run) := joinTail left ⟨start, stop, state, h⟩
      let (run, right) := joinHead run right
      left.join run right
  else m

/-- The state of a page and the end of its run, no further than `limit`. -/
def run : Map → Nat → Nat → State × Nat
  | .nil, _, limit => ({}, limit)
  | .node l item r _ _, start, limit =>
    if start < item.start then run l start (min limit item.start)
    else if item.stop ≤ start then run r start limit
    else (item.value, min limit item.stop)

def get (m : Map) (page : Nat) : State := (m.run page (2 ^ 64 - 1)).1

end Map

end Sproutfs.PageRanges
