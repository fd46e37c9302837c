import Sproutfs.Lib.Machine

/-!
# A fork point and its holders

The point a VM's children start from (`volume/fork.go`), from the moment it is made: its holders, the
mark that it was retired, the publication behind it, and the seal on the parent it ends. The seal is the
VM's flag, which refuses captures and other forks, and the sealed pages of each volume, which the last
retirement gives back one volume after another. A point over a published checkpoint seals nothing.

A retirement is a call of its own: it counts its hold and sets the mark in one step, waits for the
publication, which a cancelled context ends, gives the pages back, each of which may fail, and takes the
flag down. A child's publication retires the point with a context nobody cancels.
-/

namespace Sproutfs.Volume

/-- Where a call of `Retire` is. -/
inductive Retiring where
  | idle
  | waiting
  /-- The volumes whose pages it has yet to give back, and whether one failed. -/
  | giving (rest : List Nat) (published failed : Bool)
  | storing (failed : Bool)
  /-- It returned, with or without an error; `last` is one that set the mark. -/
  | returned (ok last : Bool)
  deriving DecidableEq, Repr

structure ForkPoint where
  /-- The volumes the point sealed pages of; none for a point over a published checkpoint. -/
  checkpoint : Option (List Nat)
  holders : Nat := 0
  retired : Bool := false
  /-- The last retirement returned an error. -/
  err : Bool := false
  /-- How the publication of the point ended: whether it landed. -/
  landed : Option Bool := none
  /-- The parent's flag. -/
  sealed : Bool
  /-- The volumes whose pages the point still has sealed. -/
  standing : List Nat
  calls : Nat → Retiring := fun _ => .idle
  /-- History: how often the point took the flag down, and how often the parent was captured or forked
  again since the point was made. -/
  ends : Nat := 0
  captures : Nat := 0
  forks : Nat := 0

inductive ForkAction where
  | holds
  | retires (call : Nat)
  | cancels (call : Nat)
  | goes (call : Nat)
  | gives (call : Nat) (ok : Bool)
  | unseals (call : Nat)
  | stores (call : Nat)
  | lands (published : Bool)
  /-- The parent is captured, or forked again. -/
  | captures
  | forks
  deriving DecidableEq, Repr

namespace ForkPoint

def setCall (s : ForkPoint) (call : Nat) (r : Retiring) : ForkPoint :=
  { s with calls := Function.update s.calls call r }

def step (s : ForkPoint) : ForkAction → Option ForkPoint
  | .holds => if s.retired then none else some { s with holders := s.holders + 1 }
  | .retires call =>
    if s.calls call = .idle then
      let t := { s with holders := s.holders - 1 }
      if 0 < t.holders ∨ t.retired then some (t.setCall call (.returned (!t.err) false))
      else if t.checkpoint = none then some (t.setCall call (.returned true false))
      else some ({ t with retired := true }.setCall call .waiting)
    else none
  | .cancels call =>
    if s.calls call = .waiting then some (s.setCall call (.returned false true)) else none
  | .goes call => match s.landed with
    | none => none
    | some published =>
      if s.calls call = .waiting then
        some (s.setCall call (.giving (s.checkpoint.getD []) published false))
      else none
  | .gives call ok => match s.calls call with
    | .giving (v :: rest) published failed =>
      some ({ s with standing := if ok then s.standing.filter (· ≠ v) else s.standing }.setCall call
        (.giving rest published (failed || !ok)))
    | _ => none
  | .unseals call => match s.calls call with
    | .giving [] _ failed =>
      some ({ s with sealed := false, ends := s.ends + 1 }.setCall call (.storing failed))
    | _ => none
  | .stores call => match s.calls call with
    | .storing failed => some ({ s with err := failed }.setCall call (.returned (!failed) true))
    | _ => none
  | .lands published => if s.landed = none then some { s with landed := some published } else none
  | .captures => if s.sealed then none else some { s with captures := s.captures + 1 }
  | .forks => if s.sealed then none else some { s with sealed := true, forks := s.forks + 1 }

/-- No retirement is cancelled while it waits, and no volume's pages fail to be given back. -/
def Steady : ForkAction → Prop
  | .cancels _ => False
  | .gives _ ok => ok
  | _ => True

instance (a : ForkAction) : Decidable (Steady a) := by
  unfold Steady
  split <;> infer_instance

end ForkPoint

end Sproutfs.Volume
