import Mathlib.Algebra.GroupWithZero.Nat
import Sproutfs.Lib.CasStore
import Sproutfs.Lib.Machine
import Sproutfs.Membership.Change

/-!
# The membership's object and everyone who updates it

`Store.Update` of `membership/store.go` by any number of callers at once, each with a change of its
own; `Reconcile` is an `Update` whose change is the one `Next` takes. The object is read and written
through `platform/bounded`, which repeats a conditional put whose attempt expired: a write that was
sent lands at any later time at which its condition holds, and its caller may be told that the
condition failed although an earlier attempt of it landed.

The object's bytes are the membership they encode. A membership larger than the object may be is
refused before it is sent. A nonce is drawn from so many that no two draws are the same, which is the
guard of the step that draws one.
-/

namespace Sproutfs.Cluster

open CasStore

example : new 0 ⟨1, 0⟩ [] [] [] = .ok Membership.empty := by decide

def maximumSize : Nat := 2 ^ 20

/-- A write an `Update` made: what it read, under which validator, and what it would store. -/
structure Writing where
  read : Membership
  etag : Option Nat
  next : Membership
  deriving DecidableEq

/-- The write as the store takes it: conditional on the validator that was read, or on the object's
absence. -/
def Writing.write (w : Writing) : Write Membership Nat :=
  match w.etag with
  | none => .create w.next
  | some t => .replace t w.next

inductive Result where
  | stored (m : Membership)
  | unchanged (m : Membership)
  | refused (e : Error)
  | failed
  deriving DecidableEq

/-- Where a call of `Update` is in its loop. -/
inductive Phase where
  | start
  | writing (w : Writing)
  | readBack (w : Writing)
  | done (r : Result)
  deriving DecidableEq

/-- The object and the calls on it, which go by numbers. -/
structure Updates where
  store : Store Membership Nat := {}
  calls : Nat → Phase := fun _ => .start
  /-- Every write a call made, with the call. -/
  made : List (Nat × Writing) := []
  nonces : List Nat := []

inductive UpdateAction where
  | read (call nonce : Nat)
  | readFails (call : Nat)
  | lands (index tag : Nat)
  | succeeds (call : Nat)
  | precondition (call : Nat)
  | fails (call : Nat)
  | readsBack (call : Nat)
  deriving DecidableEq, Repr

namespace Updates

/-- The membership as a read finds it, and the validator a conditional write names. -/
def read (s : Updates) : Membership × Option Nat :=
  match s.store.stored with
  | none => (Membership.empty, none)
  | some v => (v.value, some v.tag)

def set (s : Updates) (call : Nat) (p : Phase) : Updates :=
  { s with calls := Function.update s.calls call p }

/-- A call that read the object builds the next generation, and sends it unless it is refused. -/
def begin (s : Updates) (call nonce : Nat) (changed : Except Error Membership) : Updates :=
  match changed with
  | .error .unchanged => s.set call (.done (.unchanged s.read.1))
  | .error e => s.set call (.done (.refused e))
  | .ok next =>
    match Cluster.step s.read.1 next with
    | .error e => s.set call (.done (.refused e))
    | .ok () =>
      let w : Writing := ⟨s.read.1, s.read.2, { next with nonce := some nonce }⟩
      { s.set call (.writing w) with
        made := s.made ++ [(call, w)]
        nonces := nonce :: s.nonces }

/-- What a call whose write failed makes of the object it reads back. -/
def settle (s : Updates) (call : Nat) (w : Writing) : Updates :=
  if s.read.1.nonce = w.next.nonce then s.set call (.done (.stored s.read.1))
  else if s.read.1.generation = w.read.generation then s.set call (.done .failed)
  else s.set call .start

/-- The write was stored: its caller may be told so. -/
def Stored (s : Updates) (w : Writing) : Prop := ∃ v ∈ s.store.versions, v.value = w.next

instance (s : Updates) (w : Writing) : Decidable (s.Stored w) :=
  inferInstanceAs (Decidable (∃ v ∈ s.store.versions, v.value = w.next))

/-- One step, where `change` is the change each call makes and `size` the length of a membership as
the object holds it. -/
def step (change : Nat → Membership → Except Error Membership) (size : Membership → Nat)
    (s : Updates) : UpdateAction → Option Updates
  | .read call nonce =>
    match s.calls call with
    | .start =>
      if nonce ∈ s.nonces then none else some (s.begin call nonce (change call s.read.1))
    | _ => none
  | .readFails call =>
    match s.calls call with
    | .start | .readBack _ => some (s.set call (.done .failed))
    | _ => none
  | .lands index tag =>
    match s.made[index]? with
    | none => none
    | some (_, w) =>
      if maximumSize < size w.next then none
      else (s.store.land tag w.write).map fun store => { s with store := store }
  | .succeeds call =>
    match s.calls call with
    | .writing w => if s.Stored w then some (s.set call (.done (.stored w.next))) else none
    | _ => none
  | .precondition call =>
    match s.calls call with
    | .writing w =>
      if size w.next ≤ maximumSize ∧ s.read.2 ≠ w.etag then some (s.set call .start) else none
    | _ => none
  | .fails call =>
    match s.calls call with
    | .writing w => some (s.set call (.readBack w))
    | _ => none
  | .readsBack call =>
    match s.calls call with
    | .readBack w => some (s.settle call w)
    | _ => none

end Updates

end Sproutfs.Cluster
