import Mathlib.Logic.Function.Basic
import Mathlib.Logic.Relation
import Sproutfs.Control.Client

/-!
# One control record and everyone who writes it

The record's object, any number of calls on it by any number of clients, and the handles they hold.
A write that was sent lands at any later time at which its condition holds, and again whenever it
holds again, since the store's client repeats a conditional put whose attempt expired. Its caller is
told that it landed only if it did; it may be told that it was refused, or nothing, whatever became
of it.

Calls and handles go by numbers. A handle has the number of the call that returned it. A nonce is
drawn from so many that no two draws are the same, which is the guard of the steps that draw one.
-/

namespace Sproutfs.Control

open CasStore

/-- A write that took effect: what was stored before and after it. -/
structure Landing where
  call : Nat
  request : Request
  before : Option RecordVersion
  after : Option RecordVersion

structure System where
  store : Store Record ETag := {}
  calls : Nat → Option Call := fun _ => none
  handles : Nat → Option Handle := fun _ => none
  /-- Every request ever sent, with the call that sent it. -/
  sent : List (Nat × Request) := []
  landings : List Landing := []
  /-- Every nonce ever drawn, with the call that drew it. -/
  nonces : List (Nat × Nonce) := []

namespace System

def turn (s : System) (id : Nat) (t : Turn) : System :=
  { s with
    calls := Function.update s.calls id (some t.call)
    handles := match t.handle with
      | none => s.handles
      | some (h, hd) => Function.update s.handles h (some hd)
    sent := s.sent ++ (t.request.map fun q => (id, q)).toList }

def draw (s : System) (id : Nat) (nonce : Nonce) : System :=
  { s with nonces := s.nonces ++ [(id, nonce)] }

/-- A write of call `id` leaves this store. -/
def landing (s : System) (id : Nat) (q : Request) (store' : Store Record ETag) : System :=
  { s with
    store := store'
    landings := s.landings ++ [⟨id, q, s.store.stored, store'.stored⟩] }

/-- Call `id` has drawn no nonce yet, and no draw gave this one. -/
def Fresh (s : System) (id : Nat) (nonce : Nonce) : Prop :=
  ∀ p ∈ s.nonces, p.1 ≠ id ∧ p.2 ≠ nonce

/-- What call `id`, waiting in `c`, may be told of its write. -/
def MayReply (s : System) (id : Nat) (c : Call) : Reply → Prop
  | .ok after => ∃ l ∈ s.landings, l.call = id ∧ c.awaits = some l.request.write ∧ l.after = after
  | .refused => ∃ p ∈ s.sent, p.1 = id ∧ c.awaits = some p.2.write
  | .lost => c.awaits.isSome

end System

/-- The name of a step. `land` names a request by its place among those sent, and the tag its version
is given. -/
inductive Action where
  | create (id selected : Nat) (published : Bool) (nonce : Nonce)
  | opens (id : Nat) (o : Opening)
  | remove (id : Nat)
  | pin (id sequence : Nat)
  | release (id sequence : Nat)
  | update (id h : Nat) (m : Mutation)
  | lock (id : Nat)
  | read (id : Nat)
  | readFails (id : Nat)
  | reply (id : Nat) (r : Reply)
  | land (index : Nat) (tag : ETag)
  | close (h : Nat)

/-- One step of the system, for the record of `vm`. -/
inductive Step (vm : List Char) (s : System) : Action → System → Prop where
  | create (id selected : Nat) (published : Bool) (nonce : Nonce) (hid : s.calls id = none)
      (hn : s.Fresh id nonce) (hsize : nonce.length = nonceSize) :
      Step vm s (.create id selected published nonce)
        ((s.draw id nonce).turn id (create vm selected published nonce))
  | opens (id : Nat) (o : Opening) (hid : s.calls id = none) (hn : s.Fresh id o.nonce)
      (hsize : o.nonce.length = nonceSize) :
      Step vm s (.opens id o) ((s.draw id o.nonce).turn id (startOpen vm o))
  | remove (id : Nat) (hid : s.calls id = none) :
      Step vm s (.remove id) (s.turn id { call := .removeRead })
  | pin (id sequence : Nat) (hid : s.calls id = none) :
      Step vm s (.pin id sequence) (s.turn id { call := .pinRead sequence })
  | release (id sequence : Nat) (hid : s.calls id = none) (hseq : sequence ≠ 0) :
      Step vm s (.release id sequence) (s.turn id { call := .releaseRead sequence })
  | update (id h : Nat) (m : Mutation) (hid : s.calls id = none) :
      Step vm s (.update id h m) (s.turn id { call := .updateLock h m })
  | lock (id h : Nat) (m : Mutation) (hd : Handle) (hc : s.calls id = some (.updateLock h m))
      (hh : s.handles h = some hd) (hfree : hd.writing = false) :
      Step vm s (.lock id) (s.turn id (update h hd m))
  | read (id : Nat) (c : Call) (t : Turn) (hc : s.calls id = some c)
      (ht : c.onRead id s.handles (readRecord vm s.store.stored) = some t) :
      Step vm s (.read id) (s.turn id t)
  | readFails (id : Nat) (c : Call) (t : Turn) (hc : s.calls id = some c)
      (ht : c.onRead id s.handles (.error .store) = some t) :
      Step vm s (.readFails id) (s.turn id t)
  | reply (id : Nat) (c : Call) (r : Reply) (t : Turn) (hc : s.calls id = some c)
      (hr : s.MayReply id c r) (ht : c.onReply id s.handles r = some t) :
      Step vm s (.reply id r) (s.turn id t)
  | land (index : Nat) (tag : ETag) (id : Nat) (q : Request) (store' : Store Record ETag)
      (hq : s.sent[index]? = some (id, q)) (hl : Lands s.store q.write store')
      (htag : ∀ v, store'.stored = some v → v.tag = tag) :
      Step vm s (.land index tag) (s.landing id q store')
  | close (h : Nat) (hd : Handle) (hh : s.handles h = some hd) :
      Step vm s (.close h)
        { s with handles := Function.update s.handles h (some { hd with closed := true }) }

def Leads (vm : List Char) : System → System → Prop :=
  Relation.ReflTransGen fun s s' => ∃ a, Step vm s a s'

/-- A run of the system from an absent record. -/
def Reaches (vm : List Char) : System → Prop := Leads vm {}

/-! ## Runs that can be computed -/

instance (s : System) (id : Nat) (nonce : Nonce) : Decidable (s.Fresh id nonce) :=
  inferInstanceAs (Decidable (∀ p ∈ s.nonces, p.1 ≠ id ∧ p.2 ≠ nonce))

instance (s : System) (id : Nat) (c : Call) : (r : Reply) → Decidable (s.MayReply id c r)
  | .ok after => inferInstanceAs (Decidable (∃ l ∈ s.landings,
      l.call = id ∧ c.awaits = some l.request.write ∧ l.after = after))
  | .refused => inferInstanceAs (Decidable (∃ p ∈ s.sent, p.1 = id ∧ c.awaits = some p.2.write))
  | .lost => inferInstanceAs (Decidable (c.awaits.isSome = true))

namespace System

/-- A new call begins with a turn. -/
def begin (s : System) (id : Nat) (t : Turn) : Option System :=
  if s.calls id = none then some (s.turn id t) else none

/-- A new call draws a nonce and begins. -/
def beginDrawn (s : System) (id : Nat) (nonce : Nonce) (t : Turn) : Option System :=
  if s.calls id = none ∧ s.Fresh id nonce ∧ nonce.length = nonceSize then
    some ((s.draw id nonce).turn id t)
  else none

def perform (vm : List Char) (s : System) : Action → Option System
  | .create id selected published nonce =>
    s.beginDrawn id nonce (create vm selected published nonce)
  | .opens id o => s.beginDrawn id o.nonce (startOpen vm o)
  | .remove id => s.begin id { call := .removeRead }
  | .pin id sequence => s.begin id { call := .pinRead sequence }
  | .release id sequence =>
    if sequence ≠ 0 then s.begin id { call := .releaseRead sequence } else none
  | .update id h m => s.begin id { call := .updateLock h m }
  | .lock id =>
    match s.calls id with
    | some (.updateLock h m) =>
      match s.handles h with
      | some hd => if hd.writing = false then some (s.turn id (update h hd m)) else none
      | none => none
    | _ => none
  | .read id => do
    let c ← s.calls id
    let t ← c.onRead id s.handles (readRecord vm s.store.stored)
    some (s.turn id t)
  | .readFails id => do
    let c ← s.calls id
    let t ← c.onRead id s.handles (.error .store)
    some (s.turn id t)
  | .reply id r => do
    let c ← s.calls id
    let t ← c.onReply id s.handles r
    if s.MayReply id c r then some (s.turn id t) else none
  | .land index tag => do
    let p ← s.sent[index]?
    let store' ← s.store.land tag p.2.write
    some (s.landing p.1 p.2 store')
  | .close h => do
    let hd ← s.handles h
    some { s with handles := Function.update s.handles h (some { hd with closed := true }) }

/-- The actions one after the other, as long as each is one that `ok` allows. -/
def runWhile (vm : List Char) (ok : System → Action → Bool) (s : System) :
    List Action → Option System
  | [] => some s
  | a :: l =>
    if ok s a then do
      let s' ← s.perform vm a
      s'.runWhile vm ok l
    else none

def run (vm : List Char) (s : System) (l : List Action) : Option System :=
  s.runWhile vm (fun _ _ => true) l

end System

end Sproutfs.Control
