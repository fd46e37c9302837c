import Sproutfs.Lib.Machine
import Sproutfs.Lineage.Store

/-!
# VMs, their checkpoints and the sweeps over them

Every VM of a deployment, as its creations, opens, publications, forks, deletions and releases change
its control record and the checkpoints stored for it (`volume/manager.go`, `volume/publish.go`,
`volume/fork.go`, `volume/kept.go`). A record changes by one whole write at a time: each write of a
control call is conditional on the version it is derived from. A sweep is decided where the source
decides it and deletes one checkpoint at a time, any time after.

A handle's lock on publications is held from a capture to its install or its failure, so `publishing`
is at most one. Between the reply to a selection and the install nothing of the handle is seen from
outside, so the two are one step here; a selection that landed and was not installed is the `known`
false of `select`.
-/

namespace Sproutfs.Lineage

open Control

/-! ## Records as single writes -/

/-- The record `Create` writes. -/
def createdRecord (id : List Char) (sequence : Nat) (published : Bool) (nonce : Nonce) :
    Option Record :=
  match (Control.create id sequence published nonce).call with
  | .createPut record => some record
  | _ => none

/-- The record an open writes over the one it read. -/
def openedRecord (o : Opening) (r : Record) : Option Record :=
  match (Control.openRead o (.ok ⟨0, r, 0⟩)).call with
  | .openPut _ _ next => some next
  | _ => none

/-- The checkpoint `Client.Pin` pinned and the record with the pin. -/
def pinnedRecord (sequence : Nat) (r : Record) : Option (Nat × Record) :=
  match (Control.pinRead sequence (.ok ⟨0, r, 0⟩)).call with
  | .pinPut _ wanted _ => some (wanted, pinNext wanted r)
  | .returned (.pinned wanted _) => some (wanted, r)
  | _ => none

/-- The record `Release` leaves. -/
def releasedRecord (sequence : Nat) (r : Record) : Option Record :=
  match (Control.releaseRead sequence (.ok ⟨0, r, 0⟩)).call with
  | .releasePut _ _ => some (releaseNext sequence r)
  | _ => none

def rootSequence (epoch : Nat) : Nat := Control.sequence epoch 1

/-- The first sequence a handle at this epoch may publish under. -/
def nextSequence (epoch selected : Nat) : Nat :=
  if epochOf selected = epoch then selected + 1 else Control.sequence epoch 1

/-! ## The state -/

/-- A checkpoint being published. `point` is the fork point it publishes, if it is one's. -/
structure Publication where
  sequence : Nat
  parent : Index
  keep : Bool
  point : Option Nat
  committed : Option Index := none

/-- The checkpoint of a fork point that is captured and not being published yet. -/
structure Waiting where
  sequence : Nat
  parent : Index
  point : Nat

/-- One handle on a VM. `root` is a fork that has not published its own root, which reads through
`point`. `landing` is a fork point whose checkpoint is selected and not pinned yet. -/
structure VM where
  id : List Char
  epoch : Nat
  nonce : Nonce
  next : Nat
  base : Index
  owned : Option Index
  root : Bool := false
  point : Option Nat := none
  publishing : Option Publication := none
  waiting : Option Waiting := none
  landing : Option Nat := none

/-- A point children start from: the checkpoint they inherit, and the index the parent published
for it. -/
structure ForkPoint where
  index : Index
  published : Option Index := none

inductive Sweep where
  | reclaim (dead : List Ref)
  | deleteVM (vm : List Char) (life : Nat) (spared : List Nat)
  deriving DecidableEq

/-- The sweep deletes this checkpoint when it comes to it. -/
def Sweep.kills : Sweep → Ref → Bool
  | .reclaim dead, r => r ∈ dead
  | .deleteVM vm _ spared, r => r.vm = vm && r.sequence ∉ spared

/-- A create under way: its identity, and its root once that is published. -/
structure Creating where
  id : List Char
  root : Option Index := none

/-- `lives` counts the records created under an identity, `gone` holds every checkpoint that lost an
object and the sweep that took it, and `pins` every pin ever written. -/
structure System where
  records : List Char → Option Record := fun _ => none
  lives : List Char → Nat := fun _ => 0
  indexes : Catalogue := []
  gone : List (Ref × Sweep) := []
  vms : Nat → Option VM := fun _ => none
  points : List ForkPoint := []
  sweeps : List Sweep := []
  creating : Nat → Option Creating := fun _ => none
  pins : List Ref := []
  nonces : List Nonce := []

namespace System

variable (s : System)

def Gone (r : Ref) : Prop := ∃ d ∈ s.gone, d.1 = r

instance (r : Ref) : Decidable (s.Gone r) := by unfold Gone; infer_instance

/-- Something is stored under the identity. -/
def used (id : List Char) : Bool := s.indexes.any fun i => i.ref.vm = id && ¬ s.Gone i.ref

/-- The record, as long as it is this handle's. -/
def held (v : VM) : Option Record := (s.records v.id).filter (·.mine v.epoch v.nonce)

def setRecord (id : List Char) (r : Option Record) : System :=
  { s with records := Function.update s.records id r }

def setVM (h : Nat) (v : VM) : System := { s with vms := Function.update s.vms h (some v) }

/-- A new record under an identity, with the handle that holds it. -/
def enter (h : Nat) (r : Record) (v : VM) : System :=
  { s with
    records := Function.update s.records r.vm (some r)
    lives := Function.update s.lives r.vm (s.lives r.vm + 1)
    vms := Function.update s.vms h (some v)
    nonces := r.nonce :: s.nonces }

def decide? (sweep : Option Sweep) : System := { s with sweeps := s.sweeps ++ sweep.toList }

end System

/-- No other publication of the handle is under way. -/
def VM.free (v : VM) : Bool := v.publishing.isNone && v.landing.isNone

/-! ## Creating and opening -/

namespace System

variable (s : System)

/-- `create` up to its first object: it reads the record and, for `Create`, what is stored. -/
def create (n : Nat) (id : List Char) (takeOver : Bool) : Option System :=
  if (s.creating n).isNone && (s.records id).isNone && !(takeOver && s.used id) then
    some { s with creating := Function.update s.creating n (some { id := id }) }
  else none

/-- The root of a new VM names nothing but itself. Put under a record, it is of that record's life,
and otherwise of the one to come. -/
def createRoot (n epoch : Nat) : Option System :=
  (s.creating n).bind fun c =>
    if c.root.isNone && (s.indexes.find ⟨c.id, rootSequence epoch⟩).isNone then
      let root : Index := ⟨⟨c.id, rootSequence epoch⟩, [⟨c.id, rootSequence epoch⟩],
        s.lives c.id + (if (s.records c.id).isNone then 1 else 0), List.mem_singleton_self _⟩
      some { s with
        indexes := s.indexes ++ [root]
        creating := Function.update s.creating n (some { c with root := some root }) }
    else none

def createRecord (n h : Nat) (nonce : Nonce) : Option System :=
  (s.creating n).bind fun c => c.root.bind fun root =>
    if (s.records c.id).isNone && (s.vms h).isNone && nonce ∉ s.nonces then
      (createdRecord c.id root.ref.sequence true nonce).map fun r =>
        { s.enter h r { id := c.id, epoch := r.epoch, nonce := nonce,
                        next := nextSequence r.epoch r.selected, base := root,
                        owned := some root } with
          creating := Function.update s.creating n none }
    else none

/-- `OpenWith` and `OpenMigration`: the record is read for `Created` first. -/
def opens (h : Nat) (id : List Char) (o : Opening) : Option System :=
  (s.records id).bind fun r =>
    if r.created && (s.vms h).isNone && o.nonce ∉ s.nonces then
      (openedRecord o r).bind fun r' => (s.indexes.find ⟨id, r'.selected⟩).map fun index =>
        { s with
          records := Function.update s.records id (some r')
          vms := Function.update s.vms h (some
            { id := id, epoch := r'.epoch, nonce := o.nonce,
              next := nextSequence r'.epoch r'.selected, base := index, owned := none })
          nonces := o.nonce :: s.nonces }
    else none

end System

/-! ## Publishing -/

/-- The index a capture builds on: a fork's root builds on what its parent published of the point it
was taken at, where it did. -/
def VM.parentIndex (points : List ForkPoint) (v : VM) : Index :=
  if v.root then ((v.point.bind (points[·]?)).bind (·.published)).getD v.base else v.base

/-- The handle once its checkpoint is selected. -/
def VM.install (v : VM) (p : Publication) (index : Index) : VM :=
  { v with base := index, owned := some index, root := false, publishing := none,
           landing := p.point }

/-- A kept checkpoint's time and whether it has state. -/
structure Keeping where
  time : Int
  state : Bool

namespace System

variable (s : System)

def capture (h : Nat) (keep : Bool) : Option System :=
  (s.vms h).bind fun v =>
    if v.free && validSequence v.epoch v.next then
      some (s.setVM h { v with
        publishing := some ⟨v.next, v.parentIndex s.points, keep, none, none⟩
        next := v.next + 1 })
    else none

/-- The index object of a publication is put. It names itself and some of what its parent names. -/
def commit (h : Nat) (named : List Ref) : Option System :=
  (s.vms h).bind fun v => v.publishing.bind fun p =>
    if own : (⟨v.id, p.sequence⟩ : Ref) ∈ named then
      if p.committed.isNone && (s.indexes.find ⟨v.id, p.sequence⟩).isNone &&
          named.all fun r => r = ⟨v.id, p.sequence⟩ || r ∈ p.parent.named then
        let index : Index := ⟨⟨v.id, p.sequence⟩, named, s.lives v.id, own⟩
        some { s.setVM h { v with publishing := some { p with committed := some index } } with
          indexes := s.indexes ++ [index] }
      else none
    else none

/-- The selection of a committed checkpoint. Where the handle learns of it, it installs the index and
decides the sweep of what the index replaces. -/
def select (h : Nat) (k : Keeping) (journals : List Journal) (known : Bool) : Option System :=
  (s.vms h).bind fun v => v.publishing.bind fun p => p.committed.bind fun index =>
    (s.held v).bind fun r =>
      match selecting v.epoch p.sequence
          (if p.keep then some ⟨p.sequence, k.time, k.state⟩ else none) journals r with
      | .error _ => none
      | .ok r' =>
        if known then
          some (((s.setRecord v.id (some r')).setVM h (v.install p index)).decide?
            ((v.owned.bind fun replaced =>
              Lineage.reclaim s.indexes replaced index r'.protectedSequences).map .reclaim))
        else some (s.setRecord v.id (some r'))

/-- A publication ends without an install. -/
def abandon (h : Nat) : Option System :=
  (s.vms h).map fun v => s.setVM h { v with publishing := none, landing := none }

end System

/-! ## Forking -/

namespace System

variable (s : System)

/-- `Handle.Pin`. A pin the handle remembers is answered without the store. -/
def pinBy (v : VM) (sequence : Nat) : Option System :=
  if (⟨v.id, sequence⟩ : Ref) ∈ s.pins then some s
  else (s.held v).bind fun r =>
    match pinning sequence r with
    | .error _ => none
    | .ok r' => some { s.setRecord v.id (some r') with pins := ⟨v.id, sequence⟩ :: s.pins }

/-- `ForkPoint`: the point is over the checkpoint the handle builds on, which it pins. A point with
nothing unpublished has nothing to publish. -/
def forkPoint (h : Nat) (unpublished known : Bool) : Option System :=
  (s.vms h).bind fun v =>
    if v.free && !v.root && v.waiting.isNone && validSequence v.epoch v.next then
      (s.pinBy v v.base.ref.sequence).map fun t =>
        if known then
          { t.setVM h { v with
              waiting := if unpublished then some ⟨v.next, v.base, s.points.length⟩ else none
              next := v.next + 1 } with
            points := s.points ++ [⟨v.base, if unpublished then none else some v.base⟩] }
        else t.setVM h { v with next := v.next + 1 }
    else none

/-- `publishPoint` takes the publication lock. -/
def publishPoint (h : Nat) : Option System :=
  (s.vms h).bind fun v => v.waiting.bind fun w =>
    if v.free then
      some (s.setVM h { v with
        publishing := some ⟨w.sequence, w.parent, false, some w.point, none⟩
        waiting := none })
    else none

/-- The pin of a fork point's own checkpoint, after which the point's children build on it. -/
def pinPoint (h : Nat) : Option System :=
  (s.vms h).bind fun v => v.landing.bind fun point =>
    (s.pinBy v v.base.ref.sequence).map fun t =>
      { t.setVM h { v with landing := none } with
        points := s.points.modify point fun pt => { pt with published := some v.base } }

/-- `Client.Pin`. -/
def pin (id : List Char) (sequence : Nat) : Option System :=
  (s.records id).bind fun r => (pinnedRecord sequence r).map fun (wanted, r') =>
    { s.setRecord id (some r') with pins := ⟨id, wanted⟩ :: s.pins }

/-- `Inherit`, of a checkpoint whose pin was acknowledged. -/
def inherit (ref : Ref) : Option System :=
  if ref ∈ s.pins then
    (s.indexes.find ref).map fun index => { s with points := s.points ++ [⟨index, none⟩] }
  else none

/-- `Manager.Fork`. Nothing is asked of what is stored under the child's identity. -/
def fork (h : Nat) (id : List Char) (point epoch : Nat) (nonce : Nonce) : Option System :=
  (s.points[point]?).bind fun pt =>
    if (s.records id).isNone && (s.vms h).isNone && nonce ∉ s.nonces then
      (createdRecord id (rootSequence epoch) false nonce).map fun r =>
        s.enter h r { id := id, epoch := r.epoch, nonce := nonce, next := r.selected,
                      base := pt.index, owned := none, root := true, point := some point }
    else none

/-- A fork that fails once its record is written deletes the record again. -/
def forkFails (h : Nat) : Option System :=
  (s.vms h).bind fun v =>
    if v.root then
      some { s.setRecord v.id none with vms := Function.update s.vms h none }
    else none

/-! ## Deleting, releasing and sweeping -/

/-- `Manager.Delete`: the record goes, and the sweep of the VM is decided by the record's pins. -/
def remove (id : List Char) : Option System :=
  (s.records id).map fun r =>
    (s.setRecord id none).decide?
      ((sparedCheckpoints s.indexes id r.pinned).map (.deleteVM id (s.lives id)))

/-- What `sweepReleased` deletes, against the record the release left. -/
def sweepReleased (released : Ref) (r : Record) : Option (List Ref) :=
  if released.sequence = r.selected || !r.created then none
  else
    (s.indexes.find released).bind fun previous =>
      (s.indexes.find ⟨released.vm, r.selected⟩).bind fun current =>
        Lineage.reclaim s.indexes previous current r.protectedSequences

/-- `Manager.Release`. -/
def release (id : List Char) (sequence : Nat) : Option System :=
  (s.records id).bind fun r => (releasedRecord sequence r).map fun r' =>
    (s.setRecord id (some r')).decide? ((s.sweepReleased ⟨id, sequence⟩ r').map .reclaim)

/-- A sweep deletes the first object of one checkpoint. -/
def sweep (k : Nat) (r : Ref) : Option System :=
  (s.sweeps[k]?).bind fun sw =>
    if sw.kills r && (s.indexes.find r).isSome && ¬ s.Gone r then
      some { s with gone := s.gone ++ [(r, sw)] }
    else none

def sweepEnds (k : Nat) : Option System :=
  if k < s.sweeps.length then some { s with sweeps := s.sweeps.eraseIdx k } else none

end System

/-! ## Steps -/

inductive Action where
  | create (n : Nat) (id : List Char) (takeOver : Bool)
  | createRoot (n epoch : Nat)
  | createRecord (n h : Nat) (nonce : Nonce)
  | opens (h : Nat) (id : List Char) (o : Opening)
  | capture (h : Nat) (keep : Bool)
  | commit (h : Nat) (named : List Ref)
  | select (h : Nat) (k : Keeping) (journals : List Journal) (known : Bool)
  | abandon (h : Nat)
  | forkPoint (h : Nat) (unpublished known : Bool)
  | publishPoint (h : Nat)
  | pinPoint (h : Nat)
  | pin (id : List Char) (sequence : Nat)
  | inherit (ref : Ref)
  | fork (h : Nat) (id : List Char) (point epoch : Nat) (nonce : Nonce)
  | forkFails (h : Nat)
  | remove (id : List Char)
  | release (id : List Char) (sequence : Nat)
  | sweep (k : Nat) (r : Ref)
  | sweepEnds (k : Nat)

def System.step (s : System) : Action → Option System
  | .create n id takeOver => s.create n id takeOver
  | .createRoot n epoch => s.createRoot n epoch
  | .createRecord n h nonce => s.createRecord n h nonce
  | .opens h id o => s.opens h id o
  | .capture h keep => s.capture h keep
  | .commit h named => s.commit h named
  | .select h k journals known => s.select h k journals known
  | .abandon h => s.abandon h
  | .forkPoint h unpublished known => s.forkPoint h unpublished known
  | .publishPoint h => s.publishPoint h
  | .pinPoint h => s.pinPoint h
  | .pin id q => s.pin id q
  | .inherit ref => s.inherit ref
  | .fork h id point epoch nonce => s.fork h id point epoch nonce
  | .forkFails h => s.forkFails h
  | .remove id => s.remove id
  | .release id q => s.release id q
  | .sweep k r => s.sweep k r
  | .sweepEnds k => s.sweepEnds k

/-- The record an action creates: its identity. -/
def System.creates (s : System) : Action → Option (List Char)
  | .createRecord n _ _ => (s.creating n).map (·.id)
  | .fork _ id _ _ _ => some id
  | _ => none

end Sproutfs.Lineage
