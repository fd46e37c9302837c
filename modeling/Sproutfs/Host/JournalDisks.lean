import Sproutfs.Lib.Machine
import Sproutfs.Membership.Change

/-!
# Journal disks on a host

The host's side of its journal disks (`host/journaldisks.go`): the pass that closes and opens what the
membership it holds assigns it, the report it gives the membership's controller (`held`), and the VMs it
lets in (`admit`), registers (`AddMachine`) and forgets. The membership moves on through the generations
`m 0, m 1, …`; the host's view of it moves forward only.

A pass is taken apart where its locks are given back: it looks at one open disk after another, the close
of a disk marked empty takes it out of the table before its journal is closed, and only a close that
fails or finds a live entry opens it again. `held` reads the VMs that run before it takes the lock under
which it reads the rest, so it is two steps, and any number of calls may stand between them.

Left out: the device and the lease beyond whether they let an open or a look succeed; the end of the
host. An entry may be written at any time the disk is open here, since a flush that began before its VM
left is still committed.
-/

namespace Sproutfs.Host

open Cluster

/-- `openJournal`: a journal disk the host holds open. -/
structure Open where
  id : Identity
  assigned : Nat
  /-- The disk's state in the membership the last pass looked at. -/
  state : DiskState
  /-- The disk is reserved for this host's machine, which it writes. -/
  own : Bool
  deriving DecidableEq, Repr

/-- Where a pass is. It goes by the generation it started from. -/
inductive Passing where
  | idle
  /-- It looks at the disks that were open, of which some are left. -/
  | looking (generation : Nat) (were left : List Identity)
  /-- A released disk marked empty is out of the table, and its journal is being closed. -/
  | closing (generation : Nat) (were left : List Identity) (want : Disk)
  /-- The close did not find it empty; it is opened again. -/
  | reopening (generation : Nat) (were left : List Identity) (want : Disk)
  | opening (generation : Nat) (left : List Disk)
  deriving DecidableEq

structure State where
  view : Nat := 0
  opened : List Open := []
  /-- The VMs let in and not yet registered or given up. -/
  admitting : List String := []
  running : List String := []
  passing : Passing := .idle
  /-- For each call of `held` between its two reads, whether it found a VM running. -/
  counted : List Bool := []
  /-- The VMs of the live entries of each journal disk. -/
  live : Identity → List String := fun _ => []
  /-- History: the disks of its own the host reported empty, each with the assignment it held it under. -/
  reported : List (Identity × Nat) := []

structure Config where
  self : Identity
  machine : String
  m : Nat → Membership
  /-- The generations there are. -/
  last : Nat

inductive Action where
  | sees (generation : Nat)
  | passBegins
  /-- The pass looks at the next open disk, whose lease it finds held or not. -/
  | looks (lease : Bool)
  | closes (ok : Bool)
  /-- The disk is opened again, or for the first time, over a membership read for it. -/
  | reopens (read : Nat) (ok : Bool)
  | opens (read : Nat) (ok : Bool)
  | turns
  | admits (vm : String)
  | registers (vm : String)
  | admitted (vm : String)
  | leaves (vm : String)
  | writes (disk : Identity) (vm : String)
  | trims (disk : Identity) (vm : String)
  /-- Another host writes or trims a disk this one does not hold. -/
  | elsewhere (disk : Identity) (live : List String)
  | counts
  | reports (running : Bool)
  deriving DecidableEq

/-- `assigned`: the journal disk, where the membership assigns it to this host. -/
def Config.assigned (c : Config) (generation : Nat) (id : Identity) : Option Disk :=
  ((c.m generation).disk id).filter fun d => d.kind = .journal ∧ d.member = c.self ∧ d.state.assigned

/-- The disk is reserved for this host's machine. -/
def Config.owns (c : Config) (d : Disk) : Bool := d.machine ≠ "" ∧ d.machine = c.machine

namespace State

variable (c : Config) (s : State)

/-- `releasedLocked`: the membership the host holds releases its own journal disk. -/
def released : Bool := s.opened.any fun o => o.own && o.state = .releasing

/-- The disk goes out of the table. -/
def close (id : Identity) : State := { s with opened := s.opened.filter (·.id ≠ id) }

/-- The last part of `openDisk`: the disk goes into the table. -/
def open_ (want : Disk) : State :=
  { s with
    opened := s.opened.filter (·.id ≠ want.id) ++
      [{ id := want.id, assigned := want.assigned, state := want.state, own := c.owns want }] }

/-- What `openDisk` asks of the membership it reads again. -/
def Again (generation read : Nat) (want : Disk) : Prop :=
  generation ≤ read ∧ read ≤ s.view ∧ (c.assigned read want.id).map Disk.assigned = some want.assigned

instance (generation read : Nat) (want : Disk) : Decidable (s.Again c generation read want) :=
  inferInstanceAs (Decidable (_ ∧ _ ∧ _))

/-- The pass's look at one open disk. -/
def look (generation : Nat) (were left : List Identity) (id : Identity) (lease : Bool) : State :=
  match s.opened.find? (·.id = id) with
  | none => { s with passing := .looking generation were left }
  | some held =>
    match c.assigned generation id with
    | none => { s.close id with passing := .looking generation were left }
    | some want =>
      if want.assigned ≠ held.assigned then
        { s.close id with passing := .looking generation were left }
      else if want.state = .releasing ∧ want.empty then
        { s.close id with passing := .closing generation were left want }
      else if lease then
        { s with
          opened := s.opened.map fun o => if o = held then { o with state := want.state } else o
          passing := .looking generation were left }
      else { s.close id with passing := .looking generation were left }

/-- Whether `held` reports a disk empty, having found a VM running or not before it took the lock. -/
def empty (running : Bool) (o : Open) : Bool :=
  s.live o.id = [] && (!o.own || o.state = .releasing && !running && s.admitting = [])

/-- The disks the membership assigns here that were not open and are not released. -/
def unopened (generation : Nat) (were : List Identity) : List Disk :=
  (c.m generation).disks.filter fun d => (c.assigned generation d.id).isSome && d.id ∉ were &&
    d.state ≠ .releasing

end State

def step (c : Config) (s : State) : Action → Option State
  | .sees generation =>
    if s.view < generation ∧ generation ≤ c.last then some { s with view := generation } else none
  | .passBegins => match s.passing with
    | .idle =>
      let were := (s.opened.map Open.id).insertionSort (· ≤ ·)
      some { s with passing := .looking s.view were were }
    | _ => none
  | .looks lease => match s.passing with
    | .looking generation were (id :: left) => some (s.look c generation were left id lease)
    | _ => none
  | .closes ok => match s.passing with
    | .closing generation were left want =>
      if ok then
        if s.live want.id = [] then some { s with passing := .looking generation were left } else none
      else some { s with passing := .reopening generation were left want }
    | _ => none
  | .reopens read ok => match s.passing with
    | .reopening generation were left want =>
      if ok then
        if s.Again c generation read want then
          some { s.open_ c want with passing := .looking generation were left }
        else none
      else some { s with passing := .looking generation were left }
    | _ => none
  | .opens read ok => match s.passing with
    | .opening generation (want :: left) =>
      if ok then
        if s.Again c generation read want then
          some { s.open_ c want with passing := .opening generation left }
        else none
      else some { s with passing := .opening generation left }
    | _ => none
  | .turns => match s.passing with
    | .looking generation were [] =>
      some { s with passing := .opening generation (State.unopened c generation were) }
    | .opening _ [] => some { s with passing := .idle }
    | _ => none
  | .admits vm => if s.released then none else some { s with admitting := vm :: s.admitting }
  | .registers vm =>
    if vm ∈ s.admitting ∧ vm ∉ s.running then some { s with running := vm :: s.running } else none
  | .admitted vm => if vm ∈ s.admitting then some { s with admitting := s.admitting.erase vm } else none
  | .leaves vm => if vm ∈ s.running then some { s with running := s.running.erase vm } else none
  | .writes disk vm =>
    if ∃ o ∈ s.opened, o.id = disk ∧ o.own then
      some { s with live := Function.update s.live disk (vm :: s.live disk) }
    else none
  | .trims disk vm => some { s with live := Function.update s.live disk ((s.live disk).erase vm) }
  | .elsewhere disk live =>
    if ∃ o ∈ s.opened, o.id = disk then none
    else some { s with live := Function.update s.live disk live }
  | .counts => some { s with counted := (s.running ≠ [] : Bool) :: s.counted }
  | .reports running =>
    if running ∈ s.counted then
      some { s with
        counted := s.counted.erase running
        reported := ((s.opened.filter fun o => o.own && s.empty running o).map
          fun o => (o.id, o.assigned)) ++ s.reported }
    else none

end Sproutfs.Host
