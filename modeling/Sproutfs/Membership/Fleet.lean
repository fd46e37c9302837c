import Sproutfs.Membership.Controller
import Sproutfs.Membership.Store

/-!
# Controllers, hosts and the cloud

Any number of controllers' passes (`ShardControl.Pass`), the hosts that open and close the network
disks the membership assigns them (`host/shards.go`, `host/journaldisks.go`), and the cloud that has
each disk on one machine at a time (`platform/networkdisk.go`).

A pass reads the membership's generation, then where the cloud has each disk and what each host
reports, one after another, and only then updates the membership; `want` is what each pass read, and
the step that reads a part of it is possible only where that part is true. A read of a disk that
failed says nothing of it. What a pass asks of the cloud is done or not, at any time after its update
returned. Detaching a disk ends the handles its machine had of it. The lease in a disk's header, which
may refuse an open further, is left out.
-/

namespace Sproutfs.Cluster

structure Fleet where
  updates : Updates := {}
  /-- The network disks the cloud has, each with the machine it is attached to, if any. -/
  cloud : Identity → Option (Option String) := fun _ => none
  /-- On each machine, the process that holds a disk's device open, and the assignment it was opened
  under. -/
  devices : String → Identity → Option (Identity × Nat) := fun _ _ => none
  copies : Identity → Membership := fun _ => Membership.empty
  /-- The disk a host is about to open, with the assignment it read again. -/
  opening : Identity → Option (Identity × Nat) := fun _ => none
  begun : Nat → Bool := fun _ => false
  /-- What a pass has read of the cloud: for each disk, the membership that was stored then. -/
  listed : Nat → Identity → Option Membership := fun _ _ => none
  reported : Nat → Identity → Bool := fun _ _ => false

inductive FleetAction where
  | begins (pass : Nat)
  | lists (pass : Nat) (disk : Identity)
  | reports (pass : Nat) (host : Identity)
  | updates (action : UpdateAction)
  | carries (pass : Nat) (action : Action)
  | creates (disk : Identity)
  | deletes (pass : Nat) (disk : Identity)
  | refreshes (host : Identity)
  | rereads (host disk : Identity)
  | opens (host : Identity)
  | closes (host disk : Identity)
  | crashes (host : Identity)
  deriving DecidableEq, Repr

/-- The disk, where the membership assigns it to this member and its state is one the host opens a
disk in: attaching or serving, and for a journal disk releasing too. -/
def Membership.assignedHere (m : Membership) (host disk : Identity) : Option Disk :=
  (m.disk disk).filter fun d => d.member = host ∧
    (d.state = .attaching ∨ d.state = .serving ∨ (d.kind = .journal ∧ d.state = .releasing))

namespace Fleet

/-- The deployment: the machine each host runs on, its network disks, and what each pass read. -/
structure Config where
  machine : Identity → String
  disks : List Identity
  want : Nat → Want

section

variable (c : Config) (s : Fleet)

/-- The membership as it is stored now. -/
def newest : Membership := s.updates.read.1

/-- What the cloud says of a disk now: that it has it, and on which machine. -/
def Truthful (sh : Shard) : Prop :=
  sh.known → ∃ at_, s.cloud sh.disk.id = some at_ ∧ sh.machines = at_.toList

instance (sh : Shard) : Decidable (s.Truthful sh) :=
  match h : s.cloud sh.disk.id with
  | none => decidable_of_iff (sh.known = false) (by simp [Truthful, h])
  | some at_ => decidable_of_iff (sh.known → sh.machines = at_.toList) (by simp [Truthful, h])

/-- What a host reports of the network disks: those it holds open, each with the assignment it holds
it under and its state in the host's copy of the membership. -/
def report (host : Identity) : List (Identity × Nat × DiskState) :=
  c.disks.filterMap fun d => (s.devices (c.machine host) d).bind fun held =>
    if held.1 = host then
      some (d, held.2, (((s.copies host).disk d).map Disk.state).getD .unset)
    else none

/-- A host's report, as a pass has it, is what the host would report now. -/
def Reports (h : Host) : Prop :=
  h.machine = c.machine h.id ∧ h.held = (s.copies h.id).generation ∧
    ((h.disks.filter (c.disks.contains ·.id)).map fun d => (d.id, d.assigned, d.state)) =
      s.report c h.id

instance (h : Host) : Decidable (s.Reports c h) :=
  inferInstanceAs (Decidable (_ ∧ _ ∧ _))

/-- A pass has read all it decides from. -/
def Ready (pass : Nat) : Prop :=
  s.begun pass ∧
    (∀ sh ∈ (c.want pass).shards ++ (c.want pass).journals, (s.listed pass sh.disk.id).isSome) ∧
    ∀ h ∈ (c.want pass).hosts, s.reported pass h.id

instance (pass : Nat) : Decidable (s.Ready c pass) := inferInstanceAs (Decidable (_ ∧ _ ∧ _))

/-- The membership a pass goes on from once its update returned. -/
def passed (pass : Nat) : Option Membership :=
  match s.updates.calls pass with
  | .done (.stored m) | .done (.unchanged m) => some m
  | _ => none

/-- The cloud attaches a disk that is on no machine, and detaches one from the machine it is on, which
ends that machine's handles of it. Asked for anything else, it does nothing. -/
def carry (a : Action) : Fleet :=
  if a.attach then
    if s.cloud a.disk = some none then
      { s with cloud := Function.update s.cloud a.disk (some (some a.machine)) }
    else s
  else if s.cloud a.disk = some (some a.machine) then
    { s with
      cloud := Function.update s.cloud a.disk (some none)
      devices := Function.update s.devices a.machine
        (Function.update (s.devices a.machine) a.disk none) }
  else s

def setDevice (machine : String) (disk : Identity) (held : Option (Identity × Nat)) : Fleet :=
  { s with
    devices := Function.update s.devices machine
      (Function.update (s.devices machine) disk held) }

end

/-- One step, where `size` is the length of a membership as the object holds it. -/
def step (c : Config) (size : Membership → Nat) (s : Fleet) : FleetAction → Option Fleet
  | .begins pass =>
    if s.begun pass = false ∧ (c.want pass).journalsAfter = s.newest.generation then
      some { s with begun := Function.update s.begun pass true }
    else none
  | .lists pass disk =>
    match (c.want pass).shard disk with
    | none => none
    | some sh =>
      if s.begun pass ∧ s.listed pass disk = none ∧ s.Truthful sh then
        some { s with
          listed := Function.update s.listed pass
            (Function.update (s.listed pass) disk (some s.newest)) }
      else none
  | .reports pass host =>
    match (c.want pass).host host with
    | none => none
    | some h =>
      if s.reported pass host = false ∧ s.Reports c h then
        some { s with
          reported := Function.update s.reported pass
            (Function.update (s.reported pass) host true) }
      else none
  | .updates (.read pass nonce) =>
    if s.Ready c pass then
      (s.updates.step (fun k => (c.want k).reconcile) size (.read pass nonce)).map
        ({ s with updates := · })
    else none
  | .updates a =>
    (s.updates.step (fun k => (c.want k).reconcile) size a).map ({ s with updates := · })
  | .carries pass a =>
    match s.passed pass with
    | none => none
    | some m => if a ∈ (c.want pass).carry m then some (s.carry a) else none
  | .creates disk =>
    if disk ∈ c.disks ∧ s.cloud disk = none then
      some { s with cloud := Function.update s.cloud disk (some none) }
    else none
  | .deletes pass disk =>
    match s.passed pass with
    | none => none
    | some m =>
      if (c.want pass).journals.any (·.disk.id = disk) ∧
          (m.disk disk).any (·.state = .deleting) ∧ s.cloud disk = some none then
        some { s with cloud := Function.update s.cloud disk none }
      else none
  | .refreshes host => some { s with copies := Function.update s.copies host s.newest }
  | .rereads host disk =>
    match (s.copies host).assignedHere host disk, s.newest.assignedHere host disk with
    | some d, some again =>
      if again.assigned = d.assigned then
        some { s with
          copies := Function.update s.copies host s.newest
          opening := Function.update s.opening host (some (disk, d.assigned)) }
      else none
    | _, _ => none
  | .opens host =>
    match s.opening host with
    | none => none
    | some (disk, assigned) =>
      if s.cloud disk = some (some (c.machine host)) ∧ s.devices (c.machine host) disk = none then
        some { s.setDevice (c.machine host) disk (some (host, assigned)) with
          opening := Function.update s.opening host none }
      else none
  | .closes host disk =>
    if (s.devices (c.machine host) disk).any (·.1 = host) then
      some (s.setDevice (c.machine host) disk none)
    else none
  | .crashes host =>
    some { s with
      devices := fun machine disk =>
        (s.devices machine disk).filter fun held => ¬ (machine = c.machine host ∧ held.1 = host)
      opening := Function.update s.opening host none }

end Fleet

end Sproutfs.Cluster
