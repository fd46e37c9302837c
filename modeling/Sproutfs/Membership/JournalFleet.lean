import Sproutfs.Membership.Fleet

/-!
# The journal disks of a fleet

The fleet with what is on its journal disks (`membership/journals.go`, `host/journaldisks.go`): the live
entries each holds, by the machine that wrote them; the assignment its header is leased to, which
refuses an older one; and which of its handles is a writer's. A host writes only the disk that the
membership it opened it under reserves for its machine. An entry stops being live at any time, as a
checkpoint covers it.

A journal disk has a name drawn at random, so the cloud makes each once. A pass that says it knows the
journal disks has found every one it does not name missing from the cloud; the listing is one look at
each disk, in any order, after the pass read the membership's generation. The shards a pass describes
are cache disks. A machine that leaves the pool takes its attachments, its handles and its hosts with
it.

What a host reports of a disk's being empty goes with its report. That such a report is true when it is
made and stays so under its assignment is for the host to see to (`Host.JournalDisks`), and is asked of a
run here.
-/

namespace Sproutfs.Cluster

structure JournalFleet where
  fleet : Fleet := {}
  /-- The assignment each disk's header is leased to, zero for none. -/
  lease : Identity → Nat := fun _ => 0
  /-- The machines that wrote the entries of a disk that are live. -/
  live : Identity → List String := fun _ => []
  /-- The disk a host is about to open is its own. -/
  opensOwn : Identity → Bool := fun _ => false
  /-- The handle a machine has of a disk is one of its own disk. -/
  own : String → Identity → Bool := fun _ _ => false
  /-- The disks a pass found missing from the cloud. -/
  missed : Nat → Identity → Bool := fun _ _ => false
  /-- History: the disks reported empty, each with the assignment it was held under, and the disks the
  cloud has made. -/
  emptied : List (Identity × Nat) := []
  made : Identity → Bool := fun _ => false

inductive JournalAction where
  | fleet (action : FleetAction)
  /-- A pass lists the journal disks, and this one is not there. -/
  | misses (pass : Nat) (disk : Identity)
  /-- A host's open takes the disk's lease, and fails after that. -/
  | leases (host : Identity)
  | writes (host disk : Identity)
  | trims (disk : Identity) (machine : String)
  | leaves (machine : String)
  deriving DecidableEq, Repr

namespace JournalFleet

open Fleet

section

variable (c : Config) (s : JournalFleet)

/-- The disks a host's report says are empty, with the assignments it holds them under. -/
def empties (h : Host) : List (Identity × Nat) :=
  (h.disks.filter fun d => c.disks.contains d.id && d.empty).map fun d => (d.id, d.assigned)

/-- The disk is the host's own: `own` of `openDisk`. -/
def owns (host : Identity) (d : Disk) : Bool :=
  d.kind = .journal ∧ d.machine ≠ "" ∧ d.machine = c.machine host

/-- What the journal disks ask of a step of the fleet. -/
def Allows : FleetAction → Prop
  | .lists pass disk => ∀ sh ∈ (c.want pass).journals, sh.disk.id = disk → sh.known
  | .updates (.read pass _) =>
    (∀ sh ∈ (c.want pass).shards, sh.disk.kind = .cache) ∧
      ((c.want pass).journalsKnown → ∀ disk ∈ c.disks,
        (∀ sh ∈ (c.want pass).journals, sh.disk.id ≠ disk) → s.missed pass disk)
  | .creates disk => s.made disk = false
  | .opens host => ∀ p ∈ s.fleet.opening host, s.lease p.1 ≤ p.2
  | _ => True

instance (a : FleetAction) : Decidable (s.Allows c a) := by
  unfold Allows
  split <;> infer_instance

/-- What a step of the fleet, which comes to `f`, does to the rest. -/
def after (f : Fleet) : FleetAction → JournalFleet
  | .reports pass host =>
    { s with
      fleet := f
      emptied := (((c.want pass).host host).map (empties c)).getD [] ++ s.emptied }
  | .creates disk => { s with fleet := f, made := Function.update s.made disk true }
  | .rereads host disk =>
    { s with
      fleet := f
      opensOwn := Function.update s.opensOwn host
        (((s.fleet.copies host).assignedHere host disk).any (owns c host)) }
  | .opens host => match s.fleet.opening host with
    | none => { s with fleet := f }
    | some (disk, assigned) =>
      { s with
        fleet := f
        lease := Function.update s.lease disk assigned
        own := Function.update s.own (c.machine host)
          (Function.update (s.own (c.machine host)) disk (s.opensOwn host)) }
  | _ => { s with fleet := f }

def gone (machine : String) : Fleet :=
  { s.fleet with
    cloud := fun disk =>
      if s.fleet.cloud disk = some (some machine) then some none else s.fleet.cloud disk
    devices := Function.update s.fleet.devices machine fun _ => none
    opening := fun host => if c.machine host = machine then none else s.fleet.opening host }

end

/-- One step, where `size` is the length of a membership as the object holds it. -/
def step (c : Config) (size : Membership → Nat) (s : JournalFleet) : JournalAction → Option JournalFleet
  | .fleet a =>
    if s.Allows c a then (Fleet.step c size s.fleet a).map fun f => s.after c f a else none
  | .misses pass disk =>
    if s.fleet.begun pass ∧ s.fleet.cloud disk = none then
      some { s with
        missed := Function.update s.missed pass (Function.update (s.missed pass) disk true) }
    else none
  | .leases host => match s.fleet.opening host with
    | none => none
    | some (disk, assigned) =>
      if s.fleet.cloud disk = some (some (c.machine host)) ∧
          s.fleet.devices (c.machine host) disk = none ∧ s.lease disk ≤ assigned then
        some { s with
          fleet := { s.fleet with opening := Function.update s.fleet.opening host none }
          lease := Function.update s.lease disk assigned }
      else none
  | .writes host disk =>
    if (s.fleet.devices (c.machine host) disk).any (·.1 = host) ∧ s.own (c.machine host) disk then
      some { s with live := Function.update s.live disk (c.machine host :: s.live disk) }
    else none
  | .trims disk machine =>
    some { s with live := Function.update s.live disk ((s.live disk).erase machine) }
  | .leaves machine => some { s with fleet := s.gone c machine }

/-- A report that a disk is empty is true when it is made, and nothing is written under the assignment
it was made under afterwards. -/
def Honest (c : Config) (s : JournalFleet) : JournalAction → Prop
  | .fleet (.reports pass host) => ∀ h ∈ (c.want pass).host host, ∀ p ∈ empties c h, s.live p.1 = []
  | .writes host disk =>
    ∀ p ∈ s.fleet.devices (c.machine host) disk, (disk, p.2) ∉ s.emptied
  | _ => True

instance (c : Config) (s : JournalFleet) (a : JournalAction) : Decidable (s.Honest c a) := by
  unfold Honest
  split <;> infer_instance

/-- A journal disk leaves the membership only once the cloud does not have it. -/
def RemovesDeleted (s : JournalFleet) : JournalAction → Prop
  | .fleet (.updates (.lands index _)) => ∀ p ∈ s.fleet.updates.made[index]?, ∀ d ∈ p.2.read.disks,
      d.kind = .journal → p.2.next.disk d.id = none → s.fleet.cloud d.id = none
  | _ => True

instance (s : JournalFleet) (a : JournalAction) : Decidable (s.RemovesDeleted a) := by
  unfold RemovesDeleted
  split <;> infer_instance

end JournalFleet

end Sproutfs.Cluster
