import Sproutfs.Membership.Change

/-!
# What a controller decides

`Next` and `Carry` of `membership/controller.go`, `membership/attach.go` and `membership/journals.go`:
the one change a controller makes to the membership from what it read of the cloud and the hosts, and
the attaches and detaches that carry a membership out.

A network disk goes by its identity, which the source derives from the volume's name, one for each.
Where the source builds a map from a list, the last entry of an identity is the one a lookup finds,
except for the host that reports a disk, which is the first. The faults a simulation injects are left
out.
-/

namespace Sproutfs.Cluster

/-- One host a controller wants in the membership, as the host last reported itself. -/
structure Host where
  id : Identity
  address : String := ""
  /-- Every disk the host reports attached: its own disk, or the network disks it holds open. Each
  one's state is its state in the host's copy of the membership. -/
  disks : List Disk := []
  /-- The generation of the host's copy. -/
  held : Nat := 0
  /-- The machine the host runs on, empty for one no disk can be attached to. -/
  machine : String := ""
  leaving : Bool := false
  deriving DecidableEq, Repr

/-- One of the deployment's network disks, and the machines the cloud says it is attached to. -/
structure Shard where
  disk : Disk
  machines : List String := []
  /-- Whether the cloud said anything. -/
  known : Bool := false
  deriving DecidableEq, Repr

/-- What a controller moves the membership towards. -/
structure Want where
  code : Code := ⟨1, 0⟩
  earlier : List Code := []
  hosts : List Host := []
  shards : List Shard := []
  journals : List Shard := []
  journalsKnown : Bool := false
  pool : List String := []
  expired : List Identity := []
  /-- The generation the controller read before it listed the journal disks. -/
  journalsAfter : Nat := 0
  deriving DecidableEq, Repr

/-- A host that is here, holding the disk of this identity. -/
def Host.holds (h : Host) (id : Identity) : Bool := h.disks.any (·.id = id)

/-- Whether the host's copy of the membership has `d`, as it is assigned now, releasing. -/
def Host.readRelease (h : Host) (d : Disk) : Bool :=
  if h.held < d.assigned then false
  else h.disks.any fun held => held.id = d.id ∧ held.state = .releasing

/-- The first of `id :: rest` that no later one is below, by `load`. -/
def leastOf (load : Identity → Nat) (id : Identity) (rest : List Identity) : Identity :=
  rest.foldl (fun chosen member => if load member < load chosen then member else chosen) id

/-- The first of `id :: rest` that no later one is above, by `load`. -/
def mostOf (load : Identity → Nat) (id : Identity) (rest : List Identity) : Identity :=
  rest.foldl (fun chosen member => if load chosen < load member then member else chosen) id

/-- A journal disk released and reserved for no machine. -/
def Disk.free (d : Disk) : Bool := d.state = .released ∧ d.machine = ""

def Membership.journalDisks (m : Membership) : List Disk := m.disks.filter (·.kind = .journal)

/-- The member is assigned the journal disk reserved for its machine already. -/
def holdsOwn (journals : List Disk) (member : Identity) (machine : String) : Bool :=
  journals.any fun d => d.member = member ∧ d.machine = machine ∧ d.state ≠ .released

namespace Want

variable (w : Want) (m : Membership)

def sortedHosts : List Host := sorted Host.id w.hosts

def host (id : Identity) : Option Host := w.sortedHosts.reverse.find? (·.id = id)

def reported (disk : Identity) : Option Identity :=
  (w.sortedHosts.find? (·.holds disk)).map Host.id

/-- The shard or the journal disk of this identity that the cloud was asked for. -/
def shard (id : Identity) : Option Shard := (w.shards ++ w.journals).reverse.find? (·.disk.id = id)

/-! ## The steps of `Next` -/

def nextRecode : Option Change :=
  if (w.code ≠ m.code ∨ w.earlier ≠ m.earlier) ∧ w.code.validate = .ok () then
    some (.recode w.code w.earlier)
  else none

/-- Step 1: a member whose host is not wanted, or is leaving, is drained. -/
def nextDrain : Option Change :=
  (m.members.find? fun x => (w.host x.id).all (·.leaving) && x.state ≠ .draining).map
    fun x => .drain x.id

/-- Nobody serves a releasing disk: a host's own disk whose host is gone or has read the release; a
network disk whose member's host is gone or no longer holds it, and that the cloud has on no
machine. -/
def gone (d : Disk) : Bool :=
  match w.shard d.id with
  | none => (w.host d.member).all (·.readRelease d)
  | some s => (w.host d.member).all (fun h => !h.holds d.id) && s.known && s.machines.isEmpty

/-- Step 2: a releasing disk is let go once nobody serves it. -/
def nextLet : Option Change :=
  (m.disks.find? fun d => d.state = .releasing && w.gone d).map fun d => .letGo d.id d.member

/-- Step 3: a released disk nobody reports, and that is not a wanted shard, is removed. -/
def nextRemove : Option Change :=
  (m.disks.find? fun d => (w.reported d.id).isNone && (w.shard d.id).isNone &&
    d.state = .released && d.kind = .cache).map fun d => .remove d.id

/-- Step 4: a wanted shard not listed is added, released. -/
def nextAdd : Option Change :=
  (w.shards.find? fun s => (m.disk s.disk.id).isNone).map fun s => .add s.disk

/-- Step 5: a draining member assigned no disk leaves. -/
def nextLeave : Option Change :=
  (m.members.find? fun x => x.state = .draining && !m.disks.any (·.member = x.id)).map
    fun x => .leave x.id

/-- The disks a host joins with. -/
def joinDisks (h : Host) : List Disk :=
  h.disks.filter fun d => (w.shard d.id).isNone && d.kind = .cache && w.reported d.id = some h.id &&
    (m.disk d.id).all (·.state = .released)

/-- Step 6: a wanted host that is not listed, and not leaving, joins. -/
def nextJoin : Option Change :=
  (w.sortedHosts.find? fun h => (m.member h.id).isNone && !h.leaving).map
    fun h => .join { id := h.id, address := h.address } (w.joinDisks m h)

/-- Step 7: a listed member follows its host's address. -/
def nextMove : Option Change :=
  m.members.findSome? fun x => (w.host x.id).bind fun h =>
    if h.address ≠ x.address ∧ x.state ≠ .draining then some (.move x.id h.address) else none

/-- Step 8: an attaching disk its member's host reports is served. -/
def nextServe : Option Change :=
  (m.disks.find? fun d => d.state = .attaching && w.reported d.id = some d.member).map
    fun d => .serve d.id d.member

/-- Step 9: a disk follows the weight its host reports. -/
def nextWeigh : Option Change :=
  w.sortedHosts.findSome? fun h => h.disks.findSome? fun d => (m.disk d.id).bind fun found =>
    if (w.shard d.id).isNone ∧ d.kind = .cache ∧ w.reported d.id = some h.id ∧
        found.weight ≠ d.weight then
      some (.weigh d.id d.weight)
    else none

/-- Step 9 for a shard, which follows the weight wanted for it. -/
def nextWeighShard : Option Change :=
  w.shards.findSome? fun s => (m.disk s.disk.id).bind fun found =>
    if found.weight ≠ s.disk.weight then some (.weigh s.disk.id s.disk.weight) else none

/-- The members that may be assigned a network disk. -/
def takers : List Identity :=
  (m.members.filter fun x => x.state ≠ .draining &&
    (w.host x.id).any fun h => !h.leaving && h.machine ≠ "").map Member.id

/-! ## The journal disks -/

/-- A journal disk the cloud lists that the membership does not is added, as long as the membership is
not newer than the listing. -/
def nextJournalAdd : Option Change :=
  (w.journals.find? fun s => (m.disk s.disk.id).isNone && m.generation ≤ w.journalsAfter).map
    fun s => .add { s.disk with kind := .journal, empty := true, machine := "" }

/-- A deleting disk the cloud no longer lists is removed. -/
def nextJournalRemove : Option Change :=
  (m.journalDisks.find? fun d => d.state = .deleting && w.journalsKnown &&
    !w.journals.any (·.disk.id = d.id)).map fun d => .remove d.id

/-- A free and empty disk that has expired is marked deleting. -/
def nextJournalDelete : Option Change :=
  (m.journalDisks.find? fun d => d.free && d.empty && w.expired.contains d.id).map
    fun d => .delete d.id

/-- A disk read or released whose holder reports it empty is marked so, and one marked whose holder
reports that it is not is unmarked. A report of another assignment says nothing. -/
def nextJournalMark : Option Change :=
  m.journalDisks.findSome? fun d => (w.host d.member).bind fun h =>
    (h.disks.find? fun held => held.id = d.id ∧ held.assigned = d.assigned).bind fun held =>
      let reading := d.state = .serving ∧ d.machine ≠ h.machine
      if (d.state = .serving ∨ d.state = .releasing) ∧
          ((reading ∨ d.state = .releasing) ∧ held.empty ∧ ¬ d.empty ∨ ¬ held.empty ∧ d.empty) then
        some (.markEmpty d.id held.empty)
      else none

/-- A disk held for reading that is empty is released. -/
def nextJournalRelease : Option Change :=
  (m.journalDisks.find? fun d => d.state = .serving && d.empty &&
    (w.host d.member).any (·.machine ≠ d.machine)).map fun d => .release d.id

/-- A released disk reserved for a machine no longer in the pool is reserved for none. -/
def nextUnreserve : Option Change :=
  (m.journalDisks.find? fun d => d.state = .released && d.machine ≠ "" &&
    !w.pool.contains d.machine).map fun d => .reserve d.id ""

/-- A machine in the pool with no disk reserved for it is reserved a free and empty one. -/
def nextReserve : Option Change :=
  (w.pool.insertionSort fun a b => a ≤ b).findSome? fun machine =>
    if m.journalDisks.any (·.machine = machine) then none
    else (m.journalDisks.find? fun d => d.free && d.empty).map fun d => .reserve d.id machine

/-- A member on a machine with a released disk reserved for it is assigned that disk. -/
def nextOwnJournal : Option Change :=
  (w.takers m).findSome? fun member => (w.host member).bind fun h =>
    (m.journalDisks.find? fun d => d.state = .released && d.machine = h.machine &&
      !holdsOwn m.journalDisks member h.machine).map fun d => .assign d.id member

/-- A released disk that is not empty and reserved for no machine is assigned for reading to the
member holding the fewest journal disks. -/
def nextReader : Option Change :=
  match w.takers m with
  | [] => none
  | first :: rest =>
    let readers member := m.journalDisks.countP (·.member = member)
    (m.journalDisks.find? fun d => d.free && !d.empty).map
      fun d => .assign d.id (leastOf readers first rest)

def nextJournalStep : Option Change :=
  w.nextJournalAdd m <|> w.nextJournalRemove m <|> w.nextJournalDelete m <|> w.nextJournalMark m <|>
    w.nextJournalRelease m <|> w.nextUnreserve m <|> w.nextReserve m <|> w.nextOwnJournal m <|>
    w.nextReader m

/-! ## The shards -/

def isCacheShard (id : Identity) : Bool := w.shards.any (·.disk.id = id)

/-- The shards a member is assigned. -/
def load (member : Identity) : Nat :=
  m.disks.countP fun d => w.isCacheShard d.id && d.state ≠ .released && d.member = member

def moving : Bool :=
  m.disks.any fun d => w.isCacheShard d.id && (d.state = .attaching || d.state = .releasing)

/-- Steps 10 and 11: a released shard is put on the member with the fewest, or, while no shard moves,
the member with the most releases one so that they spread. -/
def nextShardMove : Option Change :=
  match w.takers m with
  | [] => none
  | first :: rest =>
    let least := leastOf (w.load m) first rest
    let most := mostOf (w.load m) first rest
    match m.disks.find? fun d => w.isCacheShard d.id && d.state = .released with
    | some d => some (.assign d.id least)
    | none =>
      if w.moving m ∨ w.load m most - w.load m least < 2 then none
      else (m.disks.find? fun d => w.isCacheShard d.id && d.member = most && d.state = .serving).map
        fun d => .release d.id

/-- `Next`: the one change that moves `m` towards what is wanted, if there is one. -/
def next : Option Change :=
  w.nextRecode m <|> w.nextDrain m <|> w.nextLet m <|> w.nextRemove m <|> w.nextAdd m <|>
    nextLeave m <|> w.nextJoin m <|> w.nextMove m <|> w.nextServe m <|> w.nextWeigh m <|>
    w.nextWeighShard m <|> w.nextJournalStep m <|> w.nextShardMove m

/-- The change `Reconcile` has `Update` make: it is decided over whatever membership `Update` read. -/
def reconcile : Except Error Membership :=
  match w.next m with
  | none => .error .unchanged
  | some change => change.apply m

end Want

/-! ## Carrying a membership out -/

structure Action where
  disk : Identity
  machine : String
  attach : Bool
  deriving DecidableEq, Repr

namespace Want

variable (w : Want) (m : Membership)

/-- Where a shard is to be attached, empty for nowhere, and whether it is left as it is. -/
def carryShard (s : Shard) : String × Bool :=
  match m.disk s.disk.id with
  | none => ("", false)
  | some d =>
    match d.state with
    | .attaching | .serving =>
      -- A member whose host is quiet or on no machine keeps what it has.
      let target := ((w.host d.member).map Host.machine).getD ""
      (target, target = "")
    | .releasing => ("", (w.host d.member).any (·.holds s.disk.id))
    | .unset | .released | .deleting => ("", false)

/-- The same for a journal disk, which is attached while released to the machine it is reserved
for. -/
def carryJournal (s : Shard) : String × Bool :=
  match m.disk s.disk.id with
  | none => ("", false)
  | some d =>
    match d.state with
    | .attaching | .serving =>
      let target := ((w.host d.member).map Host.machine).getD ""
      (target, target = "")
    | .releasing => ("", (w.host d.member).any (·.holds s.disk.id))
    | .released => (if d.machine ≠ "" ∧ w.pool.contains d.machine then d.machine else "", false)
    | .unset | .deleting => ("", false)

/-- The detaches of one disk, given where it is to be. -/
def detaches (s : Shard) (target : String × Bool) : List Action :=
  if s.known = false ∨ target.2 then []
  else (s.machines.filter (· ≠ target.1)).map fun machine => ⟨s.disk.id, machine, false⟩

def attaches (s : Shard) (target : String × Bool) : List Action :=
  if s.known = false ∨ target.2 ∨ target.1 = "" ∨ s.machines.contains target.1 then []
  else [⟨s.disk.id, target.1, true⟩]

/-- `Carry`: every detach first, then every attach, in the order of the disks' identities, the shards
before the journal disks. -/
def carry : List Action :=
  let targets := (sorted (·.disk.id) w.shards).map (fun s => (s, w.carryShard m s)) ++
    (sorted (·.disk.id) w.journals).map fun s => (s, w.carryJournal m s)
  targets.flatMap (fun x => detaches x.1 x.2) ++ targets.flatMap fun x => attaches x.1 x.2

end Want

end Sproutfs.Cluster
