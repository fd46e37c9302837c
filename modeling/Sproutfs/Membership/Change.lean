import Sproutfs.Membership.Membership

/-!
# The changes of the membership, and which of them may follow

Each change of `membership/change.go` builds the membership at the next generation, or says it is
unchanged. Whether that generation may follow is for `step` to say, whoever built it: `Update` writes
nothing `step` refuses.
-/

namespace Sproutfs.Cluster

/-- `disks` with `d` in place of the disk of its identity, or added. -/
def put : List Disk → Disk → List Disk
  | [], d => [d]
  | x :: rest, d => if x.id = d.id then d :: rest else x :: put rest d

/-- The members with the one of identity `id` changed by `f`. -/
def changeMember (members : List Member) (id : Identity) (f : Member → Member) : List Member :=
  members.map fun x => if x.id = id then f x else x

namespace Membership

variable (m : Membership)

/-- The membership at the next generation with `members` and `disks`. -/
def next (members : List Member) (disks : List Disk) : Except Error Membership :=
  new (m.generation + 1) m.code members disks m.earlier

/-- The disk as a joining member takes it. -/
def taken (id : Identity) (d : Disk) : Disk :=
  { d with member := id, state := .attaching, assigned := m.generation + 1 }

def join (x : Member) (disks : List Disk) : Except Error Membership :=
  match m.member x.id with
  | some listed =>
    match checkAll (fun d => if (m.disk d.id).map Disk.member = some listed.id then .ok ()
        else .error (.notItsDisk x.id d.id)) disks with
    | .error e => .error e
    | .ok () => .error .unchanged
  | none =>
    m.next (m.members ++ [{ x with state := .joining }])
      (disks.foldl (fun next d => put next (m.taken x.id d)) m.disks)

def add (d : Disk) : Except Error Membership :=
  match m.disk d.id with
  | some _ => .error .unchanged
  | none => m.next m.members (m.disks ++ [{ d with member := 0, state := .released, assigned := 0 }])

def serve (disk member : Identity) : Except Error Membership :=
  match m.disk disk with
  | none => .error (.notAssigned disk member)
  | some found =>
    if found.member ≠ member then .error (.notAssigned disk member)
    else if found.state = .serving then .error .unchanged
    else if found.state ≠ .attaching then .error (.notAttaching disk found.state)
    else
      m.next
        (changeMember m.members member fun x =>
          if x.state = .joining then { x with state := .active } else x)
        (put m.disks { found with state := .serving })

def move (member : Identity) (address : String) : Except Error Membership :=
  match m.member member with
  | none => .error (.noMember member)
  | some x =>
    if x.address = address then .error .unchanged
    else m.next (changeMember m.members member fun x => { x with address := address }) m.disks

def weigh (disk : Identity) (weight : Nat) : Except Error Membership :=
  match m.disk disk with
  | none => .error (.noDisk disk)
  | some found =>
    if found.weight = weight then .error .unchanged
    else m.next m.members (put m.disks { found with weight := weight })

/-- A disk of a member that is drained. -/
def drained (member : Identity) (d : Disk) : Disk :=
  if d.member = member ∧ (d.state = .attaching ∨ d.state = .serving) then
    { d with state := .releasing }
  else d

def drain (member : Identity) : Except Error Membership :=
  match m.member member with
  | none => .error (.noMember member)
  | some x =>
    let disks := m.disks.map (drained member)
    if x.state = .draining ∧ disks = m.disks then .error .unchanged
    else m.next (changeMember m.members member fun x => { x with state := .draining }) disks

def release (disk : Identity) : Except Error Membership :=
  match m.disk disk with
  | none => .error (.noDisk disk)
  | some found =>
    if found.state = .releasing ∨ found.state = .released then .error .unchanged
    else m.next m.members (put m.disks { found with state := .releasing })

/-- `Let`: a releasing disk's member has stopped serving it, and the disk is assigned to nobody. -/
def letGo (disk member : Identity) : Except Error Membership :=
  match m.disk disk with
  | none => .error (.noDisk disk)
  | some found =>
    if found.state = .released then .error .unchanged
    else if found.state ≠ .releasing ∨ found.member ≠ member then
      .error (.notReleasing disk found.state found.member member)
    else m.next m.members (put m.disks { found with member := 0, state := .released, assigned := 0 })

def assign (disk member : Identity) : Except Error Membership :=
  match m.disk disk with
  | none => .error (.noDisk disk)
  | some found =>
    if found.member = member ∧ (found.state = .attaching ∨ found.state = .serving) then
      .error .unchanged
    else
      m.next m.members (put m.disks { found with
        member := member
        state := .attaching
        assigned := m.generation + 1
        empty := if found.kind = .journal then false else found.empty })

/-- A change of one field of a listed journal disk: reserving it, marking it empty and deleting it
are this with their own test and field. -/
def changeJournal (disk : Identity) (done : Disk → Bool) (f : Disk → Disk) :
    Except Error Membership :=
  match m.disk disk with
  | none => .error (.noJournal disk)
  | some found =>
    if found.kind ≠ .journal then .error (.noJournal disk)
    else if done found then .error .unchanged
    else m.next m.members (put m.disks (f found))

def reserve (disk : Identity) (machine : String) : Except Error Membership :=
  m.changeJournal disk (·.machine = machine) ({ · with machine := machine })

def markEmpty (disk : Identity) (empty : Bool) : Except Error Membership :=
  m.changeJournal disk (·.empty = empty) ({ · with empty := empty })

def delete (disk : Identity) : Except Error Membership :=
  m.changeJournal disk (·.state = .deleting) ({ · with state := .deleting })

def remove (disk : Identity) : Except Error Membership :=
  match m.disk disk with
  | none => .error .unchanged
  | some _ => m.next m.members (m.disks.eraseP (·.id = disk))

def leave (member : Identity) : Except Error Membership :=
  match m.member member with
  | none => .error .unchanged
  | some _ => m.next (m.members.eraseP (·.id = member)) m.disks

def recode (code : Code) (earlier : List Code) : Except Error Membership :=
  if code = m.code ∧ earlier = m.earlier then .error .unchanged
  else new (m.generation + 1) code m.members m.disks earlier

end Membership

/-- One step a controller makes, as the call it is. -/
inductive Change where
  | join (member : Member) (disks : List Disk)
  | add (disk : Disk)
  | serve (disk member : Identity)
  | move (member : Identity) (address : String)
  | weigh (disk : Identity) (weight : Nat)
  | drain (member : Identity)
  | release (disk : Identity)
  | letGo (disk member : Identity)
  | assign (disk member : Identity)
  | reserve (disk : Identity) (machine : String)
  | markEmpty (disk : Identity) (empty : Bool)
  | delete (disk : Identity)
  | remove (disk : Identity)
  | leave (member : Identity)
  | recode (code : Code) (earlier : List Code)
  deriving DecidableEq, Repr

def Change.apply : Change → Membership → Except Error Membership
  | .join member disks, m => m.join member disks
  | .add disk, m => m.add disk
  | .serve disk member, m => m.serve disk member
  | .move member address, m => m.move member address
  | .weigh disk weight, m => m.weigh disk weight
  | .drain member, m => m.drain member
  | .release disk, m => m.release disk
  | .letGo disk member, m => m.letGo disk member
  | .assign disk member, m => m.assign disk member
  | .reserve disk machine, m => m.reserve disk machine
  | .markEmpty disk empty, m => m.markEmpty disk empty
  | .delete disk, m => m.delete disk
  | .remove disk, m => m.remove disk
  | .leave member, m => m.leave member
  | .recode code earlier, m => m.recode code earlier

/-! ## Step -/

/-- What one generation may do to a journal disk: keep its kind, be assigned no longer empty, be
deleted only once released and empty and never come back, and be reserved only while released. -/
def stepJournal (was : Option Disk) (d : Disk) : Except Error Unit :=
  match was with
  | none => .ok ()
  | some was =>
    if d.kind ≠ was.kind then .error (.kindChanges d.id was.kind d.kind)
    else if d.state = .deleting ∧ was.state ≠ .deleting ∧
        (was.state ≠ .released ∨ was.empty = false) then
      .error (.deletedWhile d.id was.state was.empty)
    else if d.state = .attaching ∧ was.state = .released ∧ d.empty then .error (.assignedEmpty d.id)
    else if was.state = .deleting ∧ d.state ≠ .deleting then .error (.comesBack d.id d.state)
    else if d.machine ≠ was.machine ∧ was.state ≠ .released then
      .error (.reservedWhile d.id d.machine was.state)
    else .ok ()

/-- The state of a member of `next`, the zero value's for one not listed. -/
def Membership.memberState (m : Membership) (id : Identity) : MemberState :=
  ((m.member id).map Member.state).getD .unset

/-- A disk that is assigned anew is recognised by its member alone. -/
def assigning (was : Option Disk) (d : Disk) : Bool :=
  d.state = .attaching && was.map Disk.member ≠ some d.member

/-- The first branch of `stepDisk`: a disk assigned anew. -/
def stepAssigned (next : Membership) (was : Option Disk) (d : Disk) : Except Error Unit :=
  match was.filter (·.state ≠ .released) with
  | some was => .error (.assignedWhile d.id d.member was.state was.member)
  | none =>
    if next.memberState d.member = .draining then .error (.assignedDraining d.id d.member)
    else if d.assigned ≠ next.generation then
      .error (.assignedBy d.id d.assigned next.generation)
    else .ok ()

/-- One disk of `next` against what it was. -/
def stepDisk (next : Membership) (was : Option Disk) (d : Disk) : Except Error Unit :=
  match stepJournal was d with
  | .error e => .error e
  | .ok () =>
    if assigning was d then stepAssigned next was d
    else match was with
      | none => if d.state ≠ .released then .error (.added d.id d.state) else .ok ()
      | some was =>
        if d.state = .released then
          if was.state ≠ .releasing ∧ was.state ≠ .released then
            .error (.releasedWhile d.id was.state)
          else .ok ()
        else if d.state = .deleting then .ok ()
        else if d.member ≠ was.member ∨ d.assigned ≠ was.assigned then
          .error (.changes d.id was.member was.assigned d.member d.assigned)
        else if d.state.toNat < was.state.toNat then .error (.goesBack d.id was.state d.state)
        else .ok ()

/-- A disk of the current generation against whether the next one lists it. -/
def stepRemoved (next : Membership) (d : Disk) : Except Error Unit :=
  match next.disk d.id with
  | some _ => .ok ()
  | none =>
    if d.state ≠ .released ∧ d.state ≠ .deleting then .error (.removedWhile d.id d.state)
    else if d.kind = .journal ∧ d.state ≠ .deleting then .error (.removedUndeleted d.id)
    else .ok ()

def stepMember (next : Membership) (x : Member) : Except Error Unit :=
  match next.member x.id with
  | some _ => .ok ()
  | none => if x.state ≠ .draining then .error (.leavesWhile x.id x.state) else .ok ()

/-- `Step`: whether `next` may follow `current`. -/
def step (current next : Membership) : Except Error Unit :=
  if next.generation ≠ current.generation + 1 then
    .error (.cannotFollow next.generation current.generation)
  else
    match checkAll (fun d => stepDisk next (current.disk d.id) d) next.disks with
    | .error e => .error e
    | .ok () =>
      match checkAll (stepRemoved next) current.disks with
      | .error e => .error e
      | .ok () => checkAll (stepMember next) current.members

end Sproutfs.Cluster
