import Mathlib.Data.List.Chain
import Mathlib.Data.List.Sort

/-!
# The cluster's membership

One generation of the membership: the members, the disks they are assigned, and the codes the
deployment stores windows under (`membership/membership.go`, `rank/rank.go`). A `Membership` can only
be built by `new`, so every value of it is one the source's `New` accepted: its lists are in identity
order with no identity twice, and every disk is one a host could route by.

An identity is its sixteen bytes read as a number, so `bytes.Compare` is the order of numbers and the
zero identity is `0`. Generations are natural numbers; nothing here comes near the end of 64 bits. The
list that ranks windows is left out, and with it everything that routes a request; what `NewList`
refuses is kept.
-/

namespace Sproutfs.Cluster

abbrev Identity := Nat

/-- Where a member is in its life in the cluster. `unset` is the zero value. -/
inductive MemberState where
  | unset | joining | active | draining
  deriving DecidableEq, Repr

/-- Where a disk is between the members that serve it. `unset` is the zero value. -/
inductive DiskState where
  | unset | attaching | serving | releasing | released | deleting
  deriving DecidableEq, Repr

namespace DiskState

/-- The number the source gives a state, which it compares states by. -/
def toNat : DiskState → Nat
  | unset => 0
  | attaching => 1
  | serving => 2
  | releasing => 3
  | released => 4
  | deleting => 5

/-- A disk in this state is assigned to a member. -/
def assigned : DiskState → Bool
  | attaching | serving | releasing => true
  | unset | released | deleting => false

end DiskState

/-- A disk of the cluster's cache, which windows are ranked over, or a host's journal disk. -/
inductive DiskKind where
  | cache | journal
  deriving DecidableEq, Repr

structure Member where
  id : Identity
  address : String
  state : MemberState := .unset
  deriving DecidableEq, Repr

structure Disk where
  id : Identity
  volume : String := ""
  weight : Nat := 0
  /-- The member the disk is assigned to, zero for none. -/
  member : Identity := 0
  state : DiskState := .unset
  /-- The generation that assigned the disk to its member, zero for none. -/
  assigned : Nat := 0
  kind : DiskKind := .cache
  /-- The machine a journal disk is reserved for, empty for none. -/
  machine : String := ""
  /-- A journal disk whose last holder closed it with no live entry. -/
  empty : Bool := false
  deriving DecidableEq, Repr

/-- `k` stripes of data and `m` of parity. -/
structure Code where
  k : Nat
  m : Nat
  deriving DecidableEq, Repr

/-- What a change, a check or a write of the membership is refused with. Every constructor but the
first is an `ErrInvalid`, with what its text names. -/
inductive Error where
  | unchanged
  | code (code : Code)
  | earlierCodes (count : Nat)
  | codeTwice (code : Code)
  | member (id : Identity) (address : String)
  | memberState (id : Identity)
  | memberTwice (id : Identity)
  | diskTwice (id : Identity)
  | disk (id : Identity) (weight : Nat)
  | cacheDisk (id : Identity) (state : DiskState) (machine : String) (empty : Bool)
  | diskState (id : Identity)
  | releasedAssigned (id member : Identity) (assigned : Nat)
  | notListed (id member : Identity) (state : DiskState)
  | assignedAt (id : Identity) (assigned generation : Nat)
  | notItsDisk (member disk : Identity)
  | notAssigned (disk member : Identity)
  | notAttaching (disk : Identity) (state : DiskState)
  | noMember (member : Identity)
  | noDisk (disk : Identity)
  | noJournal (disk : Identity)
  | notReleasing (disk : Identity) (state : DiskState) (holder member : Identity)
  | cannotFollow (next current : Nat)
  | assignedWhile (disk member : Identity) (state : DiskState) (holder : Identity)
  | assignedDraining (disk member : Identity)
  | assignedBy (disk : Identity) (assigned generation : Nat)
  | added (disk : Identity) (state : DiskState)
  | releasedWhile (disk : Identity) (state : DiskState)
  | changes (disk : Identity) (holder : Identity) (at_ : Nat) (member : Identity) (assigned : Nat)
  | goesBack (disk : Identity) (was state : DiskState)
  | removedWhile (disk : Identity) (state : DiskState)
  | removedUndeleted (disk : Identity)
  | leavesWhile (member : Identity) (state : MemberState)
  | kindChanges (disk : Identity) (was kind : DiskKind)
  | deletedWhile (disk : Identity) (state : DiskState) (empty : Bool)
  | assignedEmpty (disk : Identity)
  | comesBack (disk : Identity) (state : DiskState)
  | reservedWhile (disk : Identity) (machine : String) (state : DiskState)
  deriving DecidableEq, Repr

/-! ## Checks over lists -/

/-- A loop that returns its first error. -/
def checkAll {α : Type*} (check : α → Except Error Unit) : List α → Except Error Unit
  | [] => .ok ()
  | a :: rest => match check a with
    | .error e => .error e
    | .ok () => checkAll check rest

variable {α : Type*} {members : List Member}

theorem checkAll_ok {check : α → Except Error Unit} {l : List α} :
    checkAll check l = .ok () ↔ ∀ a ∈ l, check a = .ok () := by
  induction l with
  | nil => simp [checkAll]
  | cons a rest ih =>
    rcases h : check a with e | ⟨⟩
    · simp [checkAll, h]
    · simp [checkAll, h, ih]

/-- The loop of `New` over a sorted list: an element with the identity of the one before it is
refused, with the other checks before or after. -/
def checkEach {α : Type*} (id : α → Identity) (check : Bool → α → Except Error Unit) :
    Option Identity → List α → Except Error Unit
  | _, [] => .ok ()
  | before, a :: rest => match check (before = some (id a)) a with
    | .error e => .error e
    | .ok () => checkEach id check (some (id a)) rest

theorem checkEach_ok {id : α → Identity} {check : Bool → α → Except Error Unit} {before : Option Identity}
    {l : List α} (h : checkEach id check before l = .ok ()) (htwice : ∀ a, check true a ≠ .ok ()) :
    (∀ a ∈ l, check false a = .ok ()) ∧ (∀ a, l.head? = some a → before ≠ some (id a)) ∧
      l.IsChain fun a b => id a ≠ id b := by
  induction l generalizing before with
  | nil => simp
  | cons a rest ih =>
    rw [checkEach] at h
    split at h
    case h_1 => cases h
    case h_2 hc =>
      have hne : before ≠ some (id a) := fun he => htwice a (by simpa [he] using hc)
      obtain ⟨hall, hhead, hchain⟩ := ih h
      refine ⟨?_, ?_, ?_⟩
      · intro b hb
        rcases List.mem_cons.mp hb with rfl | hb
        · simpa [hne] using hc
        · exact hall b hb
      · intro b hb
        cases hb
        exact hne
      · exact List.isChain_cons.mpr ⟨fun b hb he => hhead b hb (congrArg some he), hchain⟩

/-- `entries` in identity order. -/
def sorted {α : Type*} (id : α → Identity) (entries : List α) : List α :=
  entries.insertionSort fun a b => id a ≤ id b

theorem mem_sorted {id : α → Identity} {entries : List α} {a : α} : a ∈ sorted id entries ↔ a ∈ entries :=
  List.mem_insertionSort _

theorem sorted_strict {id : α → Identity} {entries : List α}
    (h : (sorted id entries).IsChain fun a b => id a ≠ id b) :
    (sorted id entries).Pairwise fun a b => id a < id b := by
  have hle : (sorted id entries).Pairwise fun a b => id a ≤ id b :=
    List.pairwise_insertionSort (fun a b : α => id a ≤ id b) entries
  have hlt : (sorted id entries).IsChain fun a b => id a < id b := by
    have hchain := hle.isChain
    generalize sorted id entries = l at h hchain
    induction l with
    | nil => exact .nil
    | cons a rest ih =>
      rw [List.isChain_cons] at h hchain ⊢
      exact ⟨fun b hb => lt_of_le_of_ne (hchain.1 b hb) (h.1 b hb), ih h.2 hchain.2⟩
  exact hlt.pairwise

/-- The element of identity `i`, which the source finds by binary search. -/
def find {α : Type*} (id : α → Identity) (entries : List α) (i : Identity) : Option α :=
  entries.find? fun a => id a = i

theorem find_mem {id : α → Identity} {entries : List α} {i : Identity} {a : α}
    (h : find id entries i = some a) : a ∈ entries ∧ id a = i :=
  ⟨List.mem_of_find?_eq_some h, by simpa using List.find?_some h⟩

theorem find_of_mem {id : α → Identity} {entries : List α} (hs : entries.Pairwise fun a b => id a < id b)
    {a : α} (ha : a ∈ entries) : find id entries (id a) = some a := by
  induction entries with
  | nil => cases ha
  | cons b rest ih =>
    obtain ⟨hb, hrest⟩ := List.pairwise_cons.mp hs
    rcases List.mem_cons.mp ha with rfl | ha
    · simp [find]
    · have hne : id b ≠ id a := (hb a ha).ne
      simpa [find, hne] using ih hrest ha

theorem find_none {id : α → Identity} {entries : List α} {i : Identity} :
    find id entries i = none ↔ ∀ a ∈ entries, id a ≠ i := by
  simp [find]

/-! ## What `New` checks -/

def maximumEarlierCodes : Nat := 3
def maximumWidth : Nat := 32

def Code.validate (c : Code) : Except Error Unit :=
  if c.k < 1 ∨ maximumWidth < c.k + c.m then .error (.code c) else .ok ()

/-- The loop of `NewList` over the earlier codes, of which `seen` came before. -/
def checkEarlier (code : Code) : List Code → List Code → Except Error Unit
  | _, [] => .ok ()
  | seen, other :: rest => match other.validate with
    | .error e => .error e
    | .ok () =>
      if other = code ∨ other ∈ seen then .error (.codeTwice other)
      else checkEarlier code (seen ++ [other]) rest

/-- What `NewList` refuses of the codes. What it refuses of the caches, `checkDisk` has refused. -/
def newList (code : Code) (earlier : List Code) : Except Error Unit :=
  match code.validate with
  | .error e => .error e
  | .ok () =>
    if maximumEarlierCodes < earlier.length then .error (.earlierCodes earlier.length)
    else checkEarlier code [] earlier

def checkMember (twice : Bool) (m : Member) : Except Error Unit :=
  if m.id = 0 ∨ m.address = "" then .error (.member m.id m.address)
  else if m.state = .unset then .error (.memberState m.id)
  else if twice then .error (.memberTwice m.id)
  else .ok ()

/-- Refuses a disk no host could route by. -/
def checkDisk (generation : Nat) (members : List Member) (d : Disk) : Except Error Unit :=
  if d.id = 0 ∨ (d.weight = 0 ∧ d.kind = .cache) then .error (.disk d.id d.weight)
  else if d.kind = .cache ∧ (d.machine ≠ "" ∨ d.empty ∨ d.state = .deleting) then
    .error (.cacheDisk d.id d.state d.machine d.empty)
  else if d.state = .unset then .error (.diskState d.id)
  else if d.state = .released ∨ d.state = .deleting then
    if d.member ≠ 0 ∨ d.assigned ≠ 0 then .error (.releasedAssigned d.id d.member d.assigned)
    else .ok ()
  else if find Member.id members d.member = none then .error (.notListed d.id d.member d.state)
  else if d.assigned = 0 ∨ generation < d.assigned then
    .error (.assignedAt d.id d.assigned generation)
  else .ok ()

def checkDiskOnce (generation : Nat) (members : List Member) (twice : Bool) (d : Disk) :
    Except Error Unit :=
  if twice then .error (.diskTwice d.id) else checkDisk generation members d

/-- One generation of the membership, as `New` accepted it. -/
structure Membership where
  generation : Nat
  code : Code
  /-- The codes the deployment used before, newest first. -/
  earlier : List Code
  /-- What the writer that stored it drew; empty for one not stored. -/
  nonce : Option Nat := none
  members : List Member
  disks : List Disk
  codes : newList code earlier = .ok ()
  memberOrder : members.Pairwise fun a b => a.id < b.id
  diskOrder : disks.Pairwise fun a b => a.id < b.id
  memberOk : ∀ m ∈ members, checkMember false m = .ok ()
  diskOk : ∀ d ∈ disks, checkDisk generation members d = .ok ()
  deriving DecidableEq

/-- The membership of a deployment that has written none. -/
def Membership.empty : Membership where
  generation := 0
  code := ⟨1, 0⟩
  earlier := []
  members := []
  disks := []
  codes := by decide
  memberOrder := .nil
  diskOrder := .nil
  memberOk := by simp
  diskOk := by simp

theorem members_ok (h : checkEach Member.id checkMember none (sorted Member.id members) = .ok ()) :
    (∀ m ∈ sorted Member.id members, checkMember false m = .ok ()) ∧
      (sorted Member.id members).Pairwise fun a b => a.id < b.id := by
  obtain ⟨hall, -, hchain⟩ := checkEach_ok h fun m => by
    unfold checkMember
    split_ifs <;> simp_all
  exact ⟨hall, sorted_strict hchain⟩

theorem disks_ok {generation : Nat} {disks : List Disk}
    (h : checkEach Disk.id (checkDiskOnce generation members) none (sorted Disk.id disks) = .ok ()) :
    (∀ d ∈ sorted Disk.id disks, checkDisk generation members d = .ok ()) ∧
      (sorted Disk.id disks).Pairwise fun a b => a.id < b.id := by
  obtain ⟨hall, -, hchain⟩ := checkEach_ok h fun d => by simp [checkDiskOnce]
  exact ⟨fun d hd => by simpa [checkDiskOnce] using hall d hd, sorted_strict hchain⟩

/-- `New`: a membership at `generation`, after checking that every host could route by it. -/
def new (generation : Nat) (code : Code) (members : List Member) (disks : List Disk)
    (earlier : List Code) : Except Error Membership :=
  match code.validate with
  | .error e => .error e
  | .ok () =>
    match hm : checkEach Member.id checkMember none (sorted Member.id members) with
    | .error e => .error e
    | .ok () =>
      match hd : checkEach Disk.id (checkDiskOnce generation (sorted Member.id members)) none
          (sorted Disk.id disks) with
      | .error e => .error e
      | .ok () =>
        match hc : newList code earlier with
        | .error e => .error e
        | .ok () => .ok {
          generation := generation
          code := code
          earlier := earlier
          members := sorted Member.id members
          disks := sorted Disk.id disks
          codes := hc
          memberOrder := (members_ok hm).2
          diskOrder := (disks_ok hd).2
          memberOk := (members_ok hm).1
          diskOk := (disks_ok hd).1 }

theorem new_ok {generation : Nat} {code : Code} {disks : List Disk} {earlier : List Code} {m : Membership}
    (h : new generation code members disks earlier = .ok m) :
    m.generation = generation ∧ m.code = code ∧ m.earlier = earlier ∧ m.nonce = none ∧
      m.members = sorted Member.id members ∧ m.disks = sorted Disk.id disks := by
  unfold new at h
  split at h
  · cases h
  split at h
  · cases h
  split at h
  · cases h
  split at h
  · cases h
  cases h
  exact ⟨rfl, rfl, rfl, rfl, rfl, rfl⟩

namespace Membership

def member (m : Membership) (id : Identity) : Option Member := find Member.id m.members id
def disk (m : Membership) (id : Identity) : Option Disk := find Disk.id m.disks id

variable {m : Membership} {id : Identity} {d : Disk}

theorem disk_id (h : m.disk id = some d) : d.id = id := (find_mem h).2

theorem disk_mem (h : m.disk id = some d) : d ∈ m.disks := (find_mem h).1

theorem disk_of_mem (h : d ∈ m.disks) : m.disk d.id = some d := find_of_mem m.diskOrder h

theorem disk_none (h : m.disk id = none) (hd : d ∈ m.disks) : d.id ≠ id := find_none.mp h d hd

theorem assigned_ok (h : m.disk id = some d) (ha : d.state.assigned) :
    (∃ x, m.member d.member = some x) ∧ 0 < d.assigned ∧ d.assigned ≤ m.generation := by
  have hok := m.diskOk d (disk_mem h)
  unfold checkDisk at hok
  have hs : ¬ (d.state = .released ∨ d.state = .deleting) := by
    rintro (hs | hs) <;> simp [hs, DiskState.assigned] at ha
  split_ifs at hok with _ _ _ h5 h6
  exact ⟨Option.ne_none_iff_exists'.mp h5, by omega, by omega⟩

theorem released_ok (h : m.disk id = some d) (ha : d.state.assigned = false) :
    d.member = 0 ∧ d.assigned = 0 := by
  have hok := m.diskOk d (disk_mem h)
  unfold checkDisk at hok
  split_ifs at hok with _ _ h3 h4 h5
  · simpa [not_or] using h5
  · cases hs : d.state <;> simp_all [DiskState.assigned]

theorem member_id_ne_zero {x : Member} (h : m.member id = some x) : id ≠ 0 := by
  obtain ⟨hx, rfl⟩ := find_mem h
  have hok := m.memberOk x hx
  unfold checkMember at hok
  split_ifs at hok with h1
  tauto

theorem deleting_journal (h : m.disk id = some d) (hs : d.state = .deleting) :
    d.kind = .journal := by
  have hok := m.diskOk d (disk_mem h)
  unfold checkDisk at hok
  split_ifs at hok with _ h2
  all_goals cases hk : d.kind <;> simp_all

end Membership

end Sproutfs.Cluster
