import Mathlib.Data.Nat.Basic
import Mathlib.Data.List.Basic
import Sproutfs.Lib.Machine

/-!
# Versions kept in a spill file

The allocations of a spill file and the published versions it keeps in them
(`vmmemory/internal/zirconvm/spillstorage.go`). The file is read and written without the lock, so
`ReadVersion` and `WriteVersion` are two steps each, with any others between them. Left out: the bytes,
their lengths and checksums but for whether they match, the metadata and the counts of what is stored.
-/

namespace Sproutfs.Spill

variable {K : Type} [DecidableEq K]

structure Version (K : Type) where
  key : K
  id : Nat
  number : Nat
  deriving DecidableEq, Repr

structure Allocation where
  written : Bool := false
  version : Bool := false
  /-- It was read since the queue last passed over it. -/
  read : Bool := false
  deriving DecidableEq, Repr

def Allocation.unread (a : Allocation) : Allocation := { a with read := false }

structure Storage (K : Type) where
  budget : Nat
  maxVersions : Nat
  next : Nat := 0
  /-- The allocations given back, the last first. -/
  free : List Nat := []
  allocations : Nat → Allocation := fun _ => {}
  versions : List (Version K) := []
  /-- The versions in the order they are dropped in, with some that were dropped already. -/
  queue : List (Version K) := []
  published : Nat := 0
  /-- The allocations that are reservations. -/
  refs : List Nat := []
  /-- The versions being read, and those being written with their allocations. -/
  reads : List (Version K) := []
  writes : List (K × Nat) := []

namespace Storage

variable (s : Storage K)

def find (key : K) : Option (Version K) := s.versions.find? (·.key = key)

/-- The key still names this version. -/
def current (v : Version K) : Bool := (s.find v.key).any (·.number = v.number)

def freeLocked (id : Nat) : Storage K :=
  { s with allocations := Function.update s.allocations id {}, free := id :: s.free }

/-- How many rounds the queue may still take: a version that was read is passed over once. -/
def rounds : Nat := s.queue.length + s.queue.countP fun v => (s.allocations v.id).read

/-- The oldest version not read since the queue last passed over it is dropped, for its allocation.
None is an index out of range. -/
def dropOldestLocked (s : Storage K) : Option (Option Nat × Storage K) :=
  if s.versions = [] then some (none, s)
  else match hq : s.queue with
    | [] => none
    | entry :: rest =>
      if s.current entry = false then dropOldestLocked { s with queue := rest }
      else if hr : (s.allocations entry.id).read then
        dropOldestLocked { s with
          queue := rest ++ [entry]
          allocations := Function.update s.allocations entry.id (s.allocations entry.id).unread }
      else some (some entry.id, { s with
        queue := rest
        versions := s.versions.filter (·.key ≠ entry.key)
        allocations := Function.update s.allocations entry.id {} })
termination_by s.rounds
decreasing_by
  · simp only [rounds, hq, List.length_cons, List.countP_cons]
    omega
  · have hle : rest.countP (fun v => (Function.update s.allocations entry.id
        (s.allocations entry.id).unread v.id).read) ≤ rest.countP fun v => (s.allocations v.id).read := by
      refine List.countP_mono_left fun v _ hv => ?_
      by_cases h : v.id = entry.id
      · simp [h, Allocation.unread] at hv
      · simpa [h] using hv
    simp [rounds, hq, hr, List.countP_append, Allocation.unread] at hle ⊢
    omega

/-- A version is kept under a key that has none. -/
def keep (key : K) (id : Nat) : Storage K :=
  let version : Version K := ⟨key, id, s.published + 1⟩
  { s with
    allocations := Function.update s.allocations id { written := true, version := true }
    published := s.published + 1
    versions := s.versions ++ [version]
    queue := s.queue ++ [version] }

def reserve : Option (Storage K) :=
  match s.free with
  | id :: rest => some { s with free := rest, refs := id :: s.refs }
  | [] =>
    if s.next < s.budget then some { s with next := s.next + 1, refs := s.next :: s.refs }
    else s.dropOldestLocked.map fun (id, s) => { s with refs := id.toList ++ s.refs }

def publish (ref : Nat) (key : K) : Option (Storage K) :=
  if (s.allocations ref).written = false ∨ (s.find key).isSome ∨ s.maxVersions = 0 then
    some (s.freeLocked ref)
  else if s.versions.length = s.maxVersions then
    s.dropOldestLocked.bind fun (id, s) => id.map fun id => { s with free := id :: s.free }.keep key ref
  else some (s.keep key ref)

/-- The section of `WriteVersion` before the write: the allocation it writes, if it gets one. -/
def writeBegins (key : K) : Option (Storage K) :=
  if (s.find key).isSome ∨ s.maxVersions = 0 then some s
  else
    let taken : Option (Option Nat × Storage K) :=
      if s.maxVersions ≤ s.versions.length then s.dropOldestLocked
      else match s.free with
        | id :: rest => some (some id, { s with free := rest })
        | [] =>
          if s.next < s.budget then some (some s.next, { s with next := s.next + 1 })
          else s.dropOldestLocked
    taken.map fun (id, s) => { s with writes := id.toList.map (key, ·) ++ s.writes }

/-- The section after it. -/
def writeEnds (key : K) (id : Nat) (ok : Bool) : Storage K :=
  if ok = false ∨ (s.find key).isSome then s.freeLocked id else s.keep key id

/-- The end of `ReadVersion`: a version that is still the same and does not match its checksum is
dropped. -/
def readEnds (v : Version K) (damaged : Bool) : Storage K :=
  if s.current v ∧ damaged then { s with versions := s.versions.filter (·.key ≠ v.key) }.freeLocked v.id
  else s

inductive Action (K : Type) where
  | reserve
  | storeReserved (refs : List Nat)
  | unstore (ref : Nat)
  | free (ref : Nat)
  | publish (ref : Nat) (key : K)
  | readBegins (key : K)
  | readEnds (v : Version K) (damaged : Bool)
  | writeBegins (key : K)
  | writeEnds (key : K) (id : Nat) (ok : Bool)

/-- A reference is used only while it is handed out. -/
def step : Action K → Option (Storage K)
  | .reserve => s.reserve
  | .storeReserved refs =>
    if refs ⊆ s.refs then
      some { s with allocations := refs.foldl (fun a id => Function.update a id { written := true }) s.allocations }
    else none
  | .unstore ref =>
    if ref ∈ s.refs then some { s with allocations := Function.update s.allocations ref {} } else none
  | .free ref => if ref ∈ s.refs then some ({ s with refs := s.refs.erase ref }.freeLocked ref) else none
  | .publish ref key => if ref ∈ s.refs then { s with refs := s.refs.erase ref }.publish ref key else none
  | .readBegins key => (s.find key).map fun v => { s with
      allocations := Function.update s.allocations v.id { s.allocations v.id with read := true }
      reads := v :: s.reads }
  | .readEnds v damaged =>
    if v ∈ s.reads then some ({ s with reads := s.reads.erase v }.readEnds v damaged) else none
  | .writeBegins key => s.writeBegins key
  | .writeEnds key id ok =>
    if (key, id) ∈ s.writes then some ({ s with writes := s.writes.erase (key, id) }.writeEnds key id ok)
    else none

end Storage

end Sproutfs.Spill
