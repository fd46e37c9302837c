import Sproutfs.Journal.Format
import Sproutfs.Lib.Disk

/-!
# An open journal: its header, its ring and its index

The state of `journal/journal.go`: what `Open` finds in the two header slots, what it writes, what
reading the ring back indexes, and the tail. `held` of the source, the live entries of each VM and
epoch, is read off the index here (`Journal.held`).
-/

namespace Sproutfs.JournalDisk

open ByteCodec TornDisk

/-- What a journal is opened with. -/
structure Config where
  identity : Bytes16
  lease : Lease

/-- One entry the journal holds. -/
structure Indexed where
  position : Nat
  length : Nat
  vm : Bytes
  epoch : UInt64
  dead : Bool := false
  deriving DecidableEq

/-- One call of `Commit`, waiting for its batch. -/
structure Commit where
  id : Nat
  room : Nat
  deriving DecidableEq

structure Journal where
  lease : Lease
  identity : Bytes16
  generation : UInt64
  ringStart : Nat
  ringLength : Nat
  formatted : Bool
  /-- The header on the disk, in slot `current`. Its tail is the durable tail. -/
  header : Slot
  current : Fin 2
  /-- The position of the oldest live entry, or `written` when there is none. -/
  tail : Nat := 0
  /-- The end of what is on the disk and synced. Between it and `next` lies a failed batch. -/
  written : Nat := 0
  next : Nat := 0
  /-- Every entry from the tail on, in position order; dead ones stay until those before them
  die. -/
  live : List Indexed := []
  /-- The epoch each VM was fenced at by a read. -/
  fences : Bytes → UInt64 := fun _ => 0
  queue : List Commit := []
  placed : Nat := 0
  completed : Nat := 0
  /-- The lease was taken: the journal no longer writes. -/
  failed : Bool := false
  closed : Bool := false

/-! ## The header -/

scoped instance slots_neZero : NeZero 2 := ⟨by decide⟩

def slotOffset (i : Fin 2) : Nat := i.val * slotBytes

def slotAt (sum : Checksum) (d : Disk) (i : Fin 2) : Except SlotError Slot :=
  decodeSlot sum (d.read (slotOffset i) slotBytes)

/-- Which of the two slots wins, and its index: the valid one with the higher counter. -/
def winner : Except SlotError Slot → Except SlotError Slot → Except SlotError (Slot × Fin 2)
  | .error (.version v), _ => .error (.version v)
  | _, .error (.version v) => .error (.version v)
  | .ok s₀, .ok s₁ => if s₁.counter > s₀.counter then .ok (s₁, 1) else .ok (s₀, 0)
  | .error .noSlot, .ok s₁ => .ok (s₁, 1)
  | .ok s₀, .error .noSlot => .ok (s₀, 0)
  | .error .noSlot, .error .noSlot => .error .noSlot

/-- Reads both slots and returns the one that wins, and its index. -/
def readHeader (sum : Checksum) (d : Disk) : Except SlotError (Slot × Fin 2) :=
  winner (slotAt sum d 0) (slotAt sum d 1)

inductive OpenError where
  | tooSmall
  | version (v : UInt8)
  | identity
  | ring
  | leased
  deriving DecidableEq

/-- A ring the format allows, on a disk of `size` bytes. -/
def Slot.ringFits (s : Slot) (size : Nat) : Bool :=
  s.ringStart = ringOffset ∧ minRingSize ≤ s.ringLength ∧ s.ringLength % blockBytes = 0 ∧
    s.ringStart + s.ringLength ≤ size

/-- The header's lease is newer than the one the disk is opened under, or another member's. -/
def Slot.leasedAway (s : Slot) (lease : Lease) : Bool :=
  s.lease.assigned > lease.assigned ∨
    (s.lease.assigned = lease.assigned ∧ s.lease.member ≠ lease.member)

/-- The header of a disk formatted anew. The first position is the ring's length, so no position is
zero. -/
def formatSlot (config : Config) (size : Nat) (generation : UInt64) : Slot where
  empty := false
  counter := 0
  identity := config.identity
  generation := generation
  ringStart := ringOffset
  ringLength := (size - ringOffset) / blockBytes * blockBytes
  tail := (size - ringOffset) / blockBytes * blockBytes
  lease := ⟨0, ⟨zeros 16, rfl⟩⟩

/-- The journal `Open` holds once it has read the header, and before it takes the lease. -/
def found (config : Config) (s : Slot) (current : Fin 2) (formatted : Bool) : Journal where
  lease := config.lease
  identity := config.identity
  generation := s.generation
  ringStart := s.ringStart
  ringLength := s.ringLength
  formatted := formatted
  header := s
  current := current

/-- `Open` up to the lease: a disk with no header is formatted under `generation`. -/
def openHeader (sum : Checksum) (config : Config) (size : Nat) (generation : UInt64) (d : Disk) :
    Except OpenError Journal :=
  if size < ringOffset + minRingSize then .error .tooSmall
  else match readHeader sum d with
    | .error .noSlot => .ok (found config (formatSlot config size generation) 1 true)
    | .error (.version v) => .error (.version v)
    | .ok (s, current) =>
      if s.identity ≠ config.identity then .error .identity
      else if ¬ s.ringFits size then .error .ring
      else if s.leasedAway config.lease then .error .leased
      else .ok (found config s current false)

namespace Journal

/-- The slot `writeSlot` writes for `s`, under this journal's lease and the next counter. -/
def nextSlot (j : Journal) (s : Slot) : Slot :=
  { s with counter := j.header.counter + 1, lease := j.lease }

/-- The slot that does not hold the current header. -/
def other (j : Journal) : Fin 2 := 1 - j.current

/-- The journal once `s` is written into the other slot and synced. -/
def tookSlot (j : Journal) (s : Slot) : Journal := { j with header := s, current := j.other }

/-- The slot `Open` takes the lease with. -/
def leaseSlot (j : Journal) : Slot := j.nextSlot { j.header with empty := false }

/-- The slot `writeHeader` writes. -/
def tailSlot (j : Journal) (empty : Bool) : Slot :=
  j.nextSlot { j.header with tail := j.tail, empty := empty }

/-! ## The ring -/

/-- Where `position` lies on the disk. -/
def offset (j : Journal) (position : Nat) : Nat := j.ringStart + position % j.ringLength

/-- How many bytes are left from `position` to the ring's end. -/
def room (j : Journal) (position : Nat) : Nat := j.ringLength - position % j.ringLength

/-- The position of the oldest live entry, or `written` when there is none, with the dead entries
before it dropped. -/
def withLiveTail (j : Journal) : Journal :=
  let live := j.live.dropWhile (·.dead)
  { j with live := live, tail := (live.head?.map (·.position)).getD j.written }

/-- The live entries of one VM and epoch, in position order. -/
def held (j : Journal) (vm : Bytes) (epoch : UInt64) : List Indexed :=
  j.live.filter fun e => !e.dead && e.vm == vm && e.epoch == epoch

/-- What reading back finds at `position`: the head there and the entry's bytes, or nothing where
reading back stops. -/
def entryAt (sum : Checksum) (d : Disk) (j : Journal) (position : Nat) : Option (Head × Bytes) :=
  if j.room position < minEntryBytes then none
  else (decodeHead (d.read (j.offset position) entryHeadBytes)).bind fun h =>
    if h.position ≠ position ∨ h.generation ≠ j.generation ∨ h.length > j.room position then none
    else match checkEntry sum (d.read (j.offset position) h.length) with
      | .error _ => none
      | .ok _ => some (h, d.read (j.offset position) h.length)

/-- Adds an entry of blocks, read back at `position`, to the index; a pad is not indexed. -/
def indexEntry (live : List Indexed) (position : Nat) (h : Head) (b : Bytes) : List Indexed :=
  match h.kind with
  | .pad => live
  | .blocks => live ++ [⟨position, h.length, entryVM b h, h.epoch, false⟩]

/-- Reads the ring from `position` on, `start` being where reading back began: the entries of blocks
after those in `live`, and the head. Every round moves on by an entry's length, so as many rounds as
the ring has bytes are enough. -/
def scan (sum : Checksum) (d : Disk) (j : Journal) (start : Nat) :
    Nat → Nat → List Indexed → List Indexed × Nat
  | 0, position, live => (live, position)
  | fuel + 1, position, live =>
    if position - start < j.ringLength then
      match j.entryAt sum d position with
      | none => (live, position)
      | some (h, b) =>
        scan sum d j start fuel (position + h.length) (indexEntry live position h b)
    else (live, position)

/-- Reads the ring from the header's tail hint to the head, and indexes every entry it finds. -/
def readBack (sum : Checksum) (d : Disk) (j : Journal) : Journal :=
  let r := j.scan sum d j.header.tail j.ringLength j.header.tail []
  ({ j with live := r.1, written := r.2, next := r.2 }).withLiveTail

/-- Why the journal takes no commit and serves no read. -/
def refuses (j : Journal) : Bool := j.failed || j.closed

/-- The trim of one entry: dead once it is of an epoch `covered` does not name, or at or before the
position `covered` names for it. -/
def trimmed (vm : Bytes) (covered : UInt64 → Option Nat) (e : Indexed) : Indexed :=
  if e.vm = vm ∧ ∀ p ∈ covered e.epoch, e.position ≤ p then { e with dead := true } else e

/-- `Trim`: says which of a VM's entries are still live. -/
def trim (j : Journal) (vm : Bytes) (covered : UInt64 → Option Nat) : Journal :=
  ({ j with live := j.live.map (trimmed vm covered) }).withLiveTail

/-- What a read does to the journal: it fences the VM at the reader's epoch. -/
def fence (j : Journal) (vm : Bytes) (reader : UInt64) : Journal :=
  { j with fences := if j.fences vm < reader then Function.update j.fences vm reader else j.fences }

end Journal

end Sproutfs.JournalDisk
