import Sproutfs.Lib.Bytes

/-!
# The journal disk's format

Two header slots of 4 KiB, then the ring. This module is the layout of a slot and of an entry and
their decoders (`journal/format.go`). The digest of the source, XXH3-128, is a parameter `sum`.

Positions, counters and lengths are natural numbers, and a field of the format holds them modulo its
width, as `PutUint64` does.
-/

namespace Sproutfs.JournalDisk

open ByteCodec

def blockBytes : Nat := 4096
def maxStoredBytes : Nat := 16777216
/-- The bound of an entry of blocks. A pad before it at the ring's end is shorter than it. -/
def maxEntryBytes : Nat := maxStoredBytes - blockBytes
/-- The room a batch takes commits into. -/
def maxBatchBytes : Nat := 8388608
def formatVersion : UInt8 := 1
def slotBytes : Nat := 4096
def slotLength : Nat := 104
def ringOffset : Nat := 2 * slotBytes
def minRingSize : Nat := 16384
def entryHeadBytes : Nat := 48
def checksumBytes : Nat := 16
/-- The smallest entry: a pad with nothing in it. -/
def minEntryBytes : Nat := entryHeadBytes + checksumBytes
def maxNameBytes : Nat := 65535

def slotMagic : Bytes := [0x53, 0x46, 0x4a, 0x48]
def entryMagic : Bytes := [0x53, 0x46, 0x4a, 0x45]

/-- Sixteen bytes: an identity (`rank.Identity`) or a digest. -/
abbrev Bytes16 := { b : Bytes // b.length = 16 }

/-- The digest of the source. -/
abbrev Checksum := Bytes → Bytes16

/-- The assignment a journal disk is opened under. -/
structure Lease where
  assigned : UInt64
  member : Bytes16
  deriving DecidableEq

structure Slot where
  empty : Bool
  counter : Nat
  identity : Bytes16
  generation : UInt64
  ringStart : Nat
  ringLength : Nat
  tail : Nat
  lease : Lease
  deriving DecidableEq

structure Slot.Fits (s : Slot) : Prop where
  counter : s.counter < 2 ^ 64
  ringStart : s.ringStart < 2 ^ 64
  ringLength : s.ringLength < 2 ^ 64
  tail : s.tail < 2 ^ 64

/-- Why a slot holds no header of this format. -/
inductive SlotError where
  /-- Blank, torn or damaged. -/
  | noSlot
  /-- It holds together under another version. -/
  | version (v : UInt8)
  deriving DecidableEq

/-! ## Slots -/

/-- The 88 bytes of a slot that its checksum is of. -/
def slotBody (s : Slot) : Bytes :=
  slotMagic ++ ([formatVersion, if s.empty then 1 else 0, 0, 0] ++ (le 8 s.counter ++
    (s.identity.val ++ (le 8 s.generation.toNat ++ (le 8 s.ringStart ++ (le 8 s.ringLength ++
    (le 8 s.tail ++ (le 8 s.lease.assigned.toNat ++ s.lease.member.val))))))))

/-- A whole slot, padded with zeros to 4 KiB. -/
def encodeSlot (sum : Checksum) (s : Slot) : Bytes :=
  slotBody s ++ ((sum (slotBody s)).val ++ zeros (slotBytes - slotLength))

/-- Sixteen bytes of `b`, zeros where `b` is too short. -/
def bytes16 (b : Bytes) (off : Nat) : Bytes16 :=
  ⟨slice (b ++ zeros (off + 16)) off 16, length_slice_zeros b off⟩

def decodeSlot (sum : Checksum) (b : Bytes) : Except SlotError Slot :=
  if b.length < slotLength ∨ slice b 0 4 ≠ slotMagic ∨ (sum (slice b 0 88)).val ≠ slice b 88 16 then
    .error .noSlot
  else if b.getD 4 0 ≠ formatVersion then
    .error (.version (b.getD 4 0))
  else if b.getD 5 0 > 1 ∨ fromLE (slice b 6 2) ≠ 0 then
    .error .noSlot
  else
    .ok { empty := b.getD 5 0 = 1
          counter := fromLE (slice b 8 8)
          identity := bytes16 b 16
          generation := .ofNat (fromLE (slice b 32 8))
          ringStart := fromLE (slice b 40 8)
          ringLength := fromLE (slice b 48 8)
          tail := fromLE (slice b 56 8)
          lease := ⟨.ofNat (fromLE (slice b 64 8)), bytes16 b 72⟩ }

/-! ## Entries -/

/-- The changed blocks of one memory region, taken by one capture. Names are byte strings, as the
source's strings are. -/
structure Entry where
  vm : Bytes := []
  volume : Bytes := []
  epoch : UInt64 := 0
  blocks : List UInt64 := []
  data : Bytes := []
  /-- Where the entry is in its journal. A read sets it; a commit ignores it. -/
  position : Nat := 0
  deriving DecidableEq

def align8 (n : Nat) : Nat := (n + 7) / 8 * 8

/-- How many bytes an entry takes in the ring, of names of these lengths and so many blocks. -/
def entryBytes (vm volume blocks : Nat) : Nat :=
  entryHeadBytes + align8 (vm + volume) + blocks * (8 + blockBytes) + checksumBytes

def Entry.size (e : Entry) : Nat := entryBytes e.vm.length e.volume.length e.blocks.length

/-- The format can hold the entry. -/
def Entry.check (e : Entry) : Bool :=
  e.vm.length ≤ maxNameBytes ∧ e.volume.length ≤ maxNameBytes ∧
    e.data.length = e.blocks.length * blockBytes ∧ e.size ≤ maxEntryBytes

inductive Kind where
  | pad
  | blocks
  deriving DecidableEq

def Kind.byte : Kind → UInt8
  | .pad => 0
  | .blocks => 1

/-- An entry's first 48 bytes, read back. -/
structure Head where
  kind : Kind
  position : Nat
  generation : UInt64
  epoch : UInt64
  length : Nat
  blocks : Nat
  vm : Nat
  volume : Nat
  deriving DecidableEq

def encodeHead (h : Head) : Bytes :=
  entryMagic ++ ([formatVersion, h.kind.byte, 0, 0] ++ (le 8 h.position ++
    (le 8 h.generation.toNat ++ (le 8 h.epoch.toNat ++ (le 4 h.length ++ (le 4 h.blocks ++
    (le 2 h.vm ++ (le 2 h.volume ++ zeros 4))))))))

/-- Appends the digest of `body` to it. -/
def sealed (sum : Checksum) (body : Bytes) : Bytes := body ++ (sum body).val

def Entry.head (e : Entry) (position : Nat) (generation : UInt64) : Head :=
  ⟨.blocks, position, generation, e.epoch, e.size, e.blocks.length, e.vm.length, e.volume.length⟩

/-- What follows the head of an entry of blocks, up to its checksum. -/
def Entry.payload (e : Entry) : Bytes :=
  e.vm ++ (e.volume ++ (zeros (align8 (e.vm.length + e.volume.length) -
    (e.vm.length + e.volume.length)) ++ (e.blocks.flatMap (fun n => le 8 n.toNat) ++ e.data)))

/-- The bytes `appendEntry` appends. -/
def encodeEntry (sum : Checksum) (e : Entry) (position : Nat) (generation : UInt64) : Bytes :=
  sealed sum (encodeHead (e.head position generation) ++ e.payload)

def padHead (length position : Nat) (generation : UInt64) : Head :=
  ⟨.pad, position, generation, 0, length, 0, 0, 0⟩

/-- The bytes `appendPad` appends. -/
def encodePad (sum : Checksum) (length position : Nat) (generation : UInt64) : Bytes :=
  sealed sum (encodeHead (padHead length position generation) ++ zeros (length - minEntryBytes))

/-- What a head of its kind must hold besides the magic, the version and the zeros. -/
def Head.wellFormed (h : Head) : Bool :=
  match h.kind with
  | .pad => h.epoch = 0 ∧ h.blocks = 0 ∧ h.vm = 0 ∧ h.volume = 0 ∧ minEntryBytes ≤ h.length ∧
      h.length % 8 = 0 ∧ h.length ≤ maxStoredBytes
  | .blocks => h.length = entryBytes h.vm h.volume h.blocks ∧ h.length ≤ maxEntryBytes

def kindOf (b : UInt8) : Option Kind :=
  if b = 0 then some .pad else if b = 1 then some .blocks else none

/-- Reads an entry's head. It holds together on its own, but says nothing of the bytes after it
until the checksum is checked. -/
def decodeHead (b : Bytes) : Option Head :=
  if b.length < entryHeadBytes ∨ slice b 0 4 ≠ entryMagic ∨ b.getD 4 0 ≠ formatVersion ∨
      fromLE (slice b 6 2) ≠ 0 ∨ fromLE (slice b 44 4) ≠ 0 then
    none
  else
    (kindOf (b.getD 5 0)).bind fun kind =>
      let h : Head :=
        { kind := kind
          position := fromLE (slice b 8 8)
          generation := .ofNat (fromLE (slice b 16 8))
          epoch := .ofNat (fromLE (slice b 24 8))
          length := fromLE (slice b 32 4)
          blocks := fromLE (slice b 36 4)
          vm := fromLE (slice b 40 2)
          volume := fromLE (slice b 42 2) }
      if h.wellFormed then some h else none

/-- Why bytes are not an entry. -/
inductive EntryError where
  | noEntry
  /-- The head holds together and the bytes do not match the checksum. -/
  | torn
  deriving DecidableEq

/-- Reads back a whole entry, its checksum included, and returns its head. -/
def checkEntry (sum : Checksum) (b : Bytes) : Except EntryError Head :=
  match decodeHead b with
  | none => .error .noEntry
  | some h =>
    if b.length ≠ h.length ∨
        (sum (b.take (h.length - checksumBytes))).val ≠ b.drop (h.length - checksumBytes) then
      .error .torn
    else if slice b (entryHeadBytes + h.vm + h.volume)
        (align8 (h.vm + h.volume) - (h.vm + h.volume)) ≠
        zeros (align8 (h.vm + h.volume) - (h.vm + h.volume)) then
      .error .noEntry
    else .ok h

/-- The VM identity in an entry `checkEntry` passed. -/
def entryVM (b : Bytes) (h : Head) : Bytes := slice b entryHeadBytes h.vm

/-- The block numbers at `at`: `n` fields of 8 bytes. -/
def decodeBlocks (b : Bytes) : Nat → Nat → List UInt64
  | _, 0 => []
  | off, n + 1 => .ofNat (fromLE (slice b off 8)) :: decodeBlocks b (off + 8) n

/-- Reads back a whole entry, its checksum included. -/
def decodeEntry (sum : Checksum) (b : Bytes) : Except EntryError (Head × Entry) :=
  match checkEntry sum b with
  | .error err => .error err
  | .ok h =>
    match h.kind with
    | .pad => .ok (h, {})
    | .blocks =>
      let start := entryHeadBytes + align8 (h.vm + h.volume)
      .ok (h, { vm := entryVM b h
                volume := slice b (entryHeadBytes + h.vm) h.volume
                epoch := h.epoch
                position := h.position
                blocks := decodeBlocks b start h.blocks
                data := slice b (start + 8 * h.blocks) (h.blocks * blockBytes) })

/-! ## The same decoders with every read checked

A read past what a decoder may look at is `none`, as it would be a run-time panic of the source or bytes
of another entry. -/

/-- The bytes of `b` from `lo` to `hi`, of which those before `limit` may be read. -/
def within (b : Bytes) (limit lo hi : Nat) : Option Bytes :=
  if lo ≤ hi ∧ hi ≤ limit ∧ hi ≤ b.length then some (slice b lo (hi - lo)) else none

/-- `decodeHead`, which may read a head. -/
def decodeHeadWithin (b : Bytes) : Option (Option Head) :=
  if b.length < entryHeadBytes then some none
  else do
    let magic ← within b entryHeadBytes 0 4
    let version ← within b entryHeadBytes 4 5
    let reserved ← within b entryHeadBytes 6 8
    let last ← within b entryHeadBytes 44 48
    if magic ≠ entryMagic ∨ version.getD 0 0 ≠ formatVersion ∨ fromLE reserved ≠ 0 ∨ fromLE last ≠ 0 then
      some none
    else do
      let kind ← within b entryHeadBytes 5 6
      let position ← within b entryHeadBytes 8 16
      let generation ← within b entryHeadBytes 16 24
      let epoch ← within b entryHeadBytes 24 32
      let length ← within b entryHeadBytes 32 36
      let blocks ← within b entryHeadBytes 36 40
      let vm ← within b entryHeadBytes 40 42
      let volume ← within b entryHeadBytes 42 44
      some ((kindOf (kind.getD 0 0)).bind fun kind =>
        let h : Head := ⟨kind, fromLE position, .ofNat (fromLE generation), .ofNat (fromLE epoch),
          fromLE length, fromLE blocks, fromLE vm, fromLE volume⟩
        if h.wellFormed then some h else none)

/-- `checkEntry`, which may read as many bytes as the head says. -/
def checkEntryWithin (sum : Checksum) (b : Bytes) : Option (Except EntryError Head) := do
  match ← decodeHeadWithin b with
  | none => some (.error .noEntry)
  | some h =>
    if b.length ≠ h.length then some (.error .torn)
    else do
      let body ← within b h.length 0 (h.length - checksumBytes)
      let digest ← within b h.length (h.length - checksumBytes) h.length
      if (sum body).val ≠ digest then some (.error .torn)
      else do
        let filling ← within b h.length (entryHeadBytes + (h.vm + h.volume))
          (entryHeadBytes + align8 (h.vm + h.volume))
        if filling ≠ zeros (align8 (h.vm + h.volume) - (h.vm + h.volume)) then some (.error .noEntry)
        else some (.ok h)

def decodeBlocksWithin (b : Bytes) (limit : Nat) : Nat → Nat → Option (List UInt64)
  | _, 0 => some []
  | off, n + 1 => do
    let block ← within b limit off (off + 8)
    let rest ← decodeBlocksWithin b limit (off + 8) n
    some (.ofNat (fromLE block) :: rest)

/-- `decodeEntry`, which may read as many bytes as the head says. -/
def decodeEntryWithin (sum : Checksum) (b : Bytes) : Option (Except EntryError (Head × Entry)) := do
  match ← checkEntryWithin sum b with
  | .error err => some (.error err)
  | .ok h =>
    match h.kind with
    | .pad => some (.ok (h, {}))
    | .blocks => do
      let start := entryHeadBytes + align8 (h.vm + h.volume)
      let vm ← within b h.length entryHeadBytes (entryHeadBytes + h.vm)
      let volume ← within b h.length (entryHeadBytes + h.vm) (entryHeadBytes + h.vm + h.volume)
      let blocks ← decodeBlocksWithin b h.length start h.blocks
      let data ← within b h.length (start + 8 * h.blocks) (start + 8 * h.blocks + h.blocks * blockBytes)
      some (.ok (h, { vm, volume, epoch := h.epoch, position := h.position, blocks, data }))

end Sproutfs.JournalDisk
