import Sproutfs.Journal.World
import Sproutfs.Lib.Tiling

/-!
# What holds of a journal disk

The records of the ring lie end to end, none crosses the ring's end, and what is left of the ring
after one is nothing or room for another.
-/

namespace Sproutfs.JournalDisk

open ByteCodec TornDisk Tiling

/-- A ring length the format allows. -/
structure RingLength (n : Nat) : Prop where
  min : minRingSize ≤ n
  blocks : n % blockBytes = 0

/-- A record may begin at `p` on a ring of length `n`: there is room for one before the ring's
end. -/
structure CanBegin (n p : Nat) : Prop where
  aligned : p % 8 = 0
  room : minEntryBytes ≤ n - p % n

/-- What the format allows on the ring. -/
def Item.WellFormed : Item → Prop
  | .pad n => minEntryBytes ≤ n ∧ n % 8 = 0 ∧ n ≤ maxStoredBytes
  | .blocks e => e.check

/-- A record that lies on a ring of length `n` as it should: it does not cross the ring's end, and
another may begin after it. -/
structure Stored.OnRing (n : Nat) (s : Stored) : Prop where
  wellFormed : s.item.WellFormed
  begins : CanBegin n s.position
  fits : s.position % n + s.size ≤ n
  after : CanBegin n s.stop

/-- The records of `l` lie end to end from `a` to `b` on a ring of length `n`. -/
structure OnRing (n : Nat) (generation : UInt64) (l : List Stored) (a b : Nat) : Prop where
  tiles : Tiles Stored.position Stored.stop l a b
  each : ∀ s ∈ l, s.OnRing n
  generation : ∀ s ∈ l, s.generation = generation

/-- The end of what is written is a place for a record, and a failed batch after it ends on a block
boundary. -/
structure Journal.Spaced (j : Journal) : Prop where
  length : RingLength j.ringLength
  begins : CanBegin j.ringLength j.written
  range : j.written = j.next ∨
    (j.next % blockBytes = 0 ∧ j.written + minEntryBytes ≤ j.next)

/-- A batch of entries of `room` bytes in all and `largest` in one, laid out from `j`. -/
structure Placed (j : Journal) (room largest : Nat) (captured : List (Option (List Entry)))
    (p : Placement) : Prop where
  start : p.start = j.written
  /-- Gap-free records from the batch's start to its end, none across the ring's end. -/
  ring : p.image ≠ [] → OnRing j.ringLength j.generation p.image j.written p.stop
  /-- The batch ends on a block boundary. -/
  block : p.image ≠ [] → p.stop % blockBytes = 0
  next_le : p.image ≠ [] → j.next ≤ p.stop
  bound : p.image ≠ [] → p.stop ≤ j.next + reserve room largest
  none : p.image = [] → j.written = j.next
  entries : p.entries = p.image.filterMap Stored.index
  positions : ∀ es ps, (some es, some ps) ∈ captured.zip p.positions →
    ∀ pe ∈ ps.zip es, ⟨pe.1, j.generation, .blocks pe.2⟩ ∈ p.image
  fenced : ∀ s ∈ p.image, ∀ e, s.item = .blocks e → ¬ e.epoch < j.fences e.vm

/-! ## The disk -/

/-- Where a record lies on the disk, on a ring of length `n`. -/
def Stored.place (n : Nat) (s : Stored) : Nat := ringOffset + s.position % n

/-- The record an answer names. -/
def Answer.record (generation : UInt64) (a : Answer) : Stored :=
  ⟨a.position, generation, .blocks a.entry⟩

/-- A record begins at `t`, between the records of `l` from `a` to `b`, and what is owed lies from
there on. -/
def Cut (generation : UInt64) (l : List Stored) (a t b : Nat) (owed : List Answer) : Prop :=
  ∃ l₁ l₂, l = l₁ ++ l₂ ∧ Tiles Stored.position Stored.stop l₁ a t ∧
    Tiles Stored.position Stored.stop l₂ t b ∧ ∀ x ∈ owed, x.record generation ∈ l₂

/-- `s` is the header of the same journal that comes after `h`. -/
structure Slot.Follows (h s : Slot) : Prop where
  counter : s.counter = h.counter + 1
  identity : s.identity = h.identity
  generation : s.generation = h.generation
  ringStart : s.ringStart = h.ringStart
  ringLength : s.ringLength = h.ringLength

/-- What a disk holds once it has a durable header: `h`, in slot `c`. From its tail the records of
`l` lie on the ring up to `b`, durable, and every answered entry that no trim has covered is among
them. Whatever is unsynced lies outside them: in the other slot, or on the ring between `b` and the
durable tail a turn later. -/
structure Anchored (sum : Checksum) (d : Disk) (slots : List (Fin 2 × Slot)) (images : List Stored)
    (owed : List Answer) (h : Slot) (c : Fin 2) (l : List Stored) (b : Nat) : Prop where
  start : h.ringStart = ringOffset
  length : RingLength h.ringLength
  header : d.Stable (slotOffset c) (slotImage sum h)
  fits : ∀ i s, (i, s) ∈ slots → s.Fits
  headerFits : h.Fits
  /-- No slot written where `h` is has a later counter. -/
  current : ∀ s, (c, s) ∈ slots → s.counter ≤ h.counter
  /-- A slot written into the other is older than `h`, or comes right after it and keeps what is
  owed. -/
  other : ∀ s, (1 - c, s) ∈ slots → s.counter < h.counter ∨
    (h.Follows s ∧ Cut h.generation l h.tail s.tail b owed)
  ring : OnRing h.ringLength h.generation l h.tail b
  begins : CanBegin h.ringLength b
  records : ∀ s ∈ l, d.Stable (s.place h.ringLength) (s.bytes sum)
  turn : b ≤ h.tail + h.ringLength
  bound : b < 2 ^ 64
  images : ∀ s ∈ images, s.generation = h.generation ∧ s.OnRing h.ringLength ∧
    s.stop ≤ h.tail + h.ringLength ∧ s.stop < 2 ^ 64
  pending : ∀ w ∈ d.pending, w.1 < ringOffset ∨
    ∃ q, b ≤ q ∧ q < h.tail + h.ringLength ∧ w.1 = ringOffset + q % h.ringLength
  owed : ∀ x ∈ owed, x.record h.generation ∈ l

/-- The journal's copy of the header is the durable one. -/
structure Journal.Holds (j : Journal) (h : Slot) (c : Fin 2) : Prop where
  header : j.header = h
  current : j.current = c
  generation : j.generation = h.generation
  ringStart : j.ringStart = h.ringStart
  ringLength : j.ringLength = h.ringLength

/-! ## The process -/

/-- The index entry of an answered entry that is live. -/
def Answer.index (a : Answer) : Indexed :=
  ⟨a.position, a.entry.size, a.entry.vm, a.entry.epoch, false⟩

/-- An index entry as it was indexed. -/
def Indexed.undead (e : Indexed) : Indexed := { e with dead := false }

/-- The index from the tail on is that of the ring's records from there on, up to entries a trim
found dead. -/
structure Journal.Indexes (j : Journal) (l : List Stored) (a b : Nat) (owed : List Answer) : Prop where
  written : j.written = b
  tail : ∃ l₁ l₂, l = l₁ ++ l₂ ∧ Tiles Stored.position Stored.stop l₁ a j.tail ∧
    Tiles Stored.position Stored.stop l₂ j.tail b ∧
    j.live.map Indexed.undead = l₂.filterMap Stored.index
  owed : ∀ x ∈ owed, x.index ∈ j.live

/-- A batch that has its positions, between `b` and the next position. -/
structure Journal.Batched (j : Journal) (images : List Stored) (b : Batch) (p : Placement) : Prop where
  start : p.start = j.written
  ring : p.image ≠ [] → OnRing j.ringLength j.generation p.image j.written p.stop
  stop : p.image ≠ [] → p.stop = j.next
  block : p.image ≠ [] → p.stop % blockBytes = 0
  none : p.image = [] → j.written = j.next
  bound : p.image ≠ [] → p.stop < 2 ^ 64
  entries : p.entries = p.image.filterMap Stored.index
  answers : ∀ x ∈ answers b p, x.record j.generation ∈ p.image
  placed : ∀ s ∈ p.image, s ∈ images

/-- What holds where the writer is. -/
def WriterInv (sum : Checksum) (d : Disk) (slots : List (Fin 2 × Slot)) (images : List Stored)
    (j : Journal) : Writer → Prop
  | .idle => True
  | .stopped => True
  | .header s stage _ => (j.other, s) ∈ slots ∧
      (stage = .sync → d.read (slotOffset j.other) slotLength = slotImage sum s) ∧
      j.header.Follows s ∧ s.tail ≤ j.tail
  | .capturing batch =>
      (batch = [] ∧ j.written < j.next) ∨
        j.next + reserve (batchRoom batch) (batchLargest batch) ≤ j.header.tail + j.ringLength
  | .writing b p => j.Batched images b p
  | .syncing b p => j.Batched images b p ∧
      ∀ s ∈ p.image, d.read (s.place j.ringLength) s.size = s.bytes sum
  | .completing b p ok => j.Batched images b p ∧
      (ok → (p.image = [] ∨ d.pending = []) ∧
        ∀ s ∈ p.image, d.Stable (s.place j.ringLength) (s.bytes sum))

/-- What holds of the process over a disk whose durable header is `h`, in slot `c`. -/
def ProcInv (sum : Checksum) (w : World) (h : Slot) (c : Fin 2) (l : List Stored) (b : Nat) : Prop :=
  match w.proc with
  | .closed => True
  | .opening j stage => j.Holds h c ∧ (j.other, j.leaseSlot) ∈ w.slots ∧
      (stage = .sync → w.disk.read (slotOffset j.other) slotLength = slotImage sum j.leaseSlot)
  | .readingBack j => j.Holds h c ∧ w.disk.pending = []
  | .running j wr => j.Holds h c ∧ j.Indexes l h.tail b w.owed ∧ j.Spaced ∧
      j.next ≤ h.tail + h.ringLength ∧ WriterInv sum w.disk w.slots w.images j wr

/-- The first slot of a journal, as `Open` writes it on a disk it formats. -/
structure Slot.First (s : Slot) : Prop where
  fits : s.Fits
  counter : s.counter = 1
  start : s.ringStart = ringOffset
  length : RingLength s.ringLength
  tail : s.tail = s.ringLength

/-- A disk with no durable header yet: all that was ever written is the first slot of a journal. -/
structure Fresh (sum : Checksum) (w : World) : Prop where
  images : w.images = []
  owed : w.owed = []
  slots : ∀ i s, (i, s) ∈ w.slots → i = 0 ∧ s.First
  pending : ∀ x ∈ w.disk.pending, x.1 < ringOffset
  proc : w.proc = .closed ∨ ∃ j stage, w.proc = .opening j stage ∧
    j.Holds j.header 1 ∧ (0, j.leaseSlot) ∈ w.slots ∧
    (stage = .sync → w.disk.read (slotOffset 0) slotLength = slotImage sum j.leaseSlot)

/-- The invariant of a run in which every `Open` finds a durable header. -/
def Inv (sum : Checksum) (w : World) : Prop :=
  Fresh sum w ∨ ∃ h c l b, Anchored sum w.disk w.slots w.images w.owed h c l b ∧
    ProcInv sum w h c l b

end Sproutfs.JournalDisk
