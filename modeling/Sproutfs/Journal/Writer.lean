import Sproutfs.Journal.Ring

/-!
# The writer: batches laid out on the ring

`journal/writer.go`: which queued commits a batch takes, how their entries are laid out, what is
written, and what the batch's end does to the journal. A batch's image is kept record by record;
its bytes are the records' bytes one after another.
-/

namespace Sproutfs.JournalDisk

open ByteCodec TornDisk

/-- What lies on the ring: a pad, or an entry of blocks. -/
inductive Item where
  | pad (length : Nat)
  | blocks (e : Entry)
  deriving DecidableEq

structure Stored where
  position : Nat
  generation : UInt64
  item : Item
  deriving DecidableEq

def Item.size : Item → Nat
  | .pad n => n
  | .blocks e => e.size

namespace Stored

def size (s : Stored) : Nat := s.item.size

/-- Where the record after this one begins. -/
def stop (s : Stored) : Nat := s.position + s.size

/-- The bytes of a record, as `appendPad` and `appendEntry` append them. -/
def bytes (sum : Checksum) (s : Stored) : Bytes :=
  match s.item with
  | .pad n => encodePad sum n s.position s.generation
  | .blocks e => encodeEntry sum e s.position s.generation

/-- What the index holds of a record. -/
def index (s : Stored) : Option Indexed :=
  match s.item with
  | .pad _ => none
  | .blocks e => some ⟨s.position, e.size, e.vm, e.epoch, false⟩

end Stored

/-! ## Forming a batch -/

/-- The room a batch of commits needs on the ring: their room, a pad at the ring's end shorter than
the largest entry and a pad's head, and a pad to the next 4 KiB boundary. -/
def reserve (room largest : Nat) : Nat := room + largest + blockBytes + 2 * minEntryBytes

/-- The room of a batch's commits, and the largest of them. -/
def batchRoom (batch : List Commit) : Nat := (batch.map (·.room)).sum

def batchLargest (batch : List Commit) : Nat := (batch.map (·.room)).foldr max 0

/-- `CommitHooked` takes a commit of this room. -/
def Journal.admits (j : Journal) (room : Nat) : Bool :=
  reserve room room ≤ j.ringLength ∧ ¬ j.refuses

/-- How many of the queued commits the next batch takes, `n` being taken already with `room` bytes
in all and `largest` in one. -/
def Journal.fittingFrom (j : Journal) (room largest n : Nat) : List Commit → Nat
  | [] => n
  | c :: rest =>
    if n > 0 ∧ room + c.room > maxBatchBytes then n
    else if j.next + reserve (room + c.room) (max largest c.room) > j.header.tail + j.ringLength then n
    else fittingFrom j (room + c.room) (max largest c.room) (n + 1) rest

def Journal.fitting (j : Journal) : Nat := j.fittingFrom 0 0 0 j.queue

/-- Checks what a commit's capture made; `none` is a capture that failed. -/
def capture (c : Commit) (made : Option (List Entry)) : Option (List Entry) :=
  made.filter fun entries =>
    entries.all (·.check) && decide ((entries.map (·.size)).sum ≤ c.room)

/-! ## Laying a batch out -/

/-- A batch being laid out: the next position, the image so far, and the entries in it. -/
structure Layout where
  position : Nat
  image : List Stored := []
  entries : List Indexed := []

/-- A batch laid out on the ring: its image from `start` to `stop`, the entries it adds, and the
positions of each commit's entries, none for a commit that is refused. A batch that writes nothing
has no image. -/
structure Placement where
  start : Nat
  stop : Nat
  image : List Stored
  entries : List Indexed
  positions : List (Option (List Nat))

def Placement.bytes (sum : Checksum) (p : Placement) : Bytes := p.image.flatMap (·.bytes sum)

namespace Journal

def pad (j : Journal) (l : Layout) (length : Nat) : Layout :=
  { l with position := l.position + length
           image := l.image ++ [⟨l.position, j.generation, .pad length⟩] }

/-- The length of one pad over a failed range that ends at `next`. -/
def padLength (j : Journal) (position : Nat) : Nat :=
  let length := min (j.next - position) (j.room position)
  if length > maxEntryBytes then maxEntryBytes / 2 else length

/-- Pads over a failed batch. Every pad takes at least a byte, so as many rounds as the range has
bytes are enough. -/
def padOver (j : Journal) : Nat → Layout → Layout
  | 0, l => l
  | fuel + 1, l =>
    if l.position < j.next then padOver j fuel (j.pad l (j.padLength l.position)) else l

/-- Refuses entries of a VM a read fenced at a newer epoch. -/
def fenced (j : Journal) (entries : List Entry) : Bool :=
  entries.any fun e => e.epoch < j.fences e.vm

/-- A pad to the ring's end, where an entry of `size` would cross it or leave less than a pad
behind. -/
def padRingEnd (j : Journal) (l : Layout) (size : Nat) : Layout :=
  let room := j.room l.position
  if size ≠ room ∧ size + minEntryBytes > room then j.pad l room else l

def placeEntry (j : Journal) (l : Layout) (e : Entry) : Layout :=
  let l := j.padRingEnd l e.size
  { position := l.position + e.size
    image := l.image ++ [⟨l.position, j.generation, .blocks e⟩]
    entries := l.entries ++ [⟨l.position, e.size, e.vm, e.epoch, false⟩] }

/-- Lays out one commit's entries and returns their positions. -/
def placeEntries (j : Journal) : Layout → List Entry → Layout × List Nat
  | l, [] => (l, [])
  | l, e :: rest =>
    let r := placeEntries j (j.placeEntry l e) rest
    (r.1, (j.padRingEnd l e.size).position :: r.2)

/-- Lays out the commits of a batch, each captured or not, and returns the positions of each. -/
def placeCommits (j : Journal) : Layout → List (Option (List Entry)) →
    Layout × List (Option (List Nat))
  | l, [] => (l, [])
  | l, none :: rest =>
    let r := placeCommits j l rest
    (r.1, none :: r.2)
  | l, some entries :: rest =>
    if j.fenced entries then
      let r := placeCommits j l rest
      (r.1, none :: r.2)
    else
      let c := j.placeEntries l entries
      let r := placeCommits j c.1 rest
      (r.1, some c.2 :: r.2)

/-- A pad to the next 4 KiB boundary. -/
def padBlock (j : Journal) (l : Layout) : Layout :=
  let gap := (blockBytes - l.position % blockBytes) % blockBytes
  if gap > 0 then j.pad l (if gap < minEntryBytes then gap + blockBytes else gap) else l

/-- Lays a batch out from `written`: pads over a failed batch, then each commit's entries, and a pad
to the next 4 KiB boundary. -/
def place (j : Journal) (captured : List (Option (List Entry))) : Placement :=
  let padded := j.padOver (j.next - j.written) { position := j.written }
  let r := j.placeCommits padded captured
  if r.1.entries = [] ∧ ¬ j.written < j.next then
    ⟨j.written, 0, [], [], r.2⟩
  else
    let l := j.padBlock r.1
    ⟨j.written, l.position, l.image, l.entries, r.2⟩

/-- The journal once a batch has its positions. -/
def afterPlace (j : Journal) (p : Placement) : Journal :=
  { j with placed := j.placed + 1, next := if p.image = [] then j.next else p.stop }

/-! ## Writing it -/

/-- The writes of `image` from `position` on: one, or two where it crosses the ring's end. -/
def writes (j : Journal) : Nat → Nat → Bytes → List Write
  | 0, _, _ => []
  | fuel + 1, position, image =>
    match image with
    | [] => []
    | b :: bs =>
      let n := min (b :: bs).length (j.room position)
      writesAt (j.offset position) ((b :: bs).take n) ++
        writes j fuel (position + n) ((b :: bs).drop n)

def batchWrites (sum : Checksum) (j : Journal) (p : Placement) : List Write :=
  j.writes (p.bytes sum).length p.start (p.bytes sum)

/-- What a batch's end does to the journal. One that reached the disk moves `written` on and indexes
its entries; one that failed leaves its range between `written` and `next`. -/
def complete (j : Journal) (p : Placement) (ok : Bool) : Journal :=
  let j := { j with completed := j.completed + 1 }
  if ok then
    ({ j with written := if p.image = [] then j.written else p.stop
              live := j.live ++ p.entries }).withLiveTail
  else j

end Journal

/-- A commit answered with success holds this entry at this position. -/
structure Answer where
  commit : Nat
  position : Nat
  entry : Entry
  deriving DecidableEq

/-- A batch once its commits are captured. -/
abbrev Batch := List (Commit × Option (List Entry))

/-- The answers of one commit: its entries at the positions it was given. -/
def commitAnswers (c : Commit) (captured : Option (List Entry)) (positions : Option (List Nat)) :
    List Answer :=
  match captured, positions with
  | some es, some ps => (ps.zip es).map fun pe => ⟨c.id, pe.1, pe.2⟩
  | _, _ => []

/-- What a batch that reached the disk answers its commits with. -/
def answers (b : Batch) (p : Placement) : List Answer :=
  (b.zip p.positions).flatMap fun x => commitAnswers x.1.1 x.1.2 x.2

end Sproutfs.JournalDisk
