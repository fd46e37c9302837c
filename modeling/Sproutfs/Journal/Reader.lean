import Sproutfs.Journal.World

/-!
# Reads of an open journal

`journal/read.go`: `Read` fences the VM, waits for the batches placed before, collects the VM's live
entries and reads them from the ring through a window. A session is one open journal with any number
of reads over it, and the commits its callers have been told of: `complete` settles a batch under the
journal's lock, and the callers are told after that, one by one.
-/

namespace Sproutfs.JournalDisk

open ByteCodec TornDisk

/-- How much the ring's reader reads at once. -/
def readAhead : Nat := 1048576

structure ReadRequest where
  vm : Bytes
  /-- The epoch whose entries are asked for. -/
  epoch : UInt64
  /-- The covered position: only entries after it are returned. -/
  after : Nat
  generation : UInt64
  /-- The reader's own epoch. The VM is fenced at it. -/
  reader : UInt64

/-- The window of `ringReader`: bytes of the disk from `start` on, as they were read once. -/
structure Window where
  start : Nat := 0
  bytes : Bytes := []

/-- `n` bytes at `offset`, from the window or else from the disk, and the window after that. The ring
ends at `stop`. -/
def Window.read (d : Disk) (stop : Nat) (r : Window) (offset n : Nat) : Bytes × Window :=
  if r.start ≤ offset ∧ offset + n ≤ r.start + r.bytes.length then
    (slice r.bytes (offset - r.start) n, r)
  else
    let buffer := d.read offset (min (max n readAhead) (stop - offset))
    (buffer.take n, ⟨offset, buffer⟩)

/-- The entries a read goes for, in position order. -/
def Journal.wanted (j : Journal) (q : ReadRequest) : List Indexed :=
  ((j.held q.vm q.epoch).filter fun e => q.after < e.position).mergeSort
    fun a b => a.position ≤ b.position

inductive ReadState where
  /-- The VM is fenced; it waits until as many batches are completed as were placed by then. -/
  | waiting (placed : Nat)
  | reading (wanted : List Indexed) (window : Window) (yielded : List Entry)
  | done (yielded : List Entry)
  | failed

/-- One step of a read. It fails where the disk does, where its caller gives up, and where an entry
is no longer what the index said. -/
inductive ReadStep (sum : Checksum) (d : Disk) (j : Journal) (q : ReadRequest) :
    ReadState → ReadState → Prop where
  | collect (placed : Nat) (h : placed ≤ j.completed) :
      ReadStep sum d j q (.waiting placed) (.reading (j.wanted q) {} [])
  | next (e : Indexed) (rest : List Indexed) (r : Window) (ys : List Entry) (h : Head) (y : Entry)
      (hd : decodeEntry sum
        (r.read d (j.ringStart + j.ringLength) (j.offset e.position) e.length).1 = .ok (h, y))
      (hk : h.kind = .blocks) (hp : h.position = e.position) (hg : h.generation = j.generation) :
      ReadStep sum d j q (.reading (e :: rest) r ys)
        (.reading rest (r.read d (j.ringStart + j.ringLength) (j.offset e.position) e.length).2
          (ys ++ [y]))
  | finish (r : Window) (ys : List Entry) : ReadStep sum d j q (.reading [] r ys) (.done ys)
  | fail (st : ReadState) (h : ∀ ys, st ≠ .done ys) : ReadStep sum d j q st .failed

/-- An open journal, the reads of it, and the answers its callers have been told. -/
structure Session where
  world : World
  reads : Nat → Option (ReadRequest × ReadState)
  told : List Answer

/-- One step of a session: of the world while the journal stays open, of a caller or of a read. -/
inductive SessionStep (sum : Checksum) (size : Nat) (s : Session) : Session → Prop where
  | world (w' : World) (j j' : Journal) (wr wr' : Writer) (hp : s.world.proc = .running j wr)
      (hp' : w'.proc = .running j' wr') (h : Step sum size s.world w') :
      SessionStep sum size s { s with world := w' }
  | tell (a : Answer) (h : a ∈ s.world.answered) :
      SessionStep sum size s { s with told := s.told ++ [a] }
  | readStart (id : Nat) (q : ReadRequest) (j : Journal) (wr : Writer)
      (hp : s.world.proc = .running j wr) (hfree : s.reads id = none)
      (hgen : q.generation = j.generation) (hreader : q.epoch < q.reader) (hr : ¬ j.refuses) :
      SessionStep sum size s { s with
        world := { s.world with proc := .running (j.fence q.vm q.reader) wr }
        reads := Function.update s.reads id (some (q, .waiting j.placed)) }
  | read (id : Nat) (q : ReadRequest) (st st' : ReadState) (j : Journal) (wr : Writer)
      (hp : s.world.proc = .running j wr) (hread : s.reads id = some (q, st))
      (h : ReadStep sum s.world.disk j q st st') :
      SessionStep sum size s { s with reads := Function.update s.reads id (some (q, st')) }

/-- A journal that is open, nobody reading it yet. -/
structure Session.Starts (sum : Checksum) (size : Nat) (s : Session) : Prop where
  reached : SteadyReaches sum size s.world ∨ CalmReaches sum size s.world
  running : ∃ j wr, s.world.proc = .running j wr
  reads : ∀ id, s.reads id = none
  told : s.told = []

abbrev SessionRun (sum : Checksum) (size : Nat) : Session → Session → Prop :=
  Relation.ReflTransGen (SessionStep sum size)

end Sproutfs.JournalDisk
