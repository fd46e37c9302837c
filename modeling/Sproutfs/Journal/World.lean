import Mathlib.Logic.Relation
import Sproutfs.Journal.Writer

/-!
# One journal disk and the process that holds it

The disk, the process that opens it, commits to it, trims and closes it, and every way either can
fail: a write that fails or tears, a sync that fails, a process that dies, and a loss of power.

`slots`, `images`, `answered` and `owed` are history: the header slots and the records the process
has ever set out to write, the entries it has answered a commit for, and those of them that no trim
has covered since. A disk whose bytes pass a checksum although nobody wrote them is left out
(`GenuineSlots`, `GenuineEntries`), and a run ends before a slot's counter or a position outgrows its
field of 64 bits.
-/

namespace Sproutfs.JournalDisk

open ByteCodec TornDisk

/-- How far the write of a header slot is. -/
inductive SlotStage where
  | write
  | sync
  deriving DecidableEq

inductive Writer where
  | idle
  /-- `writeHeader`: the slot it writes. `closing` is `Close`, after the writer stopped. -/
  | header (s : Slot) (stage : SlotStage) (closing : Bool)
  | capturing (batch : List Commit)
  | writing (b : Batch) (p : Placement)
  | syncing (b : Batch) (p : Placement)
  | completing (b : Batch) (p : Placement) (ok : Bool)
  | stopped

/-- The process: no journal open, `Open` taking the lease, `Open` reading back, or a journal open. -/
inductive Proc where
  | closed
  | opening (j : Journal) (stage : SlotStage)
  | readingBack (j : Journal)
  | running (j : Journal) (w : Writer)

structure World where
  disk : Disk
  proc : Proc
  slots : List (Fin 2 × Slot)
  images : List Stored
  answered : List Answer
  owed : List Answer

def World.blank (d : Nat → UInt8) : World := ⟨⟨d, []⟩, .closed, [], [], [], []⟩

/-- The bytes of a slot that are read back. -/
def slotImage (sum : Checksum) (s : Slot) : Bytes := (encodeSlot sum s).take slotLength

/-- A slot that decodes holds the bytes of a slot written there. -/
def GenuineSlots (sum : Checksum) (d : Disk) (slots : List (Fin 2 × Slot)) : Prop :=
  ∀ i s, slotAt sum d i = .ok s →
    ∃ t, (i, t) ∈ slots ∧ d.read (slotOffset i) slotLength = slotImage sum t

/-- An entry that reading back accepts is one that was placed. -/
def GenuineEntries (sum : Checksum) (d : Disk) (j : Journal) (images : List Stored) : Prop :=
  ∀ position h b, j.entryAt sum d position = some (h, b) → ∃ s ∈ images, b = s.bytes sum

/-- A trim of `vm` covers an answered entry. -/
def Answer.covered (vm : Bytes) (covered : UInt64 → Option Nat) (a : Answer) : Bool :=
  a.entry.vm = vm ∧ ∀ p ∈ covered a.entry.epoch, a.position ≤ p

/-- What callers do to an open journal besides trimming it. -/
inductive CallStep (j : Journal) : Journal → Prop where
  | commit (c : Commit) (h : j.admits c.room) : CallStep j { j with queue := j.queue ++ [c] }
  | cancel (c : Commit) : CallStep j { j with queue := j.queue.erase c }
  | fence (vm : Bytes) (reader : UInt64) (h : ¬ j.refuses) : CallStep j (j.fence vm reader)
  | leaseLost : CallStep j { j with failed := true }
  | close : CallStep j { j with closed := true }

/-- The write of slot `s` into slot `i`: bytes of it reach the disk in any order, or all of them. -/
inductive SlotStep (sum : Checksum) (i : Fin 2) (s : Slot) (d : Disk) :
    SlotStage → Disk → SlotStage → Prop where
  | tear (ws : List Write) (h : ws.Sublist (writesAt (slotOffset i) (encodeSlot sum s))) :
      SlotStep sum i s d .write (d.write ws) .write
  | written : SlotStep sum i s d .write
      (d.write (writesAt (slotOffset i) (encodeSlot sum s))) .sync

/-- One step of the writer as it forms a batch and writes it. -/
inductive BatchStep (sum : Checksum) (d : Disk) (j : Journal) :
    Writer → Disk → Journal → Writer → Prop where
  | take (hr : ¬ j.refuses) (hn : 0 < j.fitting) :
      BatchStep sum d j .idle d { j with queue := j.queue.drop j.fitting }
        (.capturing (j.queue.take j.fitting))
  /-- A failed range with no commit that fits: the next batch is its pad alone. -/
  | takePad (hr : ¬ j.refuses) (hq : j.queue ≠ []) (hn : j.fitting = 0) (hw : j.written < j.next) :
      BatchStep sum d j .idle d j (.capturing [])
  | tear (b : Batch) (p : Placement) (ws : List Write) (h : ws.Sublist (j.batchWrites sum p)) :
      BatchStep sum d j (.writing b p) (d.write ws) j (.writing b p)
  | written (b : Batch) (p : Placement) :
      BatchStep sum d j (.writing b p) (d.write (j.batchWrites sum p)) j (.syncing b p)
  | writeFails (b : Batch) (p : Placement) :
      BatchStep sum d j (.writing b p) d j (.completing b p false)
  | synced (b : Batch) (p : Placement) :
      BatchStep sum d j (.syncing b p) d.sync j (.completing b p true)
  | syncFails (b : Batch) (p : Placement) :
      BatchStep sum d j (.syncing b p) d j (.completing b p false)

/-- The writer once a batch has its positions: one that writes nothing is answered at once. -/
def placedWriter (b : Batch) (p : Placement) : Writer :=
  if p.image = [] then .completing b p true else .writing b p

/-- The writer's header write has ended. `Close` ends with it. -/
def afterHeader (j : Journal) (closing : Bool) : Proc :=
  if closing then .closed else .running j .idle

/-- One step of the world. An `Open` that is refused changes nothing and is no step. -/
inductive Step (sum : Checksum) (size : Nat) (w : World) : World → Prop where
  | openRead (config : Config) (generation : UInt64) (j : Journal) (hp : w.proc = .closed)
      (hg : GenuineSlots sum w.disk w.slots)
      (hj : openHeader sum config size generation w.disk = .ok j) (hf : j.leaseSlot.Fits) :
      Step sum size w { w with proc := .opening j .write
                               slots := w.slots ++ [(j.other, j.leaseSlot)] }
  | openSlot (j : Journal) (st st' : SlotStage) (d : Disk) (hp : w.proc = .opening j st)
      (h : SlotStep sum j.other j.leaseSlot w.disk st d st') :
      Step sum size w { w with disk := d, proc := .opening j st' }
  | openSynced (j : Journal) (hp : w.proc = .opening j .sync) :
      Step sum size w { w with disk := w.disk.sync
                               proc := .readingBack (j.tookSlot j.leaseSlot) }
  | openDone (j : Journal) (hp : w.proc = .readingBack j)
      (hg : GenuineEntries sum w.disk j w.images) :
      Step sum size w { w with proc := .running (j.readBack sum w.disk) .idle }
  | call (j j' : Journal) (wr : Writer) (hp : w.proc = .running j wr) (h : CallStep j j') :
      Step sum size w { w with proc := .running j' wr }
  | trim (j : Journal) (wr : Writer) (vm : Bytes) (covered : UInt64 → Option Nat)
      (hp : w.proc = .running j wr) :
      Step sum size w { w with proc := .running (j.trim vm covered) wr
                               owed := w.owed.filter fun a => !a.covered vm covered }
  | batch (j j' : Journal) (wr wr' : Writer) (d : Disk) (hp : w.proc = .running j wr)
      (h : BatchStep sum w.disk j wr d j' wr') :
      Step sum size w { w with disk := d, proc := .running j' wr' }
  | place (j : Journal) (batch : List Commit) (made : List (Option (List Entry))) (p : Placement)
      (hw : w.proc = .running j (.capturing batch)) (hlen : made.length = batch.length)
      (hp : p = j.place (batch.zipWith capture made)) (hfit : p.stop < 2 ^ 64) :
      Step sum size w { w with
        proc := .running (j.afterPlace p) (placedWriter (batch.zip (batch.zipWith capture made)) p)
        images := w.images ++ p.image }
  | complete (j : Journal) (b : Batch) (p : Placement) (ok : Bool)
      (hp : w.proc = .running j (.completing b p ok)) :
      Step sum size w { w with
        proc := .running (j.complete p ok) .idle
        answered := w.answered ++ if ok then answers b p else []
        owed := w.owed ++ if ok then answers b p else [] }
  | headerStart (j : Journal) (s : Slot) (i : Fin 2) (hp : w.proc = .running j .idle)
      (hr : ¬ j.refuses) (hmoved : j.tail ≠ j.header.tail)
      (hlease : readHeader sum w.disk = .ok (s, i)) (hs : s.lease = j.lease)
      (hf : (j.tailSlot false).Fits) :
      Step sum size w { w with proc := .running j (.header (j.tailSlot false) .write false)
                               slots := w.slots ++ [(j.other, j.tailSlot false)] }
  | headerSlot (j : Journal) (s : Slot) (st st' : SlotStage) (closing : Bool) (d : Disk)
      (hp : w.proc = .running j (.header s st closing))
      (h : SlotStep sum j.other s w.disk st d st') :
      Step sum size w { w with disk := d, proc := .running j (.header s st' closing) }
  | headerSynced (j : Journal) (s : Slot) (closing : Bool)
      (hp : w.proc = .running j (.header s .sync closing)) :
      Step sum size w { w with disk := w.disk.sync, proc := afterHeader (j.tookSlot s) closing }
  | headerFails (j : Journal) (s : Slot) (st : SlotStage) (closing : Bool)
      (hp : w.proc = .running j (.header s st closing)) :
      Step sum size w { w with proc := afterHeader j closing }
  | stop (j : Journal) (hp : w.proc = .running j .idle) (hr : j.refuses) :
      Step sum size w { w with proc := .running { j with queue := [] } .stopped }
  | closeStart (j : Journal) (s : Slot) (i : Fin 2) (hp : w.proc = .running j .stopped)
      (hclosed : j.closed) (hfailed : ¬ j.failed) (hlease : readHeader sum w.disk = .ok (s, i))
      (hs : s.lease = j.lease) (hf : (j.tailSlot j.live.isEmpty).Fits) :
      Step sum size w { w with
        proc := .running j (.header (j.tailSlot j.live.isEmpty) .write true)
        slots := w.slots ++ [(j.other, j.tailSlot j.live.isEmpty)] }
  /-- The process dies, `Open` fails, or a `Close` that writes no header returns. -/
  | ends : Step sum size w { w with proc := .closed }

/-- A step, or a loss of power. -/
inductive Event (sum : Checksum) (size : Nat) (w : World) : World → Prop where
  | step (w' : World) (h : Step sum size w w') : Event sum size w w'
  | powerLoss (d : Disk) (h : w.disk.Crash d) :
      Event sum size w { w with disk := d, proc := .closed }

/-- The header that wins is durable: nothing unsynced lies on its slot. -/
def DurableHeader (sum : Checksum) (d : Disk) : Prop :=
  ∀ s i, readHeader sum d = .ok (s, i) → d.Quiet (slotOffset i) slotLength

/-- An event in which an `Open` that finds a header finds a durable one. -/
def SteadyStep (sum : Checksum) (size : Nat) (w w' : World) : Prop :=
  Event sum size w w' ∧ ∀ j st, w.proc = .closed → w'.proc = .opening j st → DurableHeader sum w.disk

/-- The worlds a run from a blank disk reaches. -/
def Reaches (sum : Checksum) (size : Nat) (w : World) : Prop :=
  ∃ d, Relation.ReflTransGen (Event sum size) (.blank d) w

/-- The worlds a run from a blank disk reaches in which every `Open` finds a durable header. -/
def SteadyReaches (sum : Checksum) (size : Nat) (w : World) : Prop :=
  ∃ d, Relation.ReflTransGen (SteadyStep sum size) (.blank d) w

/-- The worlds a run from a blank disk reaches in which no power is lost. -/
def CalmReaches (sum : Checksum) (size : Nat) (w : World) : Prop :=
  ∃ d, Relation.ReflTransGen (Step sum size) (.blank d) w

end Sproutfs.JournalDisk
