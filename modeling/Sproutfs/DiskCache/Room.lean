import Mathlib.Data.List.Sort
import Sproutfs.DiskCache.Format

/-!
# Making room on a cache disk

The log of regions of the page cache's disk (`checkpoint/disk.go`): one region is open and takes items at
its end; a full one is closed; where the share of the disk has no room for another, the oldest closed
region is evicted, after its items read at least the threshold were written again into the open region, up
to half a region.

A region holds its items' lengths and read counts, not their bytes. What the world answers (the share, the
write budget, whether a write, a read back or an opening succeeds) is asked of a `World` by the time it is
asked at; readers work meanwhile, and may forget items and end reads, but count none here. `room` calls
`evict`, which calls `append`, which calls `room`: its first argument is how deep the calls may go and its
second how many rounds each loop may take, and none is a call that ran out of either.
-/

namespace Sproutfs.DiskCache

/-- What a write to the disk is for. -/
inductive WriteKind where
  | repair
  | secondChance
  | fillRead
  | fillPublication
  deriving DecidableEq, Repr

/-- How a disk is laid out, as its configuration is checked. -/
structure Settings where
  regionBytes : Nat
  /-- The reads since it was written that give an item a second chance. -/
  threshold : Nat
  regionBytes_le : 2 ^ 16 ≤ regionBytes ∧ regionBytes ≤ 2 ^ 30
  threshold_le : 1 ≤ threshold ∧ threshold ≤ 127

variable {c : Settings}

/-- An item of a region that the index names: its bytes, its table entry's and its reads. It was written
where it fits a region. -/
structure LogItem (c : Settings) where
  size : Nat
  table : Nat
  reads : Nat := 0
  fits : size + table + diskTrailerSize ≤ c.regionBytes

structure Region (c : Settings) where
  slot : Nat
  sequence : Nat
  written : Nat := 0
  tableBytes : Nat := 0
  items : List (LogItem c) := []
  readers : Nat := 0

/-- An item of `size` bytes and its table entry fit in the rest of the region. -/
def Region.fits (r : Region c) (size table : Nat) : Prop :=
  r.written + size + r.tableBytes + table + diskTrailerSize ≤ c.regionBytes

instance (r : Region c) (size table : Nat) : Decidable (r.fits size table) :=
  inferInstanceAs (Decidable (_ ≤ _))

/-- The items a second chance writes again, in the order they lie. -/
def Region.hot (r : Region c) : List (LogItem c) := r.items.filter fun item => c.threshold ≤ item.reads

structure CacheDisk (c : Settings) where
  open_ : Option (Region c) := none
  /-- The closed regions the index still names, oldest first. -/
  closed : List (Region c) := []
  /-- The regions evicted that a reader still holds. -/
  evicted : List (Region c) := []
  /-- The regions on the disk: open, closed, and evicted but not yet given back. -/
  held : Int := 0
  free : List Nat := []
  next : Nat := 0
  sequence : Nat := 0
  refused : Nat := 0
  rewritten : Nat := 0
  clock : Nat := 0

def CacheDisk.regions (d : CacheDisk c) : List (Region c) := d.open_.toList ++ d.closed

/-- A region as readers that count no read may leave it: some of its items are forgotten. -/
def Region.Quiet (r r' : Region c) : Prop :=
  r'.slot = r.slot ∧ r'.written = r.written ∧ r'.tableBytes = r.tableBytes ∧ r'.items.Sublist r.items

/-- The disk as readers that count no read may leave it, whatever regions they hold or give back. -/
def CacheDisk.Quiet (d d' : CacheDisk c) : Prop :=
  List.Forall₂ Region.Quiet d.open_.toList d'.open_.toList ∧ List.Forall₂ Region.Quiet d.closed d'.closed

/-- What the world answers, by the time it is asked. -/
structure World (c : Settings) where
  share : Nat → Int
  /-- The write budget takes a second chance of this many bytes. -/
  admits : Nat → Nat → Bool
  /-- The item is read back as it was written. -/
  reread : Nat → LogItem c → Bool
  writes : Nat → Bool
  /-- A region opens: the lease holds, the space is allocated and a used slot's trailer is cleared. -/
  opens : Nat → Bool
  others : Nat → CacheDisk c → CacheDisk c
  quiet : ∀ t (d : CacheDisk c), d.Quiet (others t d)

inductive Answer where
  | ready
  | refused
  | noRoom
  deriving DecidableEq, Repr

/-- Adds a slot to an ascending list of free slots. -/
def insertSlot (free : List Nat) (slot : Nat) : List Nat := free.orderedInsert (· ≤ ·) slot

namespace CacheDisk

variable (w : World c) (d : CacheDisk c)

def tick : CacheDisk c := { d with clock := d.clock + 1 }

/-- The readers' work up to now. -/
def meanwhile : CacheDisk c := (w.others d.clock d).tick

/-- The bytes the disk may hold now. -/
def share : Int := max (w.share d.clock) 0

def mapOpen (f : Region c → Region c) : CacheDisk c := { d with open_ := d.open_.map f }

/-- Ends the open region's appends. -/
def closeOpen : CacheDisk c :=
  match d.open_ with
  | none => d
  | some region => { d with open_ := none, closed := d.closed ++ [region] }

/-- The share has room for one more region of a kind. Every region but one may be filled; the last is
the second chance's. -/
def mayOpen (kind : WriteKind) : Bool :=
  d.held < d.share w / c.regionBytes - if kind = .secondChance then 0 else 1

/-- Opens a region in the lowest slot free, and says whether it did. -/
def openRegion : Bool × CacheDisk c :=
  let slot := d.free.head?.getD d.next
  let next := if d.free = [] then d.next + 1 else d.next
  if w.opens d.clock then
    (true, { d.tick with
      open_ := some { slot := slot, sequence := d.sequence + 1 }
      held := d.held + 1
      free := d.free.tail
      next := next
      sequence := d.sequence + 1 })
  else
    (false, { d.tick with
      free := insertSlot d.free.tail slot
      next := next
      sequence := d.sequence + 1
      refused := d.refused + 1 })

end CacheDisk

open CacheDisk

/-- The rounds of `room`: they return the open region with room for an item of `size` bytes and a table
entry of `table`, closing a full one, opening one, and evicting to make room. A second chance never
evicts. -/
def roomRounds (w : World c) (evict : Region c → Bool → CacheDisk c → Option (Nat × CacheDisk c))
    (kind : WriteKind) (size table : Nat) : Nat → CacheDisk c → Option (Answer × CacheDisk c)
  | 0, _ => none
  | rounds + 1, d₀ =>
    let d := d₀.meanwhile w
    if d.open_.any fun region => region.fits size table then some (.ready, d)
    else
      let d := d.closeOpen
      if d.mayOpen w kind then
        match d.openRegion w with
        | (true, d) => roomRounds w evict kind size table rounds d
        | (false, d) => some (.refused, d)
      else if kind = .secondChance then some (.noRoom, d)
      else
        match d.closed with
        | [] => some (.refused, { d with refused := d.refused + 1 })
        | victim :: _ =>
          -- over its share, the disk gives back with no second chance
          (evict victim (d.held * c.regionBytes ≤ d.tick.share w) d.tick.tick).bind fun p =>
            roomRounds w evict kind size table rounds p.2

/-- Lays items next to each other at the end of the open region, in one write, and names them in the
index. It says whether there was room and, if so, whether the items are on the disk. -/
def append (w : World c) (room : Nat → Nat → CacheDisk c → Option (Answer × CacheDisk c))
    (items : List (LogItem c)) (d : CacheDisk c) : Option (Option Bool × CacheDisk c) :=
  match room (items.map LogItem.size).sum (items.map LogItem.table).sum d with
  | none => none
  | some (.ready, d) =>
    let d := d.mapOpen fun r => { r with written := r.written + (items.map LogItem.size).sum }
    -- a write that fails leaves its space in the region unused, and no table names it
    if w.writes d.clock then
      some (some true, (d.meanwhile w).mapOpen fun r => { r with
        tableBytes := r.tableBytes + (items.map LogItem.table).sum
        items := r.items ++ items.map fun item => { item with reads := 0 } })
    else some (some false, d.tick)
  | some (_, d) => some (none, d)

/-- Writes items of a victim again into the open region, and returns the bytes it wrote: it stops at
half a region, at the first refusal of the write budget, or where the free region is not enough. -/
def secondChance (w : World c) (append : List (LogItem c) → CacheDisk c → Option (Option Bool × CacheDisk c)) :
    List (LogItem c) → Nat → CacheDisk c → Option (Nat × CacheDisk c)
  | [], written, d => some (written, d)
  | item :: rescues, written, d =>
    if c.regionBytes / 2 < written + item.size ∨ ¬ w.admits d.clock item.size then some (written, d)
    else if ¬ w.reread d.clock item then secondChance w append rescues written d.tick
    else
      match append [item] d.tick with
      | none => none
      | some (none, d) => some (written, d)
      | some (some stored, d) =>
        secondChance w append rescues (written + item.size)
          { d with rewritten := d.rewritten + if stored then 1 else 0 }

/-- Gives the victim back, once no reader holds it. -/
def CacheDisk.giveUp (d : CacheDisk c) (victim : Region c) : CacheDisk c :=
  let d' := { d with closed := d.closed.filter (·.slot ≠ victim.slot) }
  match d.closed.find? (·.slot = victim.slot) with
  | none => d'
  | some region =>
    if region.readers = 0 then
      { d' with held := d.held - 1, free := insertSlot d.free region.slot }
    else { d' with evicted := d.evicted ++ [region] }

/-- Evicts a closed region, and returns the bytes written again: with a second chance, those of its
items read at least the threshold since they were written, up to half a region. -/
def evict (w : World c) (append : List (LogItem c) → CacheDisk c → Option (Option Bool × CacheDisk c))
    (victim : Region c) (chance : Bool) (d : CacheDisk c) : Option (Nat × CacheDisk c) :=
  (secondChance w append (if chance then victim.hot else []) 0 d).map fun p =>
    (p.1, (p.2.meanwhile w).giveUp victim)

/-- Makes room for an item of `size` bytes and a table entry of `table`, with calls at most `depth` deep
inside it. -/
def room (w : World c) (rounds : Nat) :
    (depth : Nat) → WriteKind → (size table : Nat) → CacheDisk c → Option (Answer × CacheDisk c)
  | 0, kind, size, table, d => roomRounds w (fun _ _ _ => none) kind size table rounds d
  | depth + 1, kind, size, table, d =>
    roomRounds w (evict w (append w (room w rounds depth .secondChance))) kind size table rounds d

end Sproutfs.DiskCache
