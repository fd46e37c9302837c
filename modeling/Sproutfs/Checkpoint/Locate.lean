import Sproutfs.Checkpoint.PageTable
import Sproutfs.Lib.Walk

/-!
# Where the bytes of a checkpoint's volume live

Locating a range of a published volume (`Locate` of `checkpoint/index.go`, `locate` of
`checkpoint/pagetable.go`): one extent for each page a table locates, clipped to the range, and one for
each run of pages that read as zeroes.
-/

namespace Sproutfs.Checkpoint

open ByteCodec Walk

/-- The object a page's bytes live in. A hole has none. -/
inductive Identity where
  | zero
  | page (ref : Ref) (volume : Bytes) (page : Nat)
  deriving DecidableEq, Repr

/-- A run of the volume's bytes with one identity. -/
abbrev Located := Walk.Run Identity

/-- The bytes of a volume a lookup clips its first and last page to. -/
structure ByteSpan where
  lo : Nat
  hi : Nat
  pageSize : Nat

namespace ByteSpan

variable (s : ByteSpan)

def start (page : Nat) : Nat := max s.lo (page * s.pageSize)
def stop (page : Nat) : Nat := min s.hi ((page + 1) * s.pageSize)

/-- The part of one page the span covers. -/
def of (page : Nat) : Nat × Nat := (s.start page, s.stop page - s.start page)

end ByteSpan

namespace PageTable

variable (t : PageTable)

/-- The identity of an entry's page: the checkpoint it was first published under. The lists hold what an
entry of a parsed table names. -/
def identityOf (volume : Bytes) (page : Nat) (e : TableEntry) : Identity :=
  let none := (⟨[], 0⟩ : Ref)
  if e.ref = 0 then .zero
  else .page ((originOf t.origins (t.refs.getD (e.ref - 1) none) e.origin).getD none) volume page

/-- Append the zeroes of the pages from `first` to `stop`, merging them with those the extents end with. -/
def hole (span : ByteSpan) (extents : List Located) (first stop : Nat) : List Located :=
  let offset := (span.of first).1
  let last := span.of (stop - 1)
  push extents ⟨offset, last.2 + (last.1 - offset), .zero⟩

/-- The end of the run of pages that are not located, from one of them on. -/
def holeRun (located : List TableEntry) (at_ : Nat) : Nat :=
  stretch (fun run => decide ((located.getD run ({} : TableEntry)).ref = 0)) (· + 1) located.length (at_ + 1)

/-- One round over the entries: a run of pages the table does not locate, or one page. -/
def entryRound (volume : Bytes) (span : ByteSpan) (first : Nat) (located : List TableEntry) (at_ : Nat)
    (extents : List Located) : Option (Nat × List Located) :=
  located[at_]?.map fun entry =>
    if entry.ref = 0 then
      (holeRun located at_, hole span extents (first + at_) (first + holeRun located at_))
    else
      let (offset, length) := span.of (first + at_)
      (at_ + 1, extents ++ [⟨offset, length, t.identityOf volume (first + at_) entry⟩])

/-- Append where the pages from `first` to `stop` live, of the segment that begins at page `base`. -/
def locate (extents : List Located) (volume : Bytes) (base first stop : Nat) (span : ByteSpan) :
    Option (List Located) :=
  let located := (t.entries.take (stop - base)).drop (first - base)
  (walk (t.entryRound volume span first located) located.length 0 extents).map fun extents =>
    -- The table locates no page past its last entry.
    if first + located.length < stop then hole span extents (first + located.length) stop else extents

/-- An entry begins an extent: it locates its page, or is the first of a run that does not. -/
def begins (entries : List TableEntry) (k : Nat) : Bool :=
  (entries.getD k ({} : TableEntry)).ref ≠ 0 || k = 0 || (entries.getD (k - 1) ({} : TableEntry)).ref ≠ 0

/-- How many extents at most some entries and the pages after them locate to, `pages` in all. -/
def extentsIn (entries : List TableEntry) (pages : Nat) : Nat :=
  (List.range entries.length).countP (begins entries) + if entries.length < pages then 1 else 0

end PageTable

namespace Index

variable (i : Index)

/-- The table of a segment: nothing is located in one the root does not address, and any other is fetched
and checked. -/
def table (fetch : SegmentAddress → Option PageTable) (volume : Bytes) (number : Nat) : Option PageTable :=
  (i.volumes.lookup volume).bind fun table => match table.segments.lookup number with
    | none => some {}
    | some entry => (fetch entry.address).filter (i.checkTable volume)

/-- Where one page lives: `tableCursor.at`. -/
def pageAt (fetch : SegmentAddress → Option PageTable) (volume : Bytes) (g : Geometry) (page : Nat) :
    Option (Option Location) :=
  (i.table fetch volume (g.segmentOf page)).map (·.locationAt (page % g.segmentPages))

/-- One segment of the range. -/
def segmentRound (fetch : SegmentAddress → Option PageTable) (volume : Bytes) (g : Geometry) (span : ByteSpan)
    (last page : Nat) (extents : List Located) : Option (Nat × List Located) :=
  let base := g.segmentBase (g.segmentOf page)
  let stop := min (last + 1) (base + g.segmentPages)
  (i.table fetch volume (g.segmentOf page)).bind fun held =>
    (held.locate extents volume base page stop span).map (stop, ·)

/-- Where the bytes of a range live: `Locate`. -/
def locateRange (fetch : SegmentAddress → Option PageTable) (volume : Bytes) (offset length : Nat) :
    Option (List Located) :=
  (i.volumes.lookup volume).bind fun table =>
    if table.size < offset ∨ table.size - offset < length then none
    else if length = 0 then some []
    else
      let g := table.geometry
      let span : ByteSpan := { lo := offset, hi := offset + length, pageSize := g.pageSize }
      let last := g.pageOf (span.hi - 1)
      walk (i.segmentRound fetch volume g span last) (last + 1) (g.pageOf offset) []

end Index

end Sproutfs.Checkpoint
