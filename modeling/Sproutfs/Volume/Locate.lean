import Sproutfs.Checkpoint.Locate
import Sproutfs.Volume.Volume

/-!
# Where the bytes of a volume live

Locating a range of a volume through everything its bytes come from (`Locate` of `volume/operations.go`,
`volume/source.go`, `volume/dirty.go`, `volume/checkpoint.go`): the overlay of the VM, the checkpoint a
fork inherits with its own overlay and the pages its pager sealed, and the index at the bottom. What is
kept for each volume is kept here for the one that is asked, by its name; all of it has one geometry.
-/

namespace Sproutfs.Volume

open ByteCodec Checkpoint Walk

/-- The checkpoint the bytes an overlay holds will be published under: the one a publication froze, for
the entries at or below its generation, and the next for the others. The empty reference is none. -/
structure Publisher where
  frozen : Nat := 0
  frozenRef : Ref := ⟨[], 0⟩
  next : Ref

def Publisher.ref (p : Publisher) (generation : Nat) : Ref :=
  if p.frozenRef ≠ ⟨[], 0⟩ ∧ generation ≤ p.frozen then p.frozenRef else p.next

/-- Note a page under the latest generation that wrote it. -/
def mark (generation : Nat) (written : List (Nat × Nat)) (page : Nat) : List (Nat × Nat) :=
  if (written.lookup page).all fun at_ => decide (at_ < generation) then (page, generation) :: written
  else written

/-- Note the pages an extent touches inside the range. -/
def markItem (g : Geometry) (offset stop : Nat) (written : List (Nat × Nat)) (item : Extent) : List (Nat × Nat) :=
  let first := g.pageOf (max item.start offset)
  let last := g.pageOf (min item.stop stop - 1)
  (List.range' first (last + 1 - first)).foldl (mark item.generation) written

/-- The last page of the run of pages the overlay did not touch, from one of them on. -/
def inheritedRun (written : List (Nat × Nat)) (last page : Nat) : Nat :=
  stretch (fun page => (written.lookup (page + 1)).isNone) (· + 1) last page

/-- One round over the pages of the range: a page the overlay touched, or a run of inherited pages, which
is located in one call. -/
def overlayRound (g : Geometry) (parent : Nat → Nat → Option (List Located)) (written : List (Nat × Nat))
    (owner : Publisher) (volume : Bytes) (offset stop last page : Nat) (result : List Located) :
    Option (Nat × List Located) :=
  let start := max offset (page * g.pageSize)
  match written.lookup page with
  | some at_ =>
    some (page + 1, push result ⟨start, min stop ((page + 1) * g.pageSize) - start, .page (owner.ref at_) volume page⟩)
  | none =>
    let page := inheritedRun written last page
    (parent start (min stop ((page + 1) * g.pageSize) - start)).map fun extents =>
      (page + 1, extents.foldl push result)

/-- The page identity of every byte of a range: of the overlay's pages, and of the parent's. -/
def locateOverlay (g : Geometry) (parent : Nat → Nat → Option (List Located)) (overlay : ExtentIndex)
    (owner : Publisher) (volume : Bytes) (offset length : Nat) : Option (List Located) :=
  let stop := offset + length
  if length = 0 then some []
  else
    let written := (overlay.between offset stop).foldl (markItem g offset stop) []
    if written.isEmpty then parent offset length
    else
      let last := g.pageOf (stop - 1)
      walk (overlayRound g parent written owner volume offset stop last) (last + 1) (g.pageOf offset) []

/-- The end of the run of pages the pager does not hold sealed, from the end of one of them on. -/
def inheritedStop (g : Geometry) (held : List Nat) (stop next : Nat) : Nat :=
  stretch (fun next => decide (g.pageOf next ∉ held)) (fun next => min stop (next + g.pageSize)) stop next

/-- One round over the bytes of the range: a page the pager holds sealed, or a run of inherited pages. The
code's loop over the pages up to `next` makes one turn, for `next` is in the cursor's page. -/
def sealedRound (g : Geometry) (parent : Nat → Nat → Option (List Located)) (held : List Nat) (ref : Ref)
    (volume : Bytes) (stop cursor : Nat) (result : List Located) : Option (Nat × List Located) :=
  let number := g.pageOf cursor
  let next := min stop ((number + 1) * g.pageSize)
  if number ∈ held then some (next, push result ⟨cursor, next - cursor, .page ref volume number⟩)
  else
    let next := inheritedStop g held stop next
    (parent cursor (next - cursor)).map fun extents => (next, extents.foldl push result)

/-- The immutable state an overlay sits on. -/
inductive Source where
  /-- A published checkpoint, with the segments the store answers with. -/
  | index (index : Index) (fetch : SegmentAddress → Option PageTable)
  /-- The pages a pager sealed for a checkpoint, where it sealed any of the volume. -/
  | sealed (parent : Source) (ref : Ref) (held : Option (List Nat))
  /-- The checkpoint a VM forked from, with its overlay, where it has the volume. -/
  | checkpoint (base : Source) (ref : Ref) (overlay : Option ExtentIndex)

def Source.locate (g : Geometry) (volume : Bytes) : Source → Nat → Nat → Option (List Located)
  | .index i fetch, offset, length => i.locateRange fetch volume offset length
  | .sealed parent _ none, offset, length => parent.locate g volume offset length
  | .sealed parent ref (some held), offset, length =>
    walk (sealedRound g (parent.locate g volume) held ref volume (offset + length)) (offset + length) offset []
  | .checkpoint _ _ none, _, _ => none
  | .checkpoint base ref (some overlay), offset, length =>
    locateOverlay g (base.locate g volume) overlay { next := ref } volume offset length

/-- A volume with its name and its geometry. -/
structure NamedVolume extends Volume where
  name : Bytes
  geometry : Geometry
  agrees : pageSize = geometry.pageSize

/-- The view of the VM a call is answered from. -/
structure View where
  base : Source
  overlay : ExtentIndex
  owner : Publisher
  /-- The handle was closed, handed off or fenced. -/
  terminal : Bool := false

/-- The page identity of every byte of a range. -/
def NamedVolume.locate (v : NamedVolume) (view : View) (cancelled : Bool) (offset length : Nat) :
    Option (List Located) :=
  if ¬ v.validRange offset length ∨ cancelled = true ∨ view.terminal = true then none
  else if v.isEphemeral then some [⟨offset, length, .zero⟩]
  else locateOverlay v.geometry (view.base.locate v.geometry v.name) view.overlay view.owner v.name offset length

end Sproutfs.Volume
