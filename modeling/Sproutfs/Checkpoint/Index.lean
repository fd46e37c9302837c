import Sproutfs.Control.Record

/-!
# The root of a checkpoint

What the root of a checkpoint's index holds (`checkpoint/index.go`, `checkpoint/geometry.go`). A map is
the list of its entries, in ascending order of their keys where a publication built it and in the order
listed where a root was decoded; it is looked up by key either way. Strings are their bytes.
-/

namespace Sproutfs.Checkpoint

open ByteCodec

/-- The characters of a string, none where it is not UTF-8. -/
def text (b : Bytes) : Option (List Char) := (ByteArray.utf8Decode? ⟨b.toArray⟩).map (·.toList)

def validUTF8 (b : Bytes) : Bool := (text b).isSome

def validID (b : Bytes) : Bool := (text b).any Control.validID

/-- A checkpoint of a VM. -/
structure Ref where
  vm : Bytes
  sequence : Nat
  deriving DecidableEq, Repr

abbrev Ref.Valid (r : Ref) : Prop := validID r.vm = true ∧ r.sequence ≠ 0

/-- One encoded member of a part, and the checkpoint it was first published under. No length is no
member. -/
structure Location where
  ref : Ref
  origin : Ref
  part : Nat
  offset : Nat
  length : Nat
  deriving DecidableEq, Repr

def Location.zero : Location := ⟨⟨[], 0⟩, ⟨[], 0⟩, 0, 0, 0⟩

def Location.isZero (l : Location) : Bool := l.length = 0

def headerSize : Nat := 32
def partTargetBytes : Nat := 64 * 2 ^ 20
def maximumTableSize : Nat := 2 ^ 20
def trailerSize : Nat := 32
def pageSize4KiB : Nat := 4 * 2 ^ 10
def pageSize2MiB : Nat := 2 * 2 ^ 20
def maximumPartSize : Nat := partTargetBytes + pageSize2MiB + headerSize + maximumTableSize + trailerSize
def maximumSegmentExtent : Nat := 2 ^ 20 + headerSize
def maximumIndexSize : Nat := 2 ^ 30
def indexRecordSize : Nat := 32
def sectorSize : Nat := 4096
def maximumVCPUs : Nat := 32
def maximumName : Nat := 255

/-- The page sizes a volume may have, with the pages a segment of its table covers. -/
def geometries : List (Nat × Nat) := [(pageSize4KiB, 16 * 2 ^ 10), (pageSize2MiB, 256)]

structure Geometry where
  pageSize : Nat
  segmentPages : Nat
  supported : (pageSize, segmentPages) ∈ geometries
  deriving DecidableEq, Repr

namespace Geometry

variable (g : Geometry)

def pageOf (offset : Nat) : Nat := offset / g.pageSize
def pageCount (size : Nat) : Nat := (size + g.pageSize - 1) / g.pageSize
def segmentOf (page : Nat) : Nat := page / g.segmentPages
def segmentBase (number : Nat) : Nat := number * g.segmentPages
def segmentCount (size : Nat) : Nat := (g.pageCount size + g.segmentPages - 1) / g.segmentPages

end Geometry

/-- How many parts a checkpoint has, how many bytes they hold, and the checkpoint that emptied it. -/
structure Cost where
  parts : Nat
  bytes : Nat
  emptied : Nat
  fits : parts < 2 ^ 32
  deriving DecidableEq, Repr

/-- Where a segment lies: inside the index object of the checkpoint that wrote it. -/
structure SegmentAddress where
  ref : Ref
  offset : Nat
  length : Nat
  deriving DecidableEq, Repr

/-- What a segment's pages read from one checkpoint. -/
structure Use where
  ref : Ref
  bytes : Nat
  deriving DecidableEq, Repr

structure SegmentEntry where
  address : SegmentAddress
  reads : List Use
  deriving DecidableEq, Repr

structure VolumeTable where
  size : Nat
  geometry : Geometry
  ephemeral : Bool
  segments : List (Nat × SegmentEntry)
  deriving DecidableEq, Repr

structure Index where
  names : List Bytes
  volumes : List (Bytes × VolumeTable)
  checkpoints : List (Ref × Cost)
  state : Location
  vcpus : Nat
  nested : Bool
  deriving DecidableEq, Repr

namespace Index

variable (i : Index)

def checkLocation (l : Location) : Bool := match i.checkpoints.lookup l.ref with
  | none => false
  | some entry => l.length ≠ 0 && l.part < entry.parts && l.offset ≤ maximumPartSize &&
      l.length ≤ maximumPartSize - l.offset && decide l.origin.Valid

def checkSegmentAddress (a : SegmentAddress) : Bool :=
  (i.checkpoints.lookup a.ref).isSome && a.length ≠ 0 && a.length ≤ maximumSegmentExtent &&
    indexRecordSize ≤ a.offset && a.offset ≤ maximumIndexSize && a.length ≤ maximumIndexSize - a.offset

end Index

end Sproutfs.Checkpoint
