import Sproutfs.Checkpoint.PageTable

/-!
# The segment message

What a segment means as a protobuf message, apart from how the page table is parsed: the last value of a
scalar counts, a `uint32` is the low bits of its varint, a string must be UTF-8, and a field a page or a
reference does not have is skipped. `protobufSegment` is the decode of `checkpoint/pagetable_test.go`,
which the parser must agree with.
-/

namespace Sproutfs.Checkpoint

open ByteCodec Wire

/-- The values of a varint field, in order. -/
def varints (fs : List Field) (number : Nat) : List Nat := fs.filterMap fun f =>
  match f.value with
  | .varint n => if f.number = number then some n else none
  | _ => none

/-- The values of a bytes field, in order. -/
def byteStrings (fs : List Field) (number : Nat) : List Bytes := fs.filterMap fun f =>
  match f.value with
  | .bytes b => if f.number = number then some b else none
  | _ => none

/-- A scalar field: its last value, zero where it has none. -/
def scalar (fs : List Field) (number : Nat) : Nat := (varints fs number).getLast?.getD 0

def pageOf (fs : List Field) : ParsedPage where
  number := scalar fs 1 % 2 ^ 32
  checkpoint := scalar fs 2 % 2 ^ 32
  part := scalar fs 3 % 2 ^ 32
  offset := scalar fs 4
  length := scalar fs 5
  origin := scalar fs 6 % 2 ^ 32

def refOf (fs : List Field) : Ref where
  vm := (byteStrings fs 1).getLast?.getD []
  sequence := scalar fs 2

def unmarshalPage (data : Bytes) : Option ParsedPage := (fields data).map pageOf

def unmarshalRef (data : Bytes) : Option Ref :=
  (fields data).bind fun fs => if (byteStrings fs 1).all validUTF8 then some (refOf fs) else none

structure SegmentMessage where
  pages : List ParsedPage
  checkpoints : List Ref
  origins : List Ref
  /-- The message has a field that a segment has not. -/
  unknown : Bool

def known (f : Field) : Bool := match f.value with
  | .bytes _ => 1 ≤ f.number && f.number ≤ 3
  | _ => false

def unmarshalSegment (data : Bytes) : Option SegmentMessage := do
  let fs ← fields data
  let pages ← (byteStrings fs 1).mapM unmarshalPage
  let checkpoints ← (byteStrings fs 2).mapM unmarshalRef
  let origins ← (byteStrings fs 3).mapM unmarshalRef
  some { pages := pages, checkpoints := checkpoints, origins := origins, unknown := !fs.all known }

/-- Where a page message says its page lives, where the root allows it. -/
def Index.locate (i : Index) (refs origins : List Ref) (p : ParsedPage) : Option Location :=
  refs[p.checkpoint]?.bind fun ref => (PageTable.originOf origins ref p.origin).bind fun origin =>
    let l : Location := { ref := ref, origin := origin, part := p.part, offset := p.offset, length := p.length }
    if i.checkLocation l then some l else none

/-- Put one page into the segment: within the geometry, and once. -/
def Index.hold (i : Index) (segmentPages : Nat) (refs origins : List Ref) (held : List (Nat × Location))
    (p : ParsedPage) : Option (List (Nat × Location)) :=
  if segmentPages ≤ p.number ∨ (held.lookup p.number).isSome then none
  else (i.locate refs origins p).map fun l => held ++ [(p.number, l)]

def Index.protobufSegment (i : Index) (volume data : Bytes) : Option (List (Nat × Location)) := do
  let table ← i.volumes.lookup volume
  let m ← unmarshalSegment data
  if m.unknown ∨ ¬ (∀ r ∈ m.checkpoints ++ m.origins, r.Valid) then none
  else m.pages.foldlM (i.hold table.geometry.segmentPages m.checkpoints m.origins) []

end Sproutfs.Checkpoint
