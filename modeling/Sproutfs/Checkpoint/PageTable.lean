import Sproutfs.Checkpoint.Index
import Sproutfs.Lib.Wire

/-!
# Page tables

One segment of a volume's page table, decoded straight off the wire (`checkpoint/pagetable.go`): one entry
for each page up to the last one the segment locates, with the checkpoints and origins its pages name by
their position. A page's checkpoint is stored as one more than its position, so an entry of zero locates
nothing. The slices' capacities are left out: only their contents are read.
-/

namespace Sproutfs.Checkpoint

open ByteCodec Wire

structure TableEntry where
  offset : Nat := 0
  length : Nat := 0
  part : Nat := 0
  ref : Nat := 0
  origin : Nat := 0
  deriving DecidableEq, Repr

structure PageTable where
  refs : List Ref := []
  origins : List Ref := []
  entries : List TableEntry := []
  /-- For each of the checkpoints, one more than the highest part a page names in it. -/
  parts : List Nat := []
  deriving DecidableEq, Repr

def maximumSegmentPages : Nat := 16 * 2 ^ 10

namespace PageTable

/-- The origin a slot names: none is the checkpoint itself. -/
def originOf (origins : List Ref) (ref : Ref) (slot : Nat) : Option Ref :=
  if slot = 0 then some ref else origins[slot - 1]?

def location (t : PageTable) (e : TableEntry) : Option Location :=
  if e.ref = 0 then none
  else t.refs[e.ref - 1]?.bind fun ref => (originOf t.origins ref e.origin).map fun origin =>
    { ref := ref, origin := origin, part := e.part, offset := e.offset, length := e.length }

/-- Where a page lives, by its number relative to the segment's first page. -/
def locationAt (t : PageTable) (relative : Nat) : Option Location := t.entries[relative]?.bind t.location

end PageTable

/-! ## Parsing -/

structure ParsedPage where
  number : Nat := 0
  checkpoint : Nat := 0
  part : Nat := 0
  offset : Nat := 0
  length : Nat := 0
  origin : Nat := 0
  deriving DecidableEq, Repr

/-- A field of a page message; a `uint32` takes the low bits of its varint. -/
def ParsedPage.set (p : ParsedPage) (number value : Nat) : ParsedPage := match number with
  | 1 => { p with number := value % 2 ^ 32 }
  | 2 => { p with checkpoint := value % 2 ^ 32 }
  | 3 => { p with part := value % 2 ^ 32 }
  | 4 => { p with offset := value }
  | 5 => { p with length := value }
  | 6 => { p with origin := value % 2 ^ 32 }
  | _ => p

/-- One round of the loop over a page's fields: a field a page does not have is skipped. -/
def pageRound (data : Bytes) (page : ParsedPage) : Option (ParsedPage × Bytes) :=
  (consumeTag data).bind fun (number, kind, rest) =>
    if maximumNumber < number then none
    else if kind ≠ varintType ∨ number < 1 ∨ 6 < number then
      (consumeFieldValue number kind rest).map (page, ·)
    else (consumeVarint rest).map fun (value, rest) => (page.set number value, rest)

def parsePage (data : Bytes) : Option ParsedPage :=
  (rounds pageRound data {}).bind fun page => if page.part = 2 ^ 32 - 1 then none else some page

/-- One round of the loop over a reference's fields. -/
def refRound (data : Bytes) (ref : Ref) : Option (Ref × Bytes) :=
  (consumeTag data).bind fun (number, kind, rest) =>
    if maximumNumber < number then none
    else if number = 1 ∧ kind = bytesType then
      (consumeBytes rest).bind fun (value, rest) =>
        if validUTF8 value then some ({ ref with vm := value }, rest) else none
    else if number = 2 ∧ kind = varintType then
      (consumeVarint rest).map fun (value, rest) => ({ ref with sequence := value }, rest)
    else (consumeFieldValue number kind rest).map (ref, ·)

def parseRef (data : Bytes) : Option Ref :=
  (rounds refRound data ⟨[], 0⟩).bind fun ref => if ref.Valid then some ref else none

/-- Put one page into the entries: once, within a segment of the largest geometry, with a member that fits
in a part. -/
def addEntry (entries : List TableEntry) (page : ParsedPage) : Option (List TableEntry) :=
  if maximumSegmentPages ≤ page.number ∨ page.checkpoint = 2 ^ 32 - 1 ∨ page.length = 0 ∨
      maximumPartSize < page.offset ∨ maximumPartSize - page.offset < page.length then none
  else
    let grown := entries ++ List.replicate (page.number + 1 - entries.length) ({} : TableEntry)
    if (grown.getD page.number ({} : TableEntry)).ref ≠ 0 then none
    else some (grown.set page.number { offset := page.offset, length := page.length, part := page.part,
                                       ref := page.checkpoint + 1, origin := page.origin })

def PageTable.add (t : PageTable) (page : ParsedPage) : Option PageTable :=
  (addEntry t.entries page).map fun entries => { t with entries := entries }

/-- One round of the loop over a segment's fields: one a segment does not have is refused. -/
def segmentRound (data : Bytes) (t : PageTable) : Option (PageTable × Bytes) :=
  (consumeTag data).bind fun (number, kind, rest) =>
    if maximumNumber < number then none
    else if kind ≠ bytesType ∨ number < 1 ∨ 3 < number then none
    else (consumeBytes rest).bind fun (value, rest) =>
      if number = 1 then ((parsePage value).bind t.add).map (·, rest)
      else if number = 2 then (parseRef value).map fun ref => ({ t with refs := t.refs ++ [ref] }, rest)
      else (parseRef value).map fun ref => ({ t with origins := t.origins ++ [ref] }, rest)

/-- Check what an entry names of the lists, and record its part. -/
def countPart (t : PageTable) (parts : List Nat) (e : TableEntry) : Option (List Nat) :=
  if e.ref = 0 then some parts
  else if t.refs.length ≤ e.ref - 1 ∨ e.origin ≠ 0 ∧ t.origins.length ≤ e.origin - 1 then none
  else some (parts.modify (e.ref - 1) (max · (e.part + 1)))

def parsePageTable (data : Bytes) : Option PageTable :=
  (rounds segmentRound data {}).bind fun t =>
    (t.entries.foldlM (countPart t) (List.replicate t.refs.length 0)).map fun parts => { t with parts := parts }

/-- A table the index can read a volume's segment from. -/
def Index.checkTable (i : Index) (volume : Bytes) (t : PageTable) : Bool :=
  match i.volumes.lookup volume with
  | none => false
  | some table =>
    decide (t.entries.length ≤ table.geometry.segmentPages) &&
      (t.refs.zip t.parts).all fun (ref, n) =>
        n = 0 || ((i.checkpoints.lookup ref).any fun entry => decide (n ≤ entry.parts))

end Sproutfs.Checkpoint
