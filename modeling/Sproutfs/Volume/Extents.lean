import Sproutfs.Lib.Bytes
import Sproutfs.Lib.JoinTree

/-!
# The extent index of a volume's overlay

The runs of a volume written since its selected checkpoint (`volume/overlay.go`): an immutable
height-balanced index of extents, cut at the two ends of every run that replaces part of it and joined
again. A run without a payload is explicit zeroes. A read of single pages asks the source once, for the
wanted pages that the overlay does not hold whole.
-/

namespace Sproutfs.Volume

open ByteCodec

/-- One run of the volume. Positions are 64-bit numbers. -/
structure Extent where
  start : Nat
  stop : Nat
  data : Option Bytes
  generation : Nat
  nonempty : start < stop
  bounded : stop < 2 ^ 64
  fits : ∀ d, data = some d → d.length = stop - start
  deriving DecidableEq

namespace Extent

abbrev covers (e : Extent) (b : Nat) : Prop := e.start ≤ b ∧ b < e.stop

/-- The byte the run has at a position it covers. -/
def byte (e : Extent) (b : Nat) : UInt8 := match e.data with
  | none => 0
  | some d => d.getD (b - e.start) 0

/-- The bytes of the run from `a` to `b`. -/
def window (e : Extent) (a b : Nat) : Bytes := match e.data with
  | none => zeros (b - a)
  | some d => slice d (a - e.start) (b - a)

/-- The part of the run before a position inside it. -/
def before (e : Extent) (p : Nat) (h : e.start < p) (h' : p < e.stop) : Extent where
  start := e.start
  stop := p
  data := e.data.map (·.take (p - e.start))
  generation := e.generation
  nonempty := h
  bounded := Nat.lt_trans h' e.bounded
  fits := by
    intro d hd
    obtain ⟨d', hd', rfl⟩ := Option.map_eq_some_iff.mp hd
    rw [List.length_take, e.fits d' hd']
    omega

/-- The part of the run from a position inside it on. -/
def after (e : Extent) (p : Nat) (h : e.start < p) (h' : p < e.stop) : Extent where
  start := p
  stop := e.stop
  data := e.data.map (·.drop (p - e.start))
  generation := e.generation
  nonempty := h'
  bounded := e.bounded
  fits := by
    intro d hd
    obtain ⟨d', hd', rfl⟩ := Option.map_eq_some_iff.mp hd
    rw [List.length_drop, e.fits d' hd']
    omega

end Extent

abbrev ExtentIndex := JoinTree Extent

namespace ExtentIndex

/-- Cut the index at a position, and the extent the position lies in with it. -/
def split : ExtentIndex → Nat → ExtentIndex × ExtentIndex
  | .nil, _ => (.nil, .nil)
  | .node l item r _ _, position =>
    if h : position ≤ item.start then ((split l position).1, (split l position).2.join item r)
    else if h' : item.stop ≤ position then (l.join item (split r position).1, (split r position).2)
    else
      (l.join (item.before position (Nat.lt_of_not_le h) (Nat.lt_of_not_le h')) .nil,
        JoinTree.nil.join (item.after position (Nat.lt_of_not_le h) (Nat.lt_of_not_le h')) r)

/-- The index with `next` over its whole range. -/
def replace (current : ExtentIndex) (next : Extent) : ExtentIndex :=
  let cut := split current next.start
  cut.1.join next (split cut.2 next.stop).2

def visit (start stop : Nat) : ExtentIndex → List Extent
  | .nil => []
  | .node l item r _ _ =>
    if stop ≤ item.start then visit start stop l
    else if item.stop ≤ start then visit start stop r
    else visit start stop l ++ item :: visit start stop r

/-- The extents that overlap a range, in order. -/
def between (t : ExtentIndex) (start stop : Nat) : List Extent :=
  if start < stop then visit start stop t else []

def all (t : ExtentIndex) : List Extent := between t 0 (2 ^ 64 - 1)

/-- Drop every extent written at or below a generation. -/
def retain (t : ExtentIndex) (through : Nat) : ExtentIndex :=
  (all t).foldl (fun kept item => if item.generation > through then kept.join item .nil else kept) .nil

end ExtentIndex

/-- What lies below an overlay: its bytes, and which reads of them succeed. -/
structure Inherited where
  bytes : Nat → UInt8
  reads : Nat → Nat → Bool
  readsPages : Nat → Nat → List Bool → Bool

namespace Inherited

def read (base : Inherited) (offset n : Nat) : Option Bytes :=
  if base.reads offset n then some ((List.range' offset n).map base.bytes) else none

/-- A read of the marked pages, one mark for each page the range touches: the bytes of the others stay as
they were. -/
def readPages (base : Inherited) (size offset : Nat) (dst : Bytes) (marked : List Bool) : Option Bytes :=
  if base.readsPages offset dst.length marked then
    some (dst.mapIdx fun i b =>
      if marked.getD ((offset + i) / size - offset / size) false then base.bytes (offset + i) else b)
  else none

end Inherited

/-- The buffer with `w` written at an offset. -/
def splice (dst : Bytes) (off : Nat) (w : Bytes) : Bytes := dst.take off ++ w ++ dst.drop (off + w.length)

/-- Fill what lies between the cursor and the next extent from below. -/
def fillGap (base : Inherited) (offset cursor start : Nat) (dst : Bytes) : Option Bytes :=
  if cursor < start then (base.read cursor (start - cursor)).map (splice dst (cursor - offset)) else some dst

/-- Fill the gap before each extent, then the extent's part of the range, and go on at its end.
`cancelled` is the context's state when the read is done; a last gap is the source's to refuse. -/
def readItems (base : Inherited) (cancelled : Bool) (offset stop : Nat) :
    List Extent → Nat → Bytes → Option Bytes
  | [], cursor, dst =>
    if cursor < stop then fillGap base offset cursor stop dst else if cancelled then none else some dst
  | item :: rest, cursor, dst =>
    let start := max item.start offset
    let last := min item.stop stop
    (fillGap base offset cursor start dst).bind fun dst =>
      readItems base cancelled offset stop rest last (splice dst (start - offset) (item.window start last))

def readOverlay (base : Inherited) (cancelled : Bool) (overlay : ExtentIndex) (offset : Nat) (dst : Bytes) :
    Option Bytes :=
  let stop := offset + dst.length
  readItems base cancelled offset stop (overlay.between offset stop) offset dst

/-- The part of an extent on each page of the range it touches: the page, and where the part begins and
ends. -/
def pieces (size offset stop : Nat) (item : Extent) : List (Nat × Nat × Nat) :=
  let start := max item.start offset
  let last := min item.stop stop
  (List.range' (start / size) ((last - 1) / size + 1 - start / size)).map fun page =>
    (page, max start (page * size), min last ((page + 1) * size))

/-- How many bytes of each page of the range the extents hold. -/
def heldBytes (size offset stop : Nat) (items : List Extent) : List Nat :=
  let first := offset / size
  items.foldl (fun held item =>
    (pieces size offset stop item).foldl (fun held p => held.modify (p.1 - first) (· + (p.2.2 - p.2.1))) held)
    (List.replicate ((stop - 1) / size - first + 1) 0)

/-- A page of the range that is wanted; no mask wants every page. -/
def wants (wanted : Option (List Bool)) (i : Nat) : Bool := match wanted with
  | none => true
  | some mask => mask.getD i false

/-- The wanted pages of the range the extents do not hold whole. -/
def inheritedPages (size offset stop : Nat) (wanted : Option (List Bool)) (held : List Nat) : List Bool :=
  held.mapIdx fun i n =>
    let page := offset / size + i
    wants wanted i && decide (n < min stop ((page + 1) * size) - max offset (page * size))

/-- Lay the extents over the wanted pages. -/
def layItems (size offset stop : Nat) (wanted : Option (List Bool)) (items : List Extent) (dst : Bytes) : Bytes :=
  items.foldl (fun dst item =>
    (pieces size offset stop item).foldl (fun dst p =>
      if wants wanted (p.1 - offset / size) then splice dst (p.2.1 - offset) (item.window p.2.1 p.2.2)
      else dst) dst) dst

def readOverlayPages (base : Inherited) (cancelled : Bool) (overlay : ExtentIndex) (size offset : Nat)
    (dst : Bytes) (wanted : Option (List Bool)) : Option Bytes :=
  let stop := offset + dst.length
  if stop = offset then if cancelled then none else some dst
  else
    let items := overlay.between offset stop
    let inherited := inheritedPages size offset stop wanted (heldBytes size offset stop items)
    (if inherited.any id then base.readPages size offset dst inherited else some dst).bind fun dst =>
      if cancelled then none else some (layItems size offset stop wanted items dst)

end Sproutfs.Volume
