import Sproutfs.Lib.Bytes

/-!
# The items and tables of a cache disk

The format of the page cache's disk (`checkpoint/diskformat.go`, version 3): what names one envelope,
the item that holds one stripe of it, the table that closes a region, and their decoders. CRC32C is a
parameter `sum`.
-/

namespace Sproutfs.DiskCache

open ByteCodec

abbrev Checksum := Bytes → { b : Bytes // b.length = 4 }

/-- What the disk names one envelope by, a page's or a segment's. The span is how many of its volume's
pages one window holds. -/
structure Key where
  vm : Bytes
  sequence : UInt64
  volume : Bytes
  page : UInt64
  segment : Bool := false
  span : UInt16 := 1
  deriving DecidableEq, Repr

/-- Where an item sits in its envelope's erasure code: a stripe of `k` data stripes and `m` of
parity. -/
structure Code where
  stripe : UInt8 := 0
  k : UInt8 := 1
  m : UInt8 := 0
  deriving DecidableEq, Repr

/-- The code can store an envelope, and the stripe is one of it. -/
def Code.Valid (c : Code) : Prop :=
  1 ≤ c.k.toNat ∧ c.k.toNat + c.m.toNat ≤ 32 ∧ c.stripe.toNat < c.k.toNat + c.m.toNat

instance (c : Code) : Decidable c.Valid := inferInstanceAs (Decidable (_ ∧ _ ∧ _))

def maximumDiskItem : Nat := 2 ^ 24 - 1

/-- One stripe of an envelope, and the length of the envelope. -/
structure Stripe where
  code : Code
  envelope : Nat
  data : Bytes
  deriving DecidableEq

/-- An item holds the stripe: it is one of its code, of the length of a stripe of its envelope, and its
bytes fit an item. -/
def Stripe.storable (s : Stripe) : Prop :=
  s.code.Valid ∧ s.envelope ≤ 2 ^ 31 - 1 ∧ s.data.length = (s.envelope + s.code.k.toNat - 1) / s.code.k.toNat ∧
    s.data.length ≤ maximumDiskItem

def diskItemFixed : Nat := 44
def diskTableFixed : Nat := 34
def diskTrailerSize : Nat := 40

def itemMagic : Bytes := [83, 70, 67, 73]
def tableMagic : Bytes := [83, 70, 67, 84]

def itemHeaderBytes (key : Key) : Nat := diskItemFixed + (key.vm.length + key.volume.length)

def tableEntryBytes (key : Key) : Nat := diskTableFixed + (key.vm.length + key.volume.length)

/-- The names fit the format's length fields. -/
def Key.storable (key : Key) : Prop := key.vm.length ≤ 0xffff ∧ key.volume.length ≤ 0xffff

instance (key : Key) : Decidable key.storable := inferInstanceAs (Decidable (_ ∧ _))

def kindOf (key : Key) : UInt8 := if key.segment then 1 else 0

/-! ## Windows -/

def fnv1a (b : Bytes) : UInt64 :=
  b.foldl (fun hash x => (hash ^^^ x.toUInt64) * 1099511628211) 14695981039346656037

/-- The pages of the key's window. -/
def Key.pages (key : Key) : Nat := max key.span.toNat 1

/-- The hash of the window the key falls in. -/
def Key.hash (key : Key) : UInt64 :=
  fnv1a ((if key.segment then 1 else 0) :: (le 8 key.sequence.toNat ++ le 8 (key.page.toNat / key.pages) ++
    le 2 key.pages ++ le 8 key.vm.length ++ key.vm ++ key.volume))

/-- The key's place within its window. -/
def Key.place (key : Key) : Nat := key.page.toNat % key.pages

/-! ## Items -/

/-- An item's header up to its checksum. -/
def itemHead (key : Key) (s : Stripe) : Bytes :=
  itemMagic ++ [3, kindOf key, s.code.stripe, s.code.k, s.code.m, 0] ++ le 2 key.span.toNat ++
    le 2 key.vm.length ++ le 2 key.volume.length ++ le 8 key.sequence.toNat ++ le 8 key.page.toNat ++
    le 4 s.data.length ++ le 4 s.envelope

/-- What follows an item's checksum. -/
def itemTail (key : Key) (s : Stripe) : Bytes := key.vm ++ key.volume ++ s.data

def encodeItem (sum : Checksum) (key : Key) (s : Stripe) : Bytes :=
  itemHead key s ++ (sum (itemHead key s ++ zeros 4 ++ itemTail key s)).val ++ itemTail key s

/-- The code an item's header or a table's entry names. -/
def codeAt (b : Bytes) (off : Nat) : Code :=
  ⟨b.getD off 0, b.getD (off + 1) 0, b.getD (off + 2) 0⟩

/-- The whole length of the item whose header begins with `fixed`, by what the header says; none where
the header does not hold together. -/
def itemLength (fixed : Bytes) : Option Nat :=
  if fixed.length < diskItemFixed ∨ slice fixed 0 4 ≠ itemMagic ∨ fixed.getD 4 0 ≠ 3 ∨
      1 < (fixed.getD 5 0).toNat ∨ fixed.getD 9 0 ≠ 0 then none
  else if ¬ (codeAt fixed 6).Valid then none
  else some (diskItemFixed + fromLE (slice fixed 12 2) + fromLE (slice fixed 14 2) + fromLE (slice fixed 32 4))

/-- The key an item's header names, read without trusting the rest of the item. -/
def itemKey (item : Bytes) : Option Key :=
  if itemLength item = none then none
  else
    let vm := fromLE (slice item 12 2)
    let volume := fromLE (slice item 14 2)
    if item.length < diskItemFixed + vm + volume then none
    else some
      { vm := slice item diskItemFixed vm
        sequence := .ofNat (fromLE (slice item 16 8))
        volume := slice item (diskItemFixed + vm) volume
        page := .ofNat (fromLE (slice item 24 8))
        segment := item.getD 5 0 = 1
        span := .ofNat (fromLE (slice item 10 2)) }

/-- Reads an item's header and bytes back without trusting either. -/
def parseItem (sum : Checksum) (item : Bytes) : Option (Key × Stripe) :=
  match itemKey item with
  | none => none
  | some key =>
    if item.length ≠ itemHeaderBytes key + fromLE (slice item 32 4) then none
    else if (sum (item.take 40 ++ zeros 4 ++ item.drop diskItemFixed)).val ≠ slice item 40 4 then none
    else some (key, ⟨codeAt item 6, fromLE (slice item 36 4), item.drop (itemHeaderBytes key)⟩)

/-! ## Tables -/

structure TableItem where
  key : Key
  code : Code
  offset : Nat
  length : Nat
  deriving DecidableEq

/-- The entry's fields hold the item. -/
def TableItem.storable (i : TableItem) : Prop :=
  i.key.storable ∧ i.code.Valid ∧ i.offset < 2 ^ 32 ∧ i.length ≤ maximumDiskItem

/-- The length of the item on the disk, header and bytes. -/
def TableItem.size (i : TableItem) : Nat := itemHeaderBytes i.key + i.length

/-- What a region's table says: the region's place in the order of the log, the generation of the file
it was written in, and every item it names, in the order they lie. -/
structure RegionTable where
  sequence : Nat
  generation : Nat
  items : List TableItem
  deriving DecidableEq

def encodeTableItem (i : TableItem) : Bytes :=
  [kindOf i.key, i.code.stripe, i.code.k, i.code.m] ++ le 2 i.key.span.toNat ++ le 2 i.key.vm.length ++
    le 2 i.key.volume.length ++ le 8 i.key.sequence.toNat ++ le 8 i.key.page.toNat ++ le 4 i.offset ++
    le 4 i.length ++ i.key.vm ++ i.key.volume

/-- A table's entries and its trailer's first 32 bytes. -/
def tableBody (t : RegionTable) : Bytes :=
  t.items.flatMap encodeTableItem ++ tableMagic ++ [3, 0, 0, 0] ++ le 8 t.sequence ++ le 8 t.generation ++
    le 4 t.items.length ++ le 4 (t.items.flatMap encodeTableItem).length

/-- A region's table and trailer, which close the region at its end. -/
def encodeTable (sum : Checksum) (t : RegionTable) : Bytes :=
  tableBody t ++ (sum (tableBody t)).val ++ zeros 4

/-- The ways a region's end is refused: a read failed, it holds no table, or a table that does not hold
together. -/
inductive TableError where
  | failed
  | noTable
  | tornTable
  deriving DecidableEq, Repr

/-- Reads the `count` entries of a table back. -/
def parseTableItems : Nat → Bytes → Option (List TableItem)
  | 0, _ => some []
  | count + 1, entry =>
    if entry.length < diskTableFixed then none
    else
      let vm := fromLE (slice entry 6 2)
      let volume := fromLE (slice entry 8 2)
      if entry.length < diskTableFixed + vm + volume then none
      else
        let item : TableItem :=
          { key :=
              { vm := slice entry diskTableFixed vm
                sequence := .ofNat (fromLE (slice entry 10 8))
                volume := slice entry (diskTableFixed + vm) volume
                page := .ofNat (fromLE (slice entry 18 8))
                segment := entry.getD 0 0 = 1
                span := .ofNat (fromLE (slice entry 4 2)) }
            code := codeAt entry 1
            offset := fromLE (slice entry 26 4)
            length := fromLE (slice entry 30 4) }
        if maximumDiskItem < item.length ∨ ¬ item.code.Valid then none
        else (parseTableItems count (entry.drop (diskTableFixed + vm + volume))).map (item :: ·)

/-- Reads of a file: what is past its end is not read. -/
def readFull (file : Bytes) (off n : Nat) : Option Bytes :=
  if off + n ≤ file.length then some (slice file off n) else none

/-- What the bytes of a table of `size` and its trailer say. -/
def parseTable (sum : Checksum) (size : Nat) (table : Bytes) : Except TableError RegionTable :=
  if (sum (table.take (size + 32))).val ≠ slice table (size + 32) 4 then .error .tornTable
  else match parseTableItems (fromLE (slice table (size + 24) 4)) (table.take size) with
    | none => .error .tornTable
    | some items => .ok ⟨fromLE (slice table (size + 8) 8), fromLE (slice table (size + 16) 8), items⟩

/-- Reads back the table that closes the region of `regionBytes` at `base`, where `read` gives the
bytes at an offset, or fails. -/
def readRegionTable (sum : Checksum) (read : Nat → Nat → Option Bytes) (base regionBytes : Nat) :
    Except TableError RegionTable :=
  match read (base + regionBytes - diskTrailerSize) diskTrailerSize with
  | none => .error .failed
  | some trailer =>
    if slice trailer 0 4 ≠ tableMagic then .error .noTable
    else
      let size := fromLE (slice trailer 28 4)
      if trailer.getD 4 0 ≠ 3 ∨ regionBytes - diskTrailerSize < size then .error .tornTable
      else match read (base + regionBytes - (size + diskTrailerSize)) (size + diskTrailerSize) with
        | none => .error .failed
        | some table => parseTable sum size table

/-- Reads items back from their headers, from `at_` on: an item that fails its checksum is stepped over
by the length its header gives, and the first header that does not hold together, or would run past
`limit`, ends the scan. A failed read ends it too, and is reported with what was found. -/
def scanFrom (sum : Checksum) (read : Nat → Nat → Option Bytes) (base limit at_ : Nat) : List TableItem × Bool :=
  if limit < at_ + diskItemFixed then ([], false)
  else match read (base + at_) diskItemFixed with
    | none => ([], true)
    | some fixed => match itemLength fixed with
      | none => ([], false)
      | some size =>
        -- No item is empty.
        if _h : limit < at_ + size ∨ size = 0 then ([], false)
        else match read (base + at_) size with
          | none => ([], true)
          | some item =>
            let rest := scanFrom sum read base limit (at_ + size)
            (((parseItem sum item).map fun (key, s) => ⟨key, s.code, at_, s.data.length⟩).toList ++ rest.1, rest.2)
termination_by limit - at_
decreasing_by omega

/-- Reads the items of the region of `regionBytes` at `base` back without its table. -/
def scanRegion (sum : Checksum) (read : Nat → Nat → Option Bytes) (base regionBytes : Nat) : List TableItem × Bool :=
  scanFrom sum read base (regionBytes - diskTrailerSize) 0

/-! ## The header and the lease -/

abbrev Identity := { b : Bytes // b.length = 16 }

/-- The object store, its bucket and the prefix of the deployment's objects. -/
structure Deployment where
  store : Bytes
  bucket : Bytes
  root : Bytes
  deriving DecidableEq

def Deployment.storable (d : Deployment) : Prop :=
  d.store.length ≤ 0xffff ∧ d.bucket.length ≤ 0xffff ∧ d.root.length ≤ 0xffff

/-- What a cache file's header says. The region size is the bits of an `int64`. -/
structure DiskHeader where
  regionBytes : UInt64
  identity : Identity
  generation : UInt64
  deployment : Deployment
  deriving DecidableEq

def diskHeaderFixed : Nat := 48
def headerMagic : Bytes := [83, 70, 67, 72]

def diskHeaderBytes (d : Deployment) : Nat :=
  diskHeaderFixed + (d.store.length + d.bucket.length + d.root.length) + 4

/-- The fields of a header before the cache's identity, and those between it and the names. -/
def headerStart (h : DiskHeader) : Bytes := headerMagic ++ [3, 0, 0, 0] ++ le 8 h.regionBytes.toNat

def headerFields (h : DiskHeader) : Bytes :=
  le 8 h.generation.toNat ++ le 2 h.deployment.store.length ++ le 2 h.deployment.bucket.length ++
    le 2 h.deployment.root.length ++ zeros 2

/-- A header up to its checksum. -/
def headerBody (h : DiskHeader) : Bytes :=
  headerStart h ++ (h.identity.val ++ (headerFields h ++
    (h.deployment.store ++ h.deployment.bucket ++ h.deployment.root)))

def encodeDiskHeader (sum : Checksum) (h : DiskHeader) : Bytes := headerBody h ++ (sum (headerBody h)).val

inductive HeaderError where
  | failed
  | noHeader
  | damaged
  | format (version : UInt8)
  deriving DecidableEq

/-- Sixteen bytes at an offset. -/
def identityAt (b : Bytes) (off : Nat) : Identity :=
  ⟨slice (b ++ zeros (off + 16)) off 16, length_slice_zeros b off⟩

/-- Reads back the header at the start of a file, which is never longer than `limit`. A file that ends
before the header does has none, or a damaged one. -/
def readDiskHeader (sum : Checksum) (read : Nat → Nat → Except Unit (Option Bytes)) (limit : Nat) :
    Except HeaderError DiskHeader :=
  match read 0 diskHeaderFixed with
  | .error _ => .error .failed
  | .ok none => .error .noHeader
  | .ok (some fixed) =>
    if slice fixed 0 4 ≠ headerMagic then .error .noHeader
    else if fixed.getD 4 0 ≠ 3 then .error (.format (fixed.getD 4 0))
    else
      let store := fromLE (slice fixed 40 2)
      let bucket := fromLE (slice fixed 42 2)
      let size := diskHeaderFixed + (store + bucket + fromLE (slice fixed 44 2)) + 4
      if limit < size then .error .damaged
      else match read 0 size with
        | .error _ => .error .failed
        | .ok none => .error .damaged
        | .ok (some encoded) =>
          if (sum (encoded.take (size - 4))).val ≠ encoded.drop (size - 4) then .error .damaged
          else
            let names := slice encoded diskHeaderFixed (size - 4 - diskHeaderFixed)
            .ok { regionBytes := .ofNat (fromLE (slice encoded 8 8))
                  identity := identityAt encoded 16
                  generation := .ofNat (fromLE (slice encoded 32 8))
                  deployment := { store := names.take store, bucket := slice names store bucket,
                                  root := names.drop (store + bucket) } }

/-- What a shard's lease says. The slots are the bits of an `int64`. -/
structure DiskLease where
  generation : UInt64
  assigned : UInt64
  member : Identity
  slots : UInt64
  deriving DecidableEq

def diskLeaseSize : Nat := 64
def leaseMagic : Bytes := [83, 70, 67, 76]

def leaseStart (l : DiskLease) : Bytes :=
  leaseMagic ++ [1, 0, 0, 0] ++ le 8 l.generation.toNat ++ le 8 l.assigned.toNat

def leaseBody (l : DiskLease) : Bytes := leaseStart l ++ (l.member.val ++ le 8 l.slots.toNat)

def encodeDiskLease (sum : Checksum) (l : DiskLease) : Bytes := leaseBody l ++ (sum (leaseBody l)).val ++ zeros 12

/-- Reads back a shard's lease, at the end of the header region. -/
def readDiskLease (sum : Checksum) (read : Nat → Nat → Option Bytes) (regionBytes : Nat) : Option DiskLease :=
  (read (regionBytes - diskLeaseSize) diskLeaseSize).bind fun encoded =>
    if slice encoded 0 4 ≠ leaseMagic ∨ encoded.getD 4 0 ≠ 1 ∨
        (sum (encoded.take 48)).val ≠ slice encoded 48 4 then none
    else some { generation := .ofNat (fromLE (slice encoded 8 8)), assigned := .ofNat (fromLE (slice encoded 16 8)),
                member := identityAt encoded 24, slots := .ofNat (fromLE (slice encoded 40 8)) }

end Sproutfs.DiskCache
