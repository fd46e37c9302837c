import Sproutfs.Volume.Extents

/-!
# A volume's reads and writes

The operations a guest's volume offers over its overlay (`volume/operations.go`, and `apply` of
`volume/vm.go`): a read of a range or of marked pages of it through one view, a batch of writes that takes
one generation, and a discard. A handle that is closed, handed off or fenced refuses all of them; an
ephemeral disk reads as zeroes and takes no write. The overlay is one volume's.
-/

set_option linter.dupNamespace false

namespace Sproutfs.Volume

open ByteCodec

inductive VolumeError where
  | invalidRange
  | ephemeral
  | writeTooLarge
  | cancelled
  /-- The handle was closed, handed off or fenced. -/
  | terminal
  /-- The source below the overlay failed, or the context was cancelled on the way. -/
  | failed
  deriving DecidableEq, Repr

structure Volume where
  size : Nat
  pageSize : Nat
  isEphemeral : Bool := false
  maxWriteBytes : Nat
  paged : 0 < pageSize
  bounded : size < 2 ^ 64

/-- The handle's part of one volume. -/
structure Handle where
  terminal : Bool := false
  applied : Nat := 0
  overlay : ExtentIndex := .nil

/-- One range a write replaces. No payload is a discard. -/
structure Change where
  offset : Nat
  length : Nat
  data : Option Bytes
  nonempty : 0 < length
  bounded : offset + length < 2 ^ 64
  fits : ∀ d, data = some d → d.length = length

def Change.extent (c : Change) (generation : Nat) : Extent where
  start := c.offset
  stop := c.offset + c.length
  data := c.data
  generation := generation
  nonempty := Nat.lt_add_of_pos_right c.nonempty
  bounded := c.bounded
  fits := fun d hd => by
    rw [c.fits d hd]
    omega

/-- Install one write under a new generation. -/
def Handle.apply (s : Handle) (changes : List Change) : Handle :=
  { s with
    applied := s.applied + 1
    overlay := changes.foldl (fun overlay c => overlay.replace (c.extent (s.applied + 1))) s.overlay }

namespace Volume

abbrev validRange (v : Volume) (offset length : Nat) : Prop := offset ≤ v.size ∧ length ≤ v.size - offset

variable (v : Volume)

/-- The changes of a batch, without the empty payloads, and the bytes of all of them. -/
def changes : List (Nat × Bytes) → Except VolumeError (List Change × Nat)
  | [] => .ok ([], 0)
  | (offset, data) :: rest =>
    if hr : v.validRange offset data.length then
      if he : data.length = 0 then changes rest
      else (changes rest).map fun (cs, total) =>
        ({ offset := offset, length := data.length, data := some data, nonempty := Nat.pos_of_ne_zero he,
           bounded := by
             have := v.bounded
             omega
           fits := fun d hd => by
             cases hd
             rfl } :: cs, data.length + total)
    else .error .invalidRange

/-- Replace several ranges as one generation. -/
def writeBatch (s : Handle) (cancelled : Bool) (extents : List (Nat × Bytes)) : Except VolumeError Handle :=
  if v.isEphemeral then .error .ephemeral
  else match v.changes extents with
    | .error e => .error e
    | .ok (cs, total) =>
      if total > v.maxWriteBytes then .error .writeTooLarge
      else if cs.isEmpty then .ok s
      else if cancelled then .error .cancelled
      else if s.terminal then .error .terminal
      else .ok (s.apply cs)

/-- Make a range read as zeroes. -/
def discard (s : Handle) (cancelled : Bool) (offset length : Nat) : Except VolumeError Handle :=
  if hr : v.validRange offset length then
    if he : length = 0 then .ok s
    else if v.isEphemeral then .error .ephemeral
    else if cancelled then .error .cancelled
    else if s.terminal then .error .terminal
    else .ok (s.apply [{ offset := offset, length := length, data := none, nonempty := Nat.pos_of_ne_zero he,
                         bounded := by
                           have := v.bounded
                           omega
                         fits := fun d hd => by cases hd }])
  else .error .invalidRange

/-- Fill the buffer from one view. The context is looked at before the read and after it. -/
def read (s : Handle) (base : Inherited) (cancelled late : Bool) (offset : Nat) (dst : Bytes) :
    Except VolumeError Bytes :=
  if v.validRange offset dst.length then
    if cancelled then .error .cancelled
    else if s.terminal then .error .terminal
    else if v.isEphemeral then .ok (zeros dst.length)
    else match readOverlay base late s.overlay offset dst with
      | none => .error .failed
      | some r => .ok r
  else .error .invalidRange

/-- Zero the wanted pages of a range. -/
def clearPages (dst : Bytes) (size offset : Nat) : Option (List Bool) → Bytes
  | none => zeros dst.length
  | some wanted =>
    wanted.zipIdx.foldl (fun dst (want, index) =>
      if want then
        let start := max ((offset / size + index) * size) offset - offset
        let stop := min ((offset / size + index + 1) * size - offset) dst.length
        splice dst start (zeros (stop - start))
      else dst) dst

/-- Fill the wanted pages of a range, one mark for each page it touches. -/
def loadPages (s : Handle) (base : Inherited) (cancelled late : Bool) (offset : Nat) (dst : Bytes)
    (wanted : Option (List Bool)) : Except VolumeError Bytes :=
  if v.validRange offset dst.length then
    if dst.length = 0 then if cancelled then .error .cancelled else .ok dst
    else if wanted.any fun mask => mask.length ≠
        (offset + dst.length - 1) / v.pageSize - offset / v.pageSize + 1 then .error .invalidRange
    else if cancelled then .error .cancelled
    else if s.terminal then .error .terminal
    else if v.isEphemeral then .ok (clearPages dst v.pageSize offset wanted)
    else match readOverlayPages base late s.overlay v.pageSize offset dst wanted with
      | none => .error .failed
      | some r => .ok r
  else .error .invalidRange

end Volume

end Sproutfs.Volume
