import Mathlib.Data.List.Chain
import Mathlib.Data.List.Dedup
import Mathlib.Data.List.Sort
import Sproutfs.Lib.Bytes

/-!
# The control record

A VM's durable control state: who may write it, which checkpoint it selects, and which checkpoints
reclamation must spare (`control/record.go`, `control/control.go`). Epochs and sequences are natural
numbers; nothing here comes near the end of 64 bits. A string is the list of its characters: one that
is not UTF-8 names no VM.
-/

namespace Sproutfs.Control

open ByteCodec

def nonceSize : Nat := 16
def maximumPins : Nat := 4096
def maximumKept : Nat := 4096
def maximumJournals : Nat := 2
def minimumEpoch : Nat := 1
def maximumCreateEpoch : Nat := 2 ^ 31 - 1
def maximumEpoch : Nat := 2 ^ 32 - 1

/-! ## Identities and sequences -/

def maximumTenant : Nat := 63

def byteLength (s : List Char) : Nat := (s.map Char.utf8Size).sum

def validTenant (tenant : List Char) : Bool :=
  tenant ≠ [] && byteLength tenant ≤ maximumTenant && tenant.head? ≠ some '-' &&
    tenant.all fun c => ('a' ≤ c && c ≤ 'z') || ('0' ≤ c && c ≤ '9') || c = '-'

def validName (name : List Char) : Bool :=
  name ≠ [] && byteLength name ≤ 256 && name ≠ ['.'] && name ≠ ['.', '.'] &&
    !name.any fun r => r = '/' || r.toNat < 0x20 || r.toNat = 0x7f

/-- A name, or a tenant and a name around the first slash. -/
def validID (id : List Char) : Bool :=
  if 256 < byteLength id then false
  else if '/' ∈ id then
    validTenant (id.takeWhile (· ≠ '/')) && validName ((id.dropWhile (· ≠ '/')).drop 1)
  else validName id

/-- A sequence is epoch-major, so a writer and its successor never allocate the same one. -/
def sequence (epoch counter : Nat) : Nat := epoch * 2 ^ 32 + counter
def epochOf (sequence : Nat) : Nat := sequence / 2 ^ 32
def counterOf (sequence : Nat) : Nat := sequence % 2 ^ 32

def validSequence (epoch sequence : Nat) : Bool :=
  minimumEpoch ≤ epoch && epoch ≤ maximumEpoch && epochOf sequence = epoch && 1 ≤ counterOf sequence

def validCreateSequence (sequence : Nat) : Bool :=
  epochOf sequence ≤ maximumCreateEpoch && validSequence (epochOf sequence) sequence

/-! ## The record -/

/-- The identity of a journal's disk. -/
abbrev Disk := { b : Bytes // b.length = 16 }

def noDisk : Disk := ⟨zeros 16, length_zeros 16⟩

/-- A journal that may hold flushed writes newer than the selected checkpoint. -/
structure Journal where
  disk : Disk
  generation : Nat
  epoch : Nat
  covered : Nat
  deriving DecidableEq

structure Kept where
  sequence : Nat
  time : Int
  state : Bool
  deriving DecidableEq

abbrev Nonce := Bytes

structure Record where
  vm : List Char
  epoch : Nat
  nonce : Nonce
  selected : Nat
  created : Bool
  pinned : List Nat := []
  kept : List Kept := []
  journals : List Journal := []
  deriving DecidableEq

inductive Error where
  | invalidConfig
  | vmExists
  | corrupt
  | fenced
  | closed
  | moved
  | epochExhausted
  | sequence
  | tooManyPins
  | notPublished
  | tooManyKept
  | notKept
  | forked
  | tooManyJournals
  | notFound
  /-- Any other error of the store, joined or not. -/
  | store
  deriving DecidableEq

/-- A sorted set of checkpoint sequences. -/
def ascending (sequences : List Nat) : Bool := 0 ∉ sequences ∧ sequences.IsChain (· < ·)

namespace Record

variable (r : Record)

def isPinned (sequence : Nat) : Bool := sequence ∈ r.pinned

def isKept (sequence : Nat) : Bool := r.kept.any (·.sequence = sequence)

def keptSequences : List Nat := r.kept.map (·.sequence)

/-- Every checkpoint reclamation must spare: the pinned ones and the kept ones, as one sorted set. -/
def protectedSequences : List Nat :=
  ((r.pinned ++ r.keptSequences).insertionSort (· ≤ ·)).dedup

/-- One more pin fits. -/
def admits (sequence : Nat) : Except Error Unit :=
  if !r.isPinned sequence && maximumPins ≤ r.pinned.length then .error .tooManyPins else .ok ()

def withPin (sequence : Nat) : List Nat :=
  if r.isPinned sequence then r.pinned
  else r.pinned.takeWhile (· ≤ sequence) ++ sequence :: r.pinned.dropWhile (· ≤ sequence)

def withKept (k : Kept) : Except Error (List Kept) :=
  if r.isKept k.sequence then .ok r.kept
  else if maximumKept ≤ r.kept.length then .error .tooManyKept
  else .ok (r.kept.takeWhile (·.sequence ≤ k.sequence) ++
    k :: r.kept.dropWhile (·.sequence ≤ k.sequence))

def withoutKept (sequence : Nat) : List Kept := r.kept.filter (·.sequence ≠ sequence)

/-- The whole durable content of two records is the same. -/
def equal (other : Record) : Bool := r = other

/-- A record read back is the one this epoch and nonce own. -/
def mine (epoch : Nat) (nonce : Nonce) : Bool := r.epoch = epoch && r.nonce = nonce

def validJournals : Bool :=
  r.journals.length ≤ maximumJournals &&
    r.journals.all (fun j => j.disk ≠ noDisk && minimumEpoch ≤ j.epoch && j.epoch ≤ r.epoch) &&
    decide ((r.journals.map (·.epoch)).IsChain (· < ·))

def valid : Bool :=
  validID r.vm && r.nonce.length = nonceSize && minimumEpoch ≤ r.epoch && r.epoch ≤ maximumEpoch &&
    r.selected ≠ 0 && r.pinned.length ≤ maximumPins && r.kept.length ≤ maximumKept &&
    ascending r.pinned && ascending r.keptSequences && r.validJournals

end Record

end Sproutfs.Control
