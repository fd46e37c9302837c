import Mathlib.Logic.Function.Basic

/-!
# One page of a durable disk

A page of a memory region with what its durable flush keeps of it (`vmmemory/journal.go`): whether the
region holds its own copy, whether a seal shares it, whether a capture write-protected it, whether it
is unjournaled, and the digests its blocks were last journaled under. A page has blocks `B` of bytes
`β`, whose digests are `δ`.

A copy made for a write fault that stored nothing, and given back (`vmmemory/cold.go`), is left out,
and so is where a page's bytes are: resident, spilled, or read through from another host.
-/

namespace Sproutfs.HostJournal

/-- The digests of a page's blocks as the journal holds them: no list, an empty list, or one. -/
inductive Digests (B δ : Type) where
  /-- No entry of it since it became the region's own. -/
  | absent
  /-- An entry a replay applies may hold any bytes of it. -/
  | dropped
  | known (sums : B → δ)

/-- One page. `history n` is what it held after `n` stores, so `history version` is what it holds. -/
structure Page (B β δ : Type) where
  version : Nat := 0
  history : Nat → B → β
  /-- The region's own state, not yet its volume's. -/
  dirty : Bool := false
  /-- It shares the copy of the standing seal. -/
  held : Bool := false
  /-- A capture write-protected it. -/
  isProtected : Bool := false
  unjournaled : Bool := false
  /-- What its copy was made from: a published page, or zeros. -/
  origin : Option (B → β) := none
  digests : Digests B δ := .absent

/-- What a seal keeps of a page: its bytes, whether it is on the seal's list, and what an abandon
gives back. -/
structure Sealed (B β : Type) where
  version : Nat
  bytes : B → β
  list : Bool
  origin : Option (B → β)
  isProtected : Bool

/-- What one capture took of a page: whether it took it, and the blocks it keeps. -/
structure Part (B β : Type) where
  taken : Bool
  version : Nat
  blocks : B → Option β

namespace Page

variable {B β δ : Type}

def bytes (g : Page B β δ) : B → β := g.history g.version

/-- The guest may store into the page where it is. -/
def writable (g : Page B β δ) : Bool := g.dirty && !g.held && !g.isProtected

def noteStored (g : Page B β δ) : Page B β δ := { g with isProtected := false, unjournaled := true }

/-- A store's fault: it copies away from the seal's copy, lifts a capture's protection, or makes the
volume's page the region's own. `known` is whether the copy remembers what it was made from. -/
def trap (g : Page B β δ) (known : Bool) : Page B β δ :=
  if g.held then { g with held := false, origin := none }.noteStored
  else if g.dirty then g.noteStored
  else { g with dirty := true, origin := if known then some g.bytes else none }.noteStored

def store [DecidableEq B] (g : Page B β δ) (b : B) (x : β) : Page B β δ :=
  { g with
    version := g.version + 1
    history := Function.update g.history (g.version + 1) (Function.update g.bytes b x) }

/-- What a seal takes of the page (`takeUnjournaled`, `holdInCheckpointLocked`). -/
def taken (g : Page B β δ) : Sealed B β := ⟨g.version, g.bytes, g.unjournaled, g.origin, g.isProtected⟩

/-- The page once a seal took it. -/
def sealedPage (g : Page B β δ) : Page B β δ :=
  let g := { g with unjournaled := false, digests := if g.unjournaled then .dropped else g.digests }
  if g.dirty then { g with held := true, isProtected := false, origin := none } else g

/-- `markCaptured`: a capture took the page. -/
def markCaptured (g : Page B β δ) : Page B β δ :=
  { g with unjournaled := false, isProtected := g.isProtected || g.dirty && !g.held }

/-- `giveBackCaptured`: unjournaled again, with no digests. -/
def giveBack (g : Page B β δ) : Page B β δ := { g with unjournaled := true, digests := .dropped }

section Digest

variable (hash : β → δ)

/-- What a capture compares the page's blocks with, none where it keeps them all. `resident` is
whether what the page was copied from can still be read. -/
def previous (g : Page B β δ) (resident : Bool) : Option (B → δ) :=
  match g.digests with
  | .known sums => some sums
  | .dropped => none
  | .absent => if resident then g.origin.map fun o b => hash (o b) else none

/-- The blocks a capture keeps of the page. A page that is its volume's again is skipped. -/
def changed [DecidableEq δ] (g : Page B β δ) (resident : Bool) : B → Option β := fun b =>
  if g.dirty then
    match g.previous hash resident with
    | some sums => if sums b = hash (g.bytes b) then none else some (g.bytes b)
    | none => some (g.bytes b)
  else none

/-- `captured`: the page's digests become what the capture took. -/
def recordCaptured (g : Page B β δ) : Page B β δ :=
  if g.dirty then { g with digests := .known fun b => hash (g.bytes b) } else g

/-- What a capture takes of the page. -/
def part [DecidableEq δ] (g : Page B β δ) (take resident : Bool) : Part B β :=
  ⟨take, g.version, if take then g.changed hash resident else fun _ => none⟩

end Digest

/-- `retireFromCheckpointLocked`: a page the guest still shares with the seal is clean. It is the
volume's where the seal is published, and what its copy was made from where a settle drops it. -/
def retired (g : Page B β δ) : Page B β δ :=
  if g.held then { g with held := false, dirty := false, origin := none } else g

/-- The end of a published seal: the digests of a page on its list go, where the page is clean. -/
def published (g : Page B β δ) (list : Bool) : Page B β δ :=
  if list && !g.retired.dirty then { g.retired with digests := .absent } else g.retired

/-- `restoreFromCheckpointLocked`: a page the guest still shares with an abandoned seal is as it was
before the seal. -/
def restored (g : Page B β δ) (k : Sealed B β) : Page B β δ :=
  if g.held then { g with held := false, origin := k.origin, isProtected := k.isProtected } else g

/-- The end of an abandoned seal: a page still on its list is unjournaled again. -/
def abandoned (g : Page B β δ) (k : Sealed B β) : Page B β δ :=
  if k.list then (g.restored k).giveBack else g.restored k

end Page

end Sproutfs.HostJournal
