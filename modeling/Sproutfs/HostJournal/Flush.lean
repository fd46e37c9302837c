import Sproutfs.HostJournal.Pages
import Sproutfs.Lib.Machine
import Sproutfs.Lib.Overlay

/-!
# Flushes of one durable disk

A guest's stores to one disk, its flushes, the captures and batches that make them durable, and the
seals and publications beside them (`host/journal.go`, `vmmemory/journal.go`,
`vmmemory/checkpoint.go`).

A flush chooses its pages in three reads under two locks: the standing checkpoint, the unjournaled
pages with that checkpoint's list, and the pages in flight. A capture holds the VM's journal lock and
the region exclusively, from taking its pages to reading them. The journal's writer captures the
commits of one batch, writes it, and ends it before the next.

Entries are known by the capture that made them, which is the order of their positions; `covered` of
a checkpoint is the number of captures its pause covered (`Cover.lean`, for one opening of the
journal). A write that failed may still be on the disk until the next batch pads over it. A recovery
on another host, and the fence it puts on the VM's commits, is left out.
-/

namespace Sproutfs.HostJournal

/-! ## The state -/

structure Commit (P B β : Type) where
  ordinal : Nat
  part : P → Part B β

/-- A checkpoint a recovery starts from: its bytes, and how many captures it covers. -/
structure Base (P B β : Type) where
  bytes : P → B → β
  covered : Nat

inductive SealStage where
  /-- The list is taken and the region does not hold the checkpoint yet. -/
  | taking
  /-- The region holds the checkpoint; the guest is still paused. -/
  | recorded
  /-- The pause ended after this many captures. -/
  | paused (covered : Nat)
  deriving DecidableEq

structure Seal (P B β : Type) where
  number : Nat
  part : P → Sealed B β
  stage : SealStage := .taking
  selected : Bool := false
  /-- Its pages are being given back. -/
  ending : Bool := false

/-- A page a capture took that the guest does not share with the seal leaves the seal's list. -/
def Seal.strike {P B β δ : Type} (k : Seal P B β) (pages : P → Page B β δ) (taken : P → Bool) :
    Seal P B β :=
  { k with part := fun p => { k.part p with list := (k.part p).list && !(taken p && !(pages p).held) } }

inductive FlushStage (P B β : Type) where
  /-- It has arrived, and may wait until it can be journaled. -/
  | waiting
  /-- It has read which checkpoint the region holds. -/
  | peeked (seen : Option Nat)
  /-- It has read the unjournaled pages. -/
  | looked (pages : P → Bool)
  /-- It has added the pages in flight. -/
  | chosen (pages : P → Bool)
  /-- Its capture has taken these pages. -/
  | taking (pages : P → Bool)
  | captured (c : Commit P B β)
  | landed (c : Commit P B β)
  | lost (c : Commit P B β)
  | answered
  | failed

/-- A flush. `began` is how often each page had been stored to when it arrived. -/
structure Flush (P B β : Type) where
  began : P → Nat
  stage : FlushStage P B β := .waiting

/-- The commit whose pages the flush holds in flight. -/
def Flush.holds {P B β : Type} (f : Flush P B β) : Option (Commit P B β) :=
  match f.stage with
  | .captured c | .landed c | .lost c => some c
  | _ => none

def Flush.land {P B β : Type} (f : Flush P B β) : Flush P B β :=
  match f.stage with
  | .captured c => { f with stage := .landed c }
  | _ => f

def Flush.lose {P B β : Type} (f : Flush P B β) : Flush P B β :=
  match f.stage with
  | .captured c => { f with stage := .lost c }
  | _ => f

/-- `sealCount` counts the seals. `capturing` is the flush whose capture is under way. `synced` is what the
journal holds for certain, `tail` what failed since the last batch that did not, and `batch` the
commits of the batch in flight, which is `writing` once its last commit is captured. `selections` is
history: how often each page had been stored to at each selected checkpoint's pause. -/
structure Disk (P B β δ : Type) where
  pages : P → Page B β δ
  standing : Option (Seal P B β) := none
  sealCount : Nat := 0
  sel : Base P B β
  selections : List (P → Nat)
  captures : Nat := 0
  capturing : Option Nat := none
  writing : Bool := false
  synced : List (Commit P B β) := []
  tail : List (Commit P B β) := []
  batch : List (Commit P B β) := []
  flushes : List (Flush P B β) := []

variable {P B β δ : Type}

/-- A disk just opened on a checkpoint that holds `bytes`. -/
def Disk.opened (bytes : P → B → β) : Disk P B β δ :=
  { pages := fun p => { history := fun _ => bytes p }, sel := ⟨bytes, 0⟩, selections := [fun _ => 0] }

/-! ## The steps -/

namespace Disk

def setFlush (s : Disk P B β δ) (i : Nat) (began : P → Nat) (stage : FlushStage P B β) : Disk P B β δ :=
  { s with flushes := s.flushes.set i ⟨began, stage⟩ }

def guestRuns (s : Disk P B β δ) : Bool :=
  match s.standing with
  | none => true
  | some k => match k.stage with
    | .paused _ => true
    | _ => false

/-- A page is on the standing seal's list. -/
def listed (s : Disk P B β δ) (p : P) : Bool := s.standing.any fun k => (k.part p).list

/-- `held[page]` of the VM's journal state: some flush holds the page in flight. -/
def inflight (s : Disk P B β δ) (p : P) : Bool :=
  s.flushes.any fun f => f.holds.any fun c => (c.part p).taken

def setPage [DecidableEq P] (s : Disk P B β δ) (p : P) (g : Page B β δ) : Disk P B β δ :=
  { s with pages := Function.update s.pages p g }

/-- A fault of the guest makes a page writable. It needs the region. -/
def traps [DecidableEq P] (s : Disk P B β δ) (p : P) (known : Bool) : Option (Disk P B β δ) :=
  if s.guestRuns && s.capturing.isNone && !(s.pages p).writable then
    some (s.setPage p ((s.pages p).trap known))
  else none

def stores [DecidableEq P] [DecidableEq B] (s : Disk P B β δ) (p : P) (b : B) (x : β) :
    Option (Disk P B β δ) :=
  if s.guestRuns && (s.pages p).writable then some (s.setPage p ((s.pages p).store b x)) else none

def arrives (s : Disk P B β δ) : Option (Disk P B β δ) :=
  some { s with flushes := s.flushes ++ [{ began := fun p => (s.pages p).version }] }

/-- `Unjournaled` reads the region's checkpoint. -/
def peeks (s : Disk P B β δ) (i : Nat) : Option (Disk P B β δ) :=
  s.flushes[i]?.bind fun f =>
    match f.stage with
    | .waiting =>
      some (s.setFlush i f.began
        (.peeked (s.standing.bind fun k => if k.stage = .taking then none else some k.number)))
    | _ => none

/-- `Unjournaled` reads the unjournaled pages and the list of the checkpoint it read, which is empty
once that checkpoint has ended. -/
def looks (s : Disk P B β δ) (i : Nat) : Option (Disk P B β δ) :=
  s.flushes[i]?.bind fun f =>
    match f.stage with
    | .peeked seen =>
      some (s.setFlush i f.began (.looked fun p => (s.pages p).unjournaled ||
        (s.standing.any fun k => some k.number = seen && (k.part p).list)))
    | _ => none

/-- `pending` adds the pages in flight, under the VM's journal lock. -/
def chooses (s : Disk P B β δ) (i : Nat) : Option (Disk P B β δ) :=
  s.flushes[i]?.bind fun f =>
    match f.stage, s.capturing with
    | .looked pages, none => some (s.setFlush i f.began (.chosen fun p => pages p || s.inflight p))
    | _, _ => none

/-- The flush fails before its capture took anything. -/
def refuses (s : Disk P B β δ) (i : Nat) : Option (Disk P B β δ) :=
  s.flushes[i]?.bind fun f =>
    match f.stage with
    | .waiting | .peeked _ | .looked _ | .chosen _ => some (s.setFlush i f.began .failed)
    | _ => none

/-- The region is not held by a seal being taken. -/
def regionFree (s : Disk P B β δ) : Bool := s.capturing.isNone && s.standing.all fun k => k.stage ≠ .taking

/-- `takeForCapture`: the pages of those asked that are unjournaled or on the standing seal's list. -/
def takeForCapture (s : Disk P B β δ) (asked : P → Bool) : P → Bool := fun p =>
  asked p && ((s.pages p).unjournaled || s.listed p)

/-- `protectForCapture` and `markCaptured`. -/
def capture (s : Disk P B β δ) (i : Nat) (began : P → Nat) (taken : P → Bool) : Disk P B β δ :=
  { s.setFlush i began (.taking taken) with
    captures := s.captures + 1
    capturing := some i
    pages := fun p => if taken p then (s.pages p).markCaptured else s.pages p }

/-- The writer captures the flush's commit into the batch it forms. -/
def takes (s : Disk P B β δ) (i : Nat) : Option (Disk P B β δ) :=
  s.flushes[i]?.bind fun f =>
    match f.stage with
    | .chosen pages =>
      if s.regionFree && !s.writing then some (s.capture i f.began (s.takeForCapture pages)) else none
    | _ => none

section Read

variable [DecidableEq δ] (hash : β → δ)

/-- The commit of the capture under way. -/
def readCommit (s : Disk P B β δ) (taken resident : P → Bool) : Commit P B β :=
  ⟨s.captures, fun p => (s.pages p).part hash (taken p) (resident p)⟩

/-- `readCaptured` and `captured`: the pages are read and the changed blocks kept. -/
def readCaptured (s : Disk P B β δ) (i : Nat) (began : P → Nat) (taken resident : P → Bool) :
    Disk P B β δ :=
  { s.setFlush i began (.captured (s.readCommit hash taken resident)) with
    capturing := none
    batch := s.batch ++ [s.readCommit hash taken resident]
    standing := s.standing.map fun k => k.strike s.pages taken
    pages := fun p => if taken p then (s.pages p).recordCaptured hash else s.pages p }

def reads (s : Disk P B β δ) (i : Nat) (resident : P → Bool) : Option (Disk P B β δ) :=
  s.flushes[i]?.bind fun f =>
    match f.stage with
    | .taking taken => some (s.readCaptured hash i f.began taken resident)
    | _ => none

end Read

/-- A read of the capture fails, and its pages are unjournaled again. -/
def giveBackCaptured (s : Disk P B β δ) (i : Nat) (began : P → Nat) (taken : P → Bool) : Disk P B β δ :=
  { s.setFlush i began .failed with
    capturing := none
    pages := fun p => if taken p then (s.pages p).giveBack else s.pages p }

def readFails (s : Disk P B β δ) (i : Nat) : Option (Disk P B β δ) :=
  s.flushes[i]?.bind fun f =>
    match f.stage with
    | .taking taken => some (s.giveBackCaptured i f.began taken)
    | _ => none

/-- The batch has its last commit and is written. -/
def writes (s : Disk P B β δ) : Option (Disk P B β δ) :=
  if s.capturing.isNone && !s.writing then some { s with writing := true } else none

/-- The batch is synced, with pads over whatever failed before it. -/
def lands (s : Disk P B β δ) : Option (Disk P B β δ) :=
  if s.writing then
    some { s with
      writing := false
      synced := s.synced ++ s.batch
      tail := []
      batch := []
      flushes := s.flushes.map Flush.land }
  else none

/-- The batch's write or sync fails: its commits give their pages back. -/
def fails (s : Disk P B β δ) : Option (Disk P B β δ) :=
  if s.writing then
    some { s with
      writing := false
      tail := s.tail ++ s.batch
      batch := []
      flushes := s.flushes.map Flush.lose
      pages := fun p => if s.batch.any fun c => (c.part p).taken then (s.pages p).giveBack else s.pages p }
  else none

/-- `release`, and the flush is answered. -/
def releases (s : Disk P B β δ) (i : Nat) : Option (Disk P B β δ) :=
  s.flushes[i]?.bind fun f =>
    match f.stage with
    | .landed _ => some (s.setFlush i f.began .answered)
    | .lost _ => some (s.setFlush i f.began .failed)
    | _ => none

/-- `Seal`, up to the region's recording the checkpoint. -/
def seals (s : Disk P B β δ) : Option (Disk P B β δ) :=
  match s.standing, s.capturing with
  | none, none =>
    some { s with
      standing := some { number := s.sealCount, part := fun p => (s.pages p).taken }
      sealCount := s.sealCount + 1
      pages := fun p => (s.pages p).sealedPage }
  | _, _ => none

def setStage (s : Disk P B β δ) (k : Seal P B β) (stage : SealStage) : Disk P B β δ :=
  { s with standing := some { k with stage := stage } }

/-- `setCheckpoint`. -/
def records (s : Disk P B β δ) : Option (Disk P B β δ) :=
  s.standing.bind fun k => if k.stage = .taking then some (s.setStage k .recorded) else none

/-- `paused`: the pause ends. -/
def pauses (s : Disk P B β δ) : Option (Disk P B β δ) :=
  match s.standing, s.capturing with
  | some k, none => if k.stage = .recorded then some (s.setStage k (.paused s.captures)) else none
  | _, _ => none

/-- `Settle` drops a page from the checkpoint whose bytes are those its copy was made from. -/
def settles [DecidableEq P] [DecidableEq (B → β)] (s : Disk P B β δ) (p : P) : Option (Disk P B β δ) :=
  s.standing.bind fun k =>
    if s.regionFree && !k.selected && !k.ending && (s.pages p).held &&
        (k.part p).origin = some (k.part p).bytes then
      some (s.setPage p (s.pages p).retired)
    else none

def selects (s : Disk P B β δ) : Option (Disk P B β δ) :=
  s.standing.bind fun k =>
    match k.stage, k.selected || k.ending with
    | .paused covered, false =>
      some { s with
        sel := ⟨fun p => (k.part p).bytes, covered⟩
        selections := s.selections ++ [fun p => (k.part p).version]
        standing := some { k with selected := true } }
    | _, _ => none

/-- `finalizeCheckpoint` of one page. -/
def finalizes [DecidableEq P] (s : Disk P B β δ) (p : P) : Option (Disk P B β δ) :=
  s.standing.bind fun k =>
    if s.regionFree && k.selected then some (s.setPage p (s.pages p).retired) else none

/-- The published seal ends, with whatever pages it still held. -/
def retires (s : Disk P B β δ) : Option (Disk P B β δ) :=
  s.standing.bind fun k =>
    if s.regionFree && k.selected then
      some { s with standing := none, pages := fun p => (s.pages p).published (k.part p).list }
    else none

/-- `abandonCopies` of one page. -/
def restores [DecidableEq P] (s : Disk P B β δ) (p : P) : Option (Disk P B β δ) :=
  s.standing.bind fun k =>
    if s.regionFree && !k.selected then
      some { s.setPage p ((s.pages p).restored (k.part p)) with standing := some { k with ending := true } }
    else none

/-- The abandoned seal ends, with whatever pages it still held. -/
def abandons (s : Disk P B β δ) : Option (Disk P B β δ) :=
  s.standing.bind fun k =>
    if s.regionFree && !k.selected then
      some { s with standing := none, pages := fun p => (s.pages p).abandoned (k.part p) }
    else none

end Disk

inductive FlushAction (P B β : Type) where
  | traps (p : P) (known : Bool)
  | stores (p : P) (b : B) (x : β)
  | arrives
  | peeks (i : Nat)
  | looks (i : Nat)
  | chooses (i : Nat)
  | refuses (i : Nat)
  | takes (i : Nat)
  | reads (i : Nat) (resident : P → Bool)
  | readFails (i : Nat)
  | writes
  | lands
  | fails
  | releases (i : Nat)
  | seals
  | records
  | pauses
  | settles (p : P)
  | selects
  | finalizes (p : P)
  | retires
  | restores (p : P)
  | abandons

def Disk.step [DecidableEq P] [DecidableEq B] [DecidableEq δ] [DecidableEq (B → β)] (hash : β → δ)
    (s : Disk P B β δ) : FlushAction P B β → Option (Disk P B β δ)
  | .traps p known => s.traps p known
  | .stores p b x => s.stores p b x
  | .arrives => s.arrives
  | .peeks i => s.peeks i
  | .looks i => s.looks i
  | .chooses i => s.chooses i
  | .refuses i => s.refuses i
  | .takes i => s.takes i
  | .reads i resident => s.reads hash i resident
  | .readFails i => s.readFails i
  | .writes => s.writes
  | .lands => s.lands
  | .fails => s.fails
  | .releases i => s.releases i
  | .seals => s.seals
  | .records => s.records
  | .pauses => s.pauses
  | .settles p => s.settles p
  | .selects => s.selects
  | .finalizes p => s.finalizes p
  | .retires => s.retires
  | .restores p => s.restores p
  | .abandons => s.abandons

/-! ## What a crash leaves -/

namespace Disk

/-- A page was stored to `v` times or more when some commit that landed took it, or when a checkpoint
that was selected was paused. -/
def Durable (s : Disk P B β δ) (p : P) (v : Nat) : Prop :=
  (∃ c ∈ s.synced, (c.part p).taken ∧ v ≤ (c.part p).version) ∨ ∃ k ∈ s.selections, v ≤ k p

end Disk

/-- The replay of entries over a checkpoint, as one page reads it: those after the covered ones, in
order. -/
def Base.replay (base : Base P B β) (l : List (Commit P B β)) (p : P) : B → β :=
  Overlay.replay (base.bytes p)
    ((l.filter fun c => base.covered < c.ordinal).map fun c => (c.part p).blocks)

/-! ## Conditions on runs -/

/-- No flush is between its read of the unjournaled pages and its read of those in flight. -/
def Disk.NoneLooked (s : Disk P B β δ) : Prop := ∀ f ∈ s.flushes, ∀ pages, f.stage ≠ .looked pages

/-- While a flush chooses its pages, no seal takes the unjournaled ones, no failed capture gives pages
back, and no failed commit's pages leave those in flight. -/
def Disk.Calm (s : Disk P B β δ) : FlushAction P B β → Prop
  | .peeks _ => ∀ k, s.standing = some k → k.stage ≠ .taking
  | .seals => ∀ f ∈ s.flushes, ∀ seen, f.stage ≠ .peeked seen
  | .readFails _ => s.NoneLooked
  | .releases i => (∃ f c, s.flushes[i]? = some f ∧ f.stage = .lost c) → s.NoneLooked
  | _ => True

/-- A page a settle drops has no entry that a replay over the selected checkpoint applies. -/
def Disk.Unwritten (s : Disk P B β δ) : FlushAction P B β → Prop
  | .settles p => ∀ c ∈ s.synced ++ s.tail ++ s.batch, s.sel.covered < c.ordinal →
      ∀ b, (c.part p).blocks b = none
  | _ => True

end Sproutfs.HostJournal
