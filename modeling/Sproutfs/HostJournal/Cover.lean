import Sproutfs.Control.Record
import Sproutfs.Lib.Machine

/-!
# What a checkpoint covers of a host's journal

`host/journal.go`: one VM on one host, whose flushes are captured into the commits of the journal
disk the host has open, and whose checkpoints name that journal at the position their pause covered.
The host counts captures and placements and remembers the highest position any placed capture was
given; the journal assigns positions, fails batches, and is closed and opened again
(`host/journaldisks.go`).

The journal's writer forms one batch at a time, captures its commits, places them, runs their
`Placed` hooks in order, and answers them, all before the next batch. One journal disk is open at a
time. A commit of another VM is seen here only in the positions it takes.
-/

namespace Sproutfs.HostJournal

/-! ## The state -/

/-- A journal disk's identity and the generation it was formatted under. -/
structure Ident where
  disk : Control.Disk
  generation : Nat
  deriving DecidableEq

/-- The journal the host writes. `next` is the next position it gives out; `checked` is whether some
flush found the record naming it (`mayJournal`) since it was opened. -/
structure Opened where
  journal : Ident
  next : Nat
  checked : Bool := false

/-- An entry of the VM: the journal and position it was given, and which capture made it, counted
from one. -/
structure Entry where
  journal : Ident
  position : Nat
  capture : Nat
  deriving DecidableEq

/-- The batch the journal's writer is at. -/
inductive Batch where
  /-- Captures of the VM taken so far. -/
  | forming (captured : Nat)
  /-- The positions of the commits whose `Placed` hook is still to run, and the entries of those
  whose hook has run. -/
  | placed (left : List (List Nat)) (told : List Entry)

/-- `cover`: what one checkpoint covers. `token` is set by its pause, `covered` once resolved.
`ended` is a checkpoint that was selected or given up. -/
structure Cover where
  journal : Ident
  token : Option Nat := none
  covered : Option Nat := none
  earlier : Bool := false
  ended : Bool := false

/-- A selection: how many captures had begun at its checkpoint's pause, and the journals it wrote. -/
structure Selection where
  token : Nat
  journals : List Control.Journal
  deriving DecidableEq

/-- `vmJournal`, the journal it is written to, and the VM's record. `covers` holds every cover ever
made and `waiting` those whose pause waits for captures to be placed. `given`, `answered` and
`selections` are history: the entries given a position, those of them whose flush was answered, and
what was selected. -/
structure State where
  epoch : Nat
  journals : List Control.Journal
  postCopy : Bool
  current : Option Opened := none
  batch : Option Batch := none
  captures : Nat := 0
  placed : Nat := 0
  last : Nat := 0
  waiting : List Nat := []
  covers : Nat → Option Cover := fun _ => none
  given : List Entry := []
  answered : List Entry := []
  selections : List Selection := []

/-- A VM that has just come to the host: its record names only journals of epochs before its own. -/
def State.Fresh (s : State) : Prop :=
  (∀ n ∈ s.journals, n.epoch < s.epoch) ∧
    s = { epoch := s.epoch, journals := s.journals, postCopy := s.postCopy }

/-! ## The steps -/

def ident (n : Control.Journal) : Ident := ⟨n.disk, n.generation⟩

/-- The record names `j` at `epoch`. -/
def names (journals : List Control.Journal) (j : Ident) (epoch : Nat) : Bool :=
  journals.any fun n => ident n = j && n.epoch = epoch

/-- Positions a batch gives its commits: from `next` on, growing, and below where the next batch
begins. -/
def Fits (next : Nat) (positions : List (List Nat)) (next' : Nat) : Prop :=
  next ≤ next' ∧ positions.flatten.Pairwise (· < ·) ∧ ∀ p ∈ positions.flatten, next ≤ p ∧ p < next'

instance (next : Nat) (positions : List (List Nat)) (next' : Nat) :
    Decidable (Fits next positions next') :=
  inferInstanceAs (Decidable (_ ∧ _ ∧ _))

/-- `resolve`: the position is recorded once. -/
def Cover.resolve (c : Cover) (position : Nat) : Cover :=
  { c with covered := some (c.covered.getD position) }

/-- `Journals`: the list the checkpoint's selection writes. -/
def Cover.journals (c : Cover) (epoch : Nat) (named : List Control.Journal) (covered : Nat) :
    List Control.Journal :=
  (if c.earlier then named.filter fun n => n.epoch < epoch else []) ++
    [⟨c.journal.disk, c.journal.generation, epoch, covered⟩]

namespace State

/-- `SetJournal` with a journal whose reading back ended at `head`. -/
def opens (s : State) (j : Ident) (head : Nat) : Option State :=
  match s.current with
  | none => some { s with current := some ⟨j, head, false⟩ }
  | some _ => none

/-- The journal is closed, once its writer is between two batches. Commits still queued fail. -/
def closes (s : State) : Option State :=
  match s.current, s.batch with
  | some _, none => some { s with current := none }
  | _, _ => none

/-- `mayJournal` lets a flush through. -/
def checks (s : State) : Option State :=
  s.current.bind fun o =>
    if !s.postCopy && names s.journals o.journal s.epoch then
      some { s with current := some { o with checked := true } }
    else none

/-- The writer takes a flush's commit into the batch it forms and captures it. -/
def captured (s : State) : Option State :=
  match s.current, s.batch with
  | some o, none =>
    if o.checked then some { s with captures := s.captures + 1, batch := some (.forming 1) } else none
  | some o, some (.forming n) =>
    if o.checked then some { s with captures := s.captures + 1, batch := some (.forming (n + 1)) }
    else none
  | _, _ => none

/-- The batch gets its positions, one list for each commit, none for one that is refused. -/
def places (s : State) (positions : List (List Nat)) (next : Nat) : Option State :=
  match s.current, s.batch with
  | some o, some (.forming n) =>
    if positions.length = n ∧ Fits o.next positions next then
      some { s with current := some { o with next := next }, batch := some (.placed positions []) }
    else none
  | _, _ => none

/-- `placedOne`: the journal placed the next capture, at `positions`. -/
def placedOne (s : State) (o : Opened) (positions : List Nat) : State :=
  let last := positions.foldl max s.last
  let resolved := s.waiting.filter fun i => (s.covers i).any fun c => c.token.any (· ≤ s.placed + 1)
  { s with
    placed := s.placed + 1
    last := last
    waiting := s.waiting.filter (· ∉ resolved)
    covers := fun i => if i ∈ resolved then (s.covers i).map (·.resolve last) else s.covers i
    given := s.given ++ positions.map fun p => ⟨o.journal, p, s.placed + 1⟩ }

/-- The `Placed` hook of the next commit of the batch runs. -/
def tells (s : State) : Option State :=
  match s.current, s.batch with
  | some o, some (.placed (positions :: left) told) =>
    some { s.placedOne o positions with
      batch := some (.placed left (told ++ positions.map fun p => ⟨o.journal, p, s.placed + 1⟩)) }
  | _, _ => none

/-- The batch ends: written and synced, or failed. -/
def completes (s : State) (ok : Bool) : Option State :=
  match s.batch with
  | some (.placed [] told) =>
    some { s with batch := none, answered := s.answered ++ if ok then told else [] }
  | _ => none

/-- `coverOf`: a checkpoint is about to be taken. -/
def coverOf (s : State) (i : Nat) : Option State :=
  match s.current, s.covers i with
  | some o, none => some { s with covers := Function.update s.covers i (some { journal := o.journal }) }
  | _, _ => none

/-- `paused`: the end of the checkpoint's pause. -/
def paused (s : State) (i : Nat) : Option State :=
  (s.covers i).bind fun c =>
    if c.token.isNone && !c.ended then
      let c := { c with token := some s.captures, earlier := s.postCopy }
      if s.captures ≤ s.placed then
        some { s with covers := Function.update s.covers i (some (c.resolve s.last)) }
      else
        some { s with covers := Function.update s.covers i (some c), waiting := s.waiting ++ [i] }
    else none

/-- The selection of the checkpoint writes the journals it names. -/
def selects (s : State) (i : Nat) : Option State :=
  (s.covers i).bind fun c =>
    match c.ended, c.token, c.covered with
    | false, some token, some covered =>
      some { s with
        journals := c.journals s.epoch s.journals covered
        selections := s.selections ++ [⟨token, c.journals s.epoch s.journals covered⟩]
        covers := Function.update s.covers i (some { c with ended := true }) }
    | _, _, _ => none

/-- The checkpoint is not selected. A pause that waits still waits. -/
def givesUp (s : State) (i : Nat) : Option State :=
  (s.covers i).bind fun c =>
    if c.ended then none
    else some { s with covers := Function.update s.covers i (some { c with ended := true }) }

end State

inductive Action where
  | opens (j : Ident) (head : Nat)
  | closes
  | checks
  | captured
  | places (positions : List (List Nat)) (next : Nat)
  | tells
  | completes (ok : Bool)
  | coverOf (i : Nat)
  | paused (i : Nat)
  | selects (i : Nat)
  | givesUp (i : Nat)
  /-- The VM's post-copy ends. -/
  | copied

def State.step (s : State) : Action → Option State
  | .opens j head => s.opens j head
  | .closes => s.closes
  | .checks => s.checks
  | .captured => s.captured
  | .places positions next => s.places positions next
  | .tells => s.tells
  | .completes ok => s.completes ok
  | .coverOf i => s.coverOf i
  | .paused i => s.paused i
  | .selects i => s.selects i
  | .givesUp i => s.givesUp i
  | .copied => some { s with postCopy := false }

/-! ## What a replay reads -/

/-- A recovery from a record that names `journals` replays the entry, and a trim to it keeps it: its
journal is named at its epoch, below its position. -/
def replayed (journals : List Control.Journal) (epoch : Nat) (e : Entry) : Bool :=
  journals.any fun n => ident n = e.journal && n.epoch = epoch && n.covered < e.position

/-- The journal a host opens begins above the highest position the host remembers, and is the one
every checkpoint under way names. -/
def State.Above (s : State) : Action → Prop
  | .opens j head =>
    s.last < head ∧ ∀ i c, s.covers i = some c → c.ended = false → c.journal = j
  | _ => True

end Sproutfs.HostJournal
