import Sproutfs.Lib.CasStore
import Sproutfs.Control.Record

/-!
# The calls that write a control record

`Create`, `open`, `Remove`, `Client.Pin`, `Release` and the updates of a handle
(`control/client.go`), each as the state it waits in and what it does when the store answers. A call
waits for the reply to a write, or for a read. Between two answers it runs alone, which is one
`Turn`: the state it goes on in, the write it sends and the handle it leaves.

A version's `life` stands in handles and results as history. No code reads it.
-/

namespace Sproutfs.Control

open CasStore

/-- The validator the store gives a version. -/
abbrev ETag := Nat

abbrev RecordVersion := Version Record ETag
abbrev RecordWrite := Write Record ETag

/-- One writer's hold on the record at one epoch. `writing` is its write lock. -/
structure Handle where
  epoch : Nat
  record : Record
  etag : ETag
  life : Nat
  fenced : Bool := false
  closed : Bool := false
  writing : Bool := false
  deriving DecidableEq

def newHandle (record : Record) (etag : ETag) (life : Nat) : Handle :=
  { epoch := record.epoch, record := record, etag := etag, life := life }

inductive Mutation where
  | select (sequence : Nat) (kept : Option Kept) (journals : List Journal)
  | pin (sequence : Nat)
  deriving DecidableEq

/-- The journals and the check of them, with which a selection ends. -/
def withJournals (next : Record) (journals : List Journal) : Except Error Record :=
  if { next with journals := journals }.validJournals then .ok { next with journals := journals }
  else .error .invalidConfig

def selecting (epoch sequence : Nat) (kept : Option Kept) (journals : List Journal)
    (current : Record) : Except Error Record :=
  if !validSequence epoch sequence && sequence ≠ current.selected then .error .sequence
  else if sequence < current.selected then .error .sequence
  else
    match kept with
    | none => withJournals { current with selected := sequence, created := true } journals
    | some k =>
      match current.withKept k with
      | .error e => .error e
      | .ok kept =>
        withJournals { current with selected := sequence, created := true, kept := kept } journals

def pinning (sequence : Nat) (current : Record) : Except Error Record :=
  if sequence = 0 then .error .sequence
  else
    match current.admits sequence with
    | .error e => .error e
    | .ok () => .ok { current with pinned := current.withPin sequence }

def Mutation.apply (epoch : Nat) : Mutation → Record → Except Error Record
  | .select sequence kept journals => selecting epoch sequence kept journals
  | .pin sequence => pinning sequence

/-- The arguments of `open` and the nonce it draws. -/
structure Opening where
  after : Nat
  joining : Option Journal
  nonce : Nonce
  deriving DecidableEq

inductive Result where
  | created
  | opened (o : Opening)
  | removed (v : RecordVersion)
  | pinned (sequence life : Nat)
  | released (sequence : Nat) (record : Record)
  | updated (m : Mutation) (record : Record) (life : Nat)
  | failed (e : Error)
  deriving DecidableEq

/-- Where a call is: the read or the reply it waits for, or what it returned. -/
inductive Call where
  | createPut (record : Record)
  | createRead (record : Record) (refused : Bool)
  | openRead (o : Opening)
  | openPut (o : Opening) (etag : ETag) (next : Record)
  | openReread (o : Opening) (next : Record)
  | removeRead
  | removeDelete (current : RecordVersion)
  | removeReread (current : RecordVersion)
  | pinRead (sequence : Nat)
  | pinPut (sequence wanted : Nat) (current : RecordVersion)
  | pinReread (sequence wanted : Nat) (current : Record)
  | releaseRead (sequence : Nat)
  | releasePut (sequence : Nat) (current : RecordVersion)
  | releaseReread (sequence : Nat) (current : Record)
  /-- It waits for the handle's write lock. -/
  | updateLock (h : Nat) (m : Mutation)
  | updatePut (h : Nat) (m : Mutation) (etag : ETag) (next : Record)
  | updateReread (h : Nat) (m : Mutation) (next : Record)
  | returned (r : Result)
  deriving DecidableEq

/-- A write sent to the store, and the handle it is issued through. -/
structure Request where
  via : Option Nat := none
  write : RecordWrite
  deriving DecidableEq

/-- What a call does when it is answered. -/
structure Turn where
  call : Call
  request : Option Request := none
  handle : Option (Nat × Handle) := none
  deriving DecidableEq

/-- What a call is told of its write. `ok` carries the version a put stored. -/
inductive Reply where
  | ok (after : Option RecordVersion)
  /-- The store's precondition failure. -/
  | refused
  /-- Any other error. -/
  | lost
  deriving DecidableEq

def fails (e : Error) : Turn := { call := .returned (.failed e) }

/-- `put` sends nothing for a record that cannot be marshalled. -/
def putRequest (via : Option Nat) (next : Record) (write : RecordWrite) : Option Request :=
  if next.valid then some ⟨via, write⟩ else none

/-- The record as `read` reports it. -/
def readRecord (vm : List Char) : Option RecordVersion → Except Error RecordVersion
  | none => .error .notFound
  | some v => if v.value.vm ≠ vm || !v.value.valid then .error .corrupt else .ok v

/-! ## Create and open -/

def create (vm : List Char) (selected : Nat) (published : Bool) (nonce : Nonce) : Turn :=
  if !validID vm || !validCreateSequence selected then fails .invalidConfig
  else
    let record : Record := { vm := vm, epoch := epochOf selected, nonce := nonce,
                             selected := selected, created := published }
    { call := .createPut record, request := putRequest none record (.create record) }

def createReread (id : Nat) (record : Record) (refused : Bool) :
    Except Error RecordVersion → Turn
  | .error e => fails (if refused then .vmExists else e)
  | .ok observed =>
    if observed.value.mine record.epoch record.nonce then
      { call := .returned .created
        handle := some (id, newHandle observed.value observed.tag observed.life) }
    else fails .vmExists

/-- `Open`, `OpenAfter` and `OpenMigration`, up to the first read. -/
def startOpen (vm : List Char) (o : Opening) : Turn :=
  if o.joining.any fun j => j.disk = noDisk || j.epoch ≠ 0 then fails .invalidConfig
  else if !validID vm then fails .invalidConfig
  else { call := .openRead o }

/-- The record an open writes over `current`. -/
def Opening.next (o : Opening) (current : Record) : Record :=
  { current with
    epoch := current.epoch + 1
    nonce := o.nonce
    journals := current.journals ++
      (o.joining.map fun j => { j with epoch := current.epoch + 1 }).toList }

def openRead (o : Opening) : Except Error RecordVersion → Turn
  | .error e => fails e
  | .ok current =>
    if o.after ≠ 0 && current.value.epoch ≠ o.after then fails .moved
    else if maximumEpoch ≤ current.value.epoch then fails .epochExhausted
    else if o.joining.isSome && maximumJournals ≤ current.value.journals.length then
      fails .tooManyJournals
    else
      { call := .openPut o current.tag (o.next current.value)
        request := putRequest none (o.next current.value)
          (.replace current.tag (o.next current.value)) }

def openReread (id : Nat) (o : Opening) (next : Record) : Except Error RecordVersion → Turn
  | .error _ => fails .store
  | .ok observed =>
    if observed.value.mine next.epoch o.nonce then
      { call := .returned (.opened o)
        handle := some (id, newHandle observed.value observed.tag observed.life) }
    else if next.epoch ≤ observed.value.epoch then { call := .openRead o }
    else fails .store

/-! ## Remove, pin and release -/

def removeRead : Except Error RecordVersion → Turn
  | .error e => fails e
  | .ok current =>
    { call := .removeDelete current, request := some ⟨none, .remove current.tag⟩ }

def removeReread (current : RecordVersion) : Except Error RecordVersion → Turn
  | .error .notFound => { call := .returned (.removed current) }
  | .error _ => fails .store
  | .ok observed => if observed.tag = current.tag then fails .store else { call := .removeRead }

def pinNext (sequence : Nat) (current : Record) : Record :=
  { current with pinned := current.withPin sequence }

def pinRead (sequence : Nat) : Except Error RecordVersion → Turn
  | .error e => fails e
  | .ok current =>
    let wanted := if sequence = 0 then current.value.selected else sequence
    if current.value.isPinned wanted then
      { call := .returned (.pinned wanted current.life) }
    else if (wanted ≠ current.value.selected || !current.value.created) &&
        !current.value.isKept wanted then fails .notPublished
    else
      match current.value.admits wanted with
      | .error e => fails e
      | .ok () =>
        { call := .pinPut sequence wanted current
          request := putRequest none (pinNext wanted current.value)
            (.replace current.tag (pinNext wanted current.value)) }

def pinReread (sequence wanted : Nat) (current : Record) : Except Error RecordVersion → Turn
  | .error _ => fails .store
  | .ok observed =>
    if observed.value.isPinned wanted then { call := .returned (.pinned wanted observed.life) }
    else if observed.value.equal current then fails .store
    else { call := .pinRead sequence }

def releaseNext (sequence : Nat) (current : Record) : Record :=
  { current with kept := current.withoutKept sequence }

def releaseRead (sequence : Nat) : Except Error RecordVersion → Turn
  | .error e => fails e
  | .ok current =>
    if !current.value.isKept sequence then fails .notKept
    else if current.value.isPinned sequence then fails .forked
    else
      { call := .releasePut sequence current
        request := putRequest none (releaseNext sequence current.value)
          (.replace current.tag (releaseNext sequence current.value)) }

def releaseReread (sequence : Nat) (current : Record) : Except Error RecordVersion → Turn
  | .error _ => fails .store
  | .ok observed =>
    if !observed.value.isKept sequence then
      { call := .returned (.released sequence observed.value) }
    else if observed.value.equal current then fails .store
    else { call := .releaseRead sequence }

/-! ## The updates of a handle -/

/-- The update ends and gives the write lock back. -/
def finish (h : Nat) (hd : Handle) (r : Result) : Turn :=
  { call := .returned r, handle := some (h, { hd with writing := false }) }

/-- `settle` with a record that is now durable. -/
def Handle.settle (hd : Handle) (record : Record) (etag : ETag) (life : Nat) : Handle :=
  { hd with record := record, etag := etag, life := life }

/-- `settle` with a takeover: the validator is the later writer's. -/
def Handle.fence (hd : Handle) (etag : ETag) : Handle := { hd with fenced := true, etag := etag }

/-- One round of `update`, up to the write of `replace`. -/
def update (h : Nat) (hd : Handle) (m : Mutation) : Turn :=
  if hd.fenced then finish h hd (.failed .fenced)
  else if hd.closed then finish h hd (.failed .closed)
  else
    match m.apply hd.epoch hd.record with
    | .error e => finish h hd (.failed e)
    | .ok next =>
      if next.equal hd.record then finish h hd (.updated m hd.record hd.life)
      else
        { call := .updatePut h m hd.etag next
          request := putRequest (some h) next (.replace hd.etag next)
          handle := some (h, { hd with writing := true }) }

/-- The rest of `replace`: what the record read back says of a write that was refused or lost. -/
def updateReread (h : Nat) (hd : Handle) (m : Mutation) (next : Record) :
    Except Error RecordVersion → Turn
  | .error _ => finish h hd (.failed .store)
  | .ok observed =>
    if observed.value.equal next then
      finish h (hd.settle observed.value observed.tag observed.life)
        (.updated m observed.value observed.life)
    else if observed.value.equal hd.record then
      finish h (hd.settle hd.record observed.tag observed.life) (.failed .store)
    else if observed.value.mine hd.epoch next.nonce then
      update h (hd.settle observed.value observed.tag observed.life) m
    else finish h (hd.fence observed.tag) (.failed .fenced)

/-! ## Answers -/

/-- The write a call waits for the reply to. -/
def Call.awaits : Call → Option RecordWrite
  | .createPut record => some (.create record)
  | .openPut _ etag next => some (.replace etag next)
  | .removeDelete current => some (.remove current.tag)
  | .pinPut _ wanted current => some (.replace current.tag (pinNext wanted current.value))
  | .releasePut sequence current => some (.replace current.tag (releaseNext sequence current.value))
  | .updatePut _ _ etag next => some (.replace etag next)
  | _ => none

def Call.onRead (id : Nat) (handles : Nat → Option Handle) (r : Except Error RecordVersion) :
    Call → Option Turn
  | .createRead record refused => some (createReread id record refused r)
  | .openRead o => some (Control.openRead o r)
  | .openReread o next => some (Control.openReread id o next r)
  | .removeRead => some (Control.removeRead r)
  | .removeReread current => some (Control.removeReread current r)
  | .pinRead sequence => some (Control.pinRead sequence r)
  | .pinReread sequence wanted current => some (Control.pinReread sequence wanted current r)
  | .releaseRead sequence => some (Control.releaseRead sequence r)
  | .releaseReread sequence current => some (Control.releaseReread sequence current r)
  | .updateReread h m next => (handles h).map fun hd => Control.updateReread h hd m next r
  | _ => none

def Call.onReply (id : Nat) (handles : Nat → Option Handle) : Call → Reply → Option Turn
  | .createPut record, .ok (some v) =>
    some { call := .returned .created, handle := some (id, newHandle record v.tag v.life) }
  | .createPut record, .refused => some { call := .createRead record true }
  | .createPut record, .lost => some { call := .createRead record false }
  | .openPut o _ next, .ok (some v) =>
    some { call := .returned (.opened o), handle := some (id, newHandle next v.tag v.life) }
  | .openPut o _ _, .refused => some { call := .openRead o }
  | .openPut o _ next, .lost => some { call := .openReread o next }
  | .removeDelete current, .ok none => some { call := .returned (.removed current) }
  | .removeDelete _, .refused => some { call := .removeRead }
  | .removeDelete current, .lost => some { call := .removeReread current }
  | .pinPut _ wanted _, .ok (some v) => some { call := .returned (.pinned wanted v.life) }
  | .pinPut sequence _ _, .refused => some { call := .pinRead sequence }
  | .pinPut sequence wanted current, .lost =>
    some { call := .pinReread sequence wanted current.value }
  | .releasePut sequence current, .ok (some _) =>
    some { call := .returned (.released sequence (releaseNext sequence current.value)) }
  | .releasePut sequence _, .refused => some { call := .releaseRead sequence }
  | .releasePut sequence current, .lost =>
    some { call := .releaseReread sequence current.value }
  | .updatePut h m _ next, .ok (some v) =>
    (handles h).map fun hd => finish h (hd.settle next v.tag v.life) (.updated m next v.life)
  | .updatePut h m _ next, .refused => some { call := .updateReread h m next }
  | .updatePut h m _ next, .lost => some { call := .updateReread h m next }
  | _, _ => none

end Sproutfs.Control
