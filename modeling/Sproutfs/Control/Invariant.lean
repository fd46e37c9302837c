import Sproutfs.Control.System

/-!
# What holds of a control record and its writers

`Record.Next` is the whole of what one write may do to the record it replaces. Every call derives its
write from a version it read or that its handle tracks, so every write that is sent relates so to a
version with the tag it expects, and the versions of one life are a chain of such steps.
-/

namespace Sproutfs.Control

open CasStore

/-- What a write makes of the record it replaces. -/
structure Record.Next (r r' : Record) : Prop where
  vm : r'.vm = r.vm
  valid : r'.valid
  epoch : r.epoch ≤ r'.epoch
  nonce : r'.epoch = r.epoch → r'.nonce = r.nonce
  selected : r'.selected = r.selected ∨
    (r.selected ≤ r'.selected ∧ epochOf r'.selected = r'.epoch)
  pinned : ∀ q ∈ r.pinned, q ∈ r'.pinned

/-- The record a creation writes. -/
structure Record.First (vm : List Char) (r : Record) : Prop where
  vm : r.vm = vm
  valid : r.valid
  selected : epochOf r.selected = r.epoch

/-- A mutation has nothing left to change in what it is about: the pin is there. -/
def Mutation.Done : Mutation → Record → Prop
  | .select _ _ _, _ => True
  | .pin sequence, r => sequence ∈ r.pinned

namespace System

/-- A checkpoint is pinned in a life of the record. -/
def Pinned (s : System) (sequence life : Nat) : Prop :=
  ∃ v ∈ s.store.versions, v.life = life ∧ sequence ∈ v.value.pinned

def Holds (s : System) (h epoch : Nat) : Prop := ∃ hd, s.handles h = some hd ∧ hd.epoch = epoch

/-- The later of two states of one run, as far as what was known in the earlier one goes. -/
structure Extends (s s' : System) : Prop where
  versions : ∀ v ∈ s.store.versions, v ∈ s'.store.versions
  nonces : ∀ p ∈ s.nonces, p ∈ s'.nonces
  holds : ∀ h epoch, s.Holds h epoch → s'.Holds h epoch

end System

/-- What a call is out to do. -/
inductive Family where
  | create
  | opening (o : Opening)
  | remove
  | pin
  | release (sequence : Nat)
  | update
  deriving DecidableEq

def Call.family : Call → Option Family
  | .createPut _ => some .create
  | .createRead _ _ => some .create
  | .openRead o => some (.opening o)
  | .openPut o _ _ => some (.opening o)
  | .openReread o _ => some (.opening o)
  | .removeRead => some .remove
  | .removeDelete _ => some .remove
  | .removeReread _ => some .remove
  | .pinRead _ => some .pin
  | .pinPut _ _ _ => some .pin
  | .pinReread _ _ _ => some .pin
  | .releaseRead sequence => some (.release sequence)
  | .releasePut sequence _ => some (.release sequence)
  | .releaseReread sequence _ => some (.release sequence)
  | .updateLock _ _ => some .update
  | .updatePut _ _ _ _ => some .update
  | .updateReread _ _ _ => some .update
  | .returned .created => some .create
  | .returned (.opened o) => some (.opening o)
  | .returned (.removed _) => some .remove
  | .returned (.pinned _ _) => some .pin
  | .returned (.released sequence _) => some (.release sequence)
  | .returned (.updated _ _ _) => some .update
  | .returned (.failed _) => none

/-- The errors only an open returns. -/
def Error.ofOpen : Error → Bool
  | .moved => true
  | .tooManyJournals => true
  | _ => false

/-- A call goes on as what it is, or fails with an error of its own. -/
def Turn.Stays (f : Family) (t : Turn) : Prop :=
  t.call.family = some f ∨
    ∃ e, t.call = .returned (.failed e) ∧ (e.ofOpen → ∃ o, f = .opening o)

/-- What call `id` knows where it waits, and what it returned was true of. -/
def Call.Knows (s : System) (id : Nat) : Call → Prop
  | .createPut record => (id, record.nonce) ∈ s.nonces
  | .createRead record _ => (id, record.nonce) ∈ s.nonces
  | .openRead o => (id, o.nonce) ∈ s.nonces
  | .openPut o _ next => (id, o.nonce) ∈ s.nonces ∧ next.nonce = o.nonce
  | .openReread o _ => (id, o.nonce) ∈ s.nonces
  | .removeDelete current => current ∈ s.store.versions
  | .removeReread current => current ∈ s.store.versions
  | .updatePut h m _ next => s.Holds h next.epoch ∧ (h, next.nonce) ∈ s.nonces ∧ m.Done next
  | .updateReread h m next => s.Holds h next.epoch ∧ (h, next.nonce) ∈ s.nonces ∧ m.Done next
  | .returned (.removed v) => v ∈ s.store.versions
  | .returned (.pinned sequence life) => s.Pinned sequence life
  | .returned (.updated m r life) => m.Done r ∧ ∃ v ∈ s.store.versions, v.life = life ∧ v.value = r
  | _ => True

/-- A handle numbered `h` tracks versions of its epoch and nonce. Unless it is fenced, its record and
its validator are those of one version. -/
structure Handle.Tracks (s : System) (h : Nat) (hd : Handle) : Prop where
  epoch : hd.record.epoch = hd.epoch
  nonce : (h, hd.record.nonce) ∈ s.nonces
  version : ∃ v ∈ s.store.versions, v.life = hd.life ∧ v.value = hd.record
  exact : hd.fenced = false → ⟨hd.life, hd.record, hd.etag⟩ ∈ s.store.versions

/-- The nonce a write stores is one call `id` drew, or that of the version it replaces. -/
def Authored (s : System) (id : Nat) : RecordWrite → Prop
  | .create next => (id, next.nonce) ∈ s.nonces
  | .replace etag next => (id, next.nonce) ∈ s.nonces ∨
      ∃ v ∈ s.store.versions, v.tag = etag ∧ v.value.nonce = next.nonce
  | .remove _ => True

/-- A request of call `id` obeys, and one issued through a handle expects a version of the handle's
epoch. -/
structure Request.Lawful (vm : List Char) (s : System) (id : Nat) (q : Request) : Prop where
  obeys : q.write.Obeys (Record.First vm) Record.Next s.store
  authored : Authored s id q.write
  via : ∀ h, q.via = some h → ∃ etag next, q.write = .replace etag next ∧
    ∃ v ∈ s.store.versions, v.tag = etag ∧ s.Holds h v.value.epoch

def stores : RecordWrite → Option Record
  | .create next => some next
  | .replace _ next => some next
  | .remove _ => none

/-- A landing's version is of the history, and holds what its request wrote. -/
structure Landing.Stored (s : System) (l : Landing) : Prop where
  sent : (l.call, l.request) ∈ s.sent
  after : ∀ v, l.after = some v → v ∈ s.store.versions ∧ stores l.request.write = some v.value

/-- The writes of one call that took effect. -/
def System.landed (s : System) (id : Nat) : List Landing := s.landings.filter (·.call = id)

/-- Every write of call `id` puts, in place of a version, a record that relates to it by `P`. -/
structure System.Derives (s : System) (id : Nat) (P : Record → Record → Prop) : Prop where
  sent : ∀ p ∈ s.sent, p.1 = id →
    ∃ u ∈ s.store.versions, ∃ next, p.2.write = .replace u.tag next ∧ P u.value next
  landed : ∀ l ∈ s.landed id, ∃ b v, l.before = some b ∧ l.after = some v ∧ P b.value v.value

structure Inv (vm : List Char) (s : System) : Prop where
  store : Sound (Record.First vm) Record.Next s.store
  sent : ∀ p ∈ s.sent, p.2.Lawful vm s p.1
  started : ∀ p ∈ s.sent, s.calls p.1 ≠ none
  landings : ∀ l ∈ s.landings, l.Stored s
  /-- The nonce of a version came with a write of the call that drew it. -/
  authors : ∀ v ∈ s.store.versions, ∃ l ∈ s.landings, (l.call, v.value.nonce) ∈ s.nonces
  calls : ∀ id c, s.calls id = some c → c.Knows s id
  handles : ∀ h hd, s.handles h = some hd → hd.Tracks s h
  /-- A handle's call has returned. -/
  returned : ∀ h hd, s.handles h = some hd → ∃ r, s.calls h = some (.returned r)
  /-- A call draws one nonce, and no two calls the same. -/
  nonces : ∀ p ∈ s.nonces, ∀ p' ∈ s.nonces, p.1 = p'.1 ↔ p.2 = p'.2

/-- A turn that keeps the invariant. -/
structure Turn.Lawful (vm : List Char) (s : System) (id : Nat) (t : Turn) : Prop where
  call : t.call.Knows s id
  request : ∀ q, t.request = some q → q.Lawful vm s id
  handle : ∀ h hd, t.handle = some (h, hd) → hd.Tracks s h ∧
    (s.Holds h hd.epoch ∨ (h = id ∧ ∃ r, t.call = .returned r))

end Sproutfs.Control
