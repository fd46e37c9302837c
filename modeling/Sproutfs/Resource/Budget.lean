import Mathlib.Algebra.BigOperators.Group.Finset.Basic
import Mathlib.Algebra.Order.Ring.Int
import Sproutfs.Lib.Machine

/-!
# The memory budget of a host

`Budget` and `Lease` of `resource/budget.go` and the reclaim of `resource/cache_reclaim.go`. A call of
`TryAcquire`, `Acquire`, `TryAcquireCache` or `TryGrow` goes from one point where other calls may come
between to the next: a check of its context, a section under the budget's lock, an eviction by a cache,
the wait for a grant. The lease an acquire makes goes by the number of its call.

A cache's evictor runs without the lock; what it closes and releases are steps of their own, and only
whether it evicted is read. Left out: the channels that announce changed capacity and pressure, and the
text of an evictor's error, which joins the refusal it comes with.
-/

namespace Sproutfs.Resource.Memory

structure Lease where
  amount : Int
  closed : Bool := false
  deriving DecidableEq

structure Waiter where
  call : Nat
  amount : Int
  deriving DecidableEq

inductive Task where
  | tryAcquire (amount : Int)
  | acquire (amount : Int)
  | tryAcquireCache (amount : Int)
  | tryGrow (lease : Nat) (extra : Int)
  deriving DecidableEq

def Task.amount : Task → Int
  | .tryAcquire n | .acquire n | .tryAcquireCache n | .tryGrow _ n => n

/-- The call makes a lease. -/
def Task.Leases : Task → Prop
  | .tryAcquire _ | .acquire _ | .tryAcquireCache _ => True
  | .tryGrow _ _ => False

instance : DecidablePred Task.Leases
  | .tryAcquire _ | .acquire _ | .tryAcquireCache _ => .isTrue trivial
  | .tryGrow _ _ => .isFalse not_false

inductive Result where
  | ok
  | errInvalid
  | errCapacity
  | errClosed
  /-- The cause of the context's end. -/
  | cancelled
  deriving DecidableEq

/-- The loop of `withCacheReclaim`: the caches it read, those left of this round, whether one of the
round evicted, and whether the next attempt is the last. -/
structure Reclaim where
  caches : List Nat
  todo : List Nat
  progress : Bool := false
  last : Bool := false
  deriving DecidableEq

inductive Phase where
  /-- An attempt, before its check of the context, and past it. -/
  | check (r : Option Reclaim)
  | attempt (r : Option Reclaim)
  /-- `withCacheReclaim` goes on past a refusal. -/
  | count
  | evict (r : Reclaim)
  /-- Its deferred end. -/
  | uncount (res : Result)
  /-- `Acquire` past the refusal of `TryAcquire`: its check, and its section under the lock. -/
  | recheck
  | enqueue
  | select
  /-- A grant crossed the cancellation, and the lease is to be closed. -/
  | giveBack
  | done (res : Result)
  deriving DecidableEq

structure Call where
  task : Task
  phase : Phase
  /-- The call of `Acquire` made its waiter. -/
  queued : Bool := false
  deriving DecidableEq

structure Budget where
  limit : Int
  used : Int := 0
  queue : List Waiter := []
  caches : List Nat := []
  reclaiming : Nat := 0
  next : Nat := 0
  calls : Nat → Option Call := fun _ => none
  leases : Nat → Option Lease := fun _ => none
  cancelled : Nat → Bool := fun _ => false
  /-- The waiters whose channel was closed, in that order. -/
  granted : List Nat := []
  /-- History: the order in which waiters queued. -/
  ticket : Nat → Nat := fun _ => 0
  tickets : Nat := 0

/-- What a lease has charged. -/
def charge : Option Lease → Int
  | some l => l.amount
  | none => 0

namespace Budget

variable (s : Budget)

/-- `fitsLocked`. -/
def Fits (amount : Int) : Prop := amount ≤ s.limit - s.used

instance (amount : Int) : Decidable (s.Fits amount) := inferInstanceAs (Decidable (_ ≤ _))

def setPhase (i : Nat) (c : Call) (p : Phase) : Budget :=
  { s with calls := Function.update s.calls i (some { c with phase := p }) }

/-- A lease of a call, charged. -/
def lend (i : Nat) (amount : Int) : Budget :=
  { s with used := s.used + amount, leases := Function.update s.leases i (some { amount }) }

/-- One turn of `grantLocked`. -/
def grantTo (w : Waiter) (rest : List Waiter) : Budget :=
  { s.lend w.call w.amount with queue := rest, granted := s.granted ++ [w.call] }

def grantLoop : Nat → Budget → Budget
  | 0, s => s
  | n + 1, s => match s.queue with
    | [] => s
    | w :: rest => if s.Fits w.amount then grantLoop n (s.grantTo w rest) else s

def grantLocked : Budget := grantLoop s.queue.length s

/-- `withCacheReclaim` returned. -/
def finish (c : Call) (res : Result) : Phase :=
  if c.queued then .select
  else match c.task, res with
    | .acquire _, .errCapacity => .recheck
    | _, res => .done res

/-- An attempt returned. A cache's own acquire makes one and reclaims nothing. -/
def afterAttempt (c : Call) (r : Option Reclaim) (res : Result) : Phase :=
  match c.task with
  | .tryAcquireCache _ => .done res
  | .tryAcquire _ | .acquire _ | .tryGrow _ _ =>
    match r with
    | none => if res = .errCapacity then .count else finish c res
    | some r => if res = .errCapacity ∧ r.last = false then .evict r else .uncount res

/-- The next attempt of a reclaim. A queued waiter's reads its channel only. -/
def retry (c : Call) (r : Reclaim) : Phase := if c.queued then .attempt (some r) else .check (some r)

/-- An attempt under the lock. -/
def attempt (i : Nat) (c : Call) : Result × Budget :=
  if c.queued then (if i ∈ s.granted then .ok else .errCapacity, s)
  else match c.task with
    | .tryAcquire n | .acquire n =>
      if s.queue ≠ [] ∨ ¬s.Fits n then (.errCapacity, s) else (.ok, s.lend i n)
    | .tryAcquireCache n =>
      if s.reclaiming ≠ 0 ∨ s.queue ≠ [] ∨ ¬s.Fits n then (.errCapacity, s) else (.ok, s.lend i n)
    | .tryGrow l n => match s.leases l with
      | none => (.errClosed, s)
      | some lease =>
        if lease.closed then (.errClosed, s)
        else if s.queue ≠ [] ∨ ¬s.Fits n then (.errCapacity, s)
        else (.ok, { s with
          used := s.used + n
          leases := Function.update s.leases l (some { lease with amount := lease.amount + n }) })

/-- A lease takes its end: its bytes are given back, and what now fits is granted. -/
def endLease (i : Nat) (amount : Int) : Budget :=
  grantLocked { s with
    used := s.used - amount
    leases := Function.update s.leases i (some { amount := 0, closed := true }) }

/-- `Lease.Close`. -/
def close (i : Nat) : Budget :=
  match s.leases i with
  | none => s
  | some l => if l.closed then s else s.endLease i l.amount

/-- `Lease.Release`. -/
def release (i : Nat) (n : Int) : Budget :=
  match s.leases i with
  | none => s
  | some l =>
    if n < 0 ∨ l.closed = true ∨ l.amount < n then s
    else grantLocked { s with
      used := s.used - n
      leases := Function.update s.leases i (some { l with amount := l.amount - n }) }

/-- `Acquire`'s section past the refusal of `TryAcquire`. -/
def enqueue (i : Nat) (c : Call) : Budget :=
  if s.limit < c.task.amount then s.setPhase i c (.done .errCapacity)
  else if s.queue = [] ∧ s.Fits c.task.amount then
    (s.lend i c.task.amount).setPhase i c (.done .ok)
  else
    { s.setPhase i { c with queued := true } (.attempt none) with
      queue := s.queue ++ [⟨i, c.task.amount⟩]
      ticket := Function.update s.ticket i s.tickets
      tickets := s.tickets + 1 }

/-- `Acquire`'s section past the end of its context. -/
def abandon (i : Nat) (c : Call) : Budget :=
  let queued := i ∈ s.queue.map Waiter.call
  let s := { s with queue := s.queue.filter (·.call ≠ i) }
  (s.endLease i (if queued then 0 else c.task.amount)).setPhase i c (.done .cancelled)

def startPhase : Task → Phase
  | .tryAcquire n => if s.limit < n then .done .errCapacity else .check none
  | .acquire n => if s.limit < n then .recheck else .check none
  | .tryAcquireCache _ | .tryGrow _ _ => .check none

end Budget

inductive Action where
  | start (task : Task)
  | cancel (i : Nat)
  | check (i : Nat)
  | attempt (i : Nat)
  | count (i : Nat)
  | evict (i : Nat) (evicted : Bool)
  | round (i : Nat)
  | uncount (i : Nat)
  | recheck (i : Nat)
  | enqueue (i : Nat)
  | takeGrant (i : Nat)
  | takeDone (i : Nat)
  | giveBack (i : Nat)
  | close (i : Nat)
  | release (i : Nat) (n : Int)
  | registerCache (cache : Nat)
  | unregisterCache (cache : Nat)
  deriving DecidableEq

namespace Budget

/-- The lease of the call is in its caller's hands. -/
def Handed (s : Budget) (i : Nat) : Prop :=
  ∃ c ∈ s.calls i, c.phase = .done .ok ∧ c.task.Leases

instance (s : Budget) (i : Nat) : Decidable (s.Handed i) :=
  inferInstanceAs (Decidable (∃ c ∈ s.calls i, _))

/-- A lease that a call is to grow is in its caller's hands. -/
def MayStart (s : Budget) : Task → Prop
  | .tryGrow l _ => s.Handed l
  | .tryAcquire _ | .acquire _ | .tryAcquireCache _ => True

instance (s : Budget) : DecidablePred s.MayStart
  | .tryGrow l _ => inferInstanceAs (Decidable (s.Handed l))
  | .tryAcquire _ | .acquire _ | .tryAcquireCache _ => .isTrue trivial

/-- What a check of the context leaves to do: a negative amount and an ended context are refused. -/
def checked (s : Budget) (i : Nat) (c : Call) (pass : Phase) (refused : Result → Phase) : Phase :=
  if c.task.amount < 0 then refused .errInvalid
  else if s.cancelled i then refused .cancelled
  else pass

def step (s : Budget) : Action → Option Budget
  | .start task =>
    if s.MayStart task then
      some { s with
        calls := Function.update s.calls s.next (some { task, phase := s.startPhase task })
        next := s.next + 1 }
    else none
  | .cancel i => some { s with cancelled := Function.update s.cancelled i true }
  | .check i => match s.calls i with
    | some ⟨task, .check r, q⟩ =>
      some (s.setPhase i ⟨task, .check r, q⟩ (s.checked i ⟨task, .check r, q⟩ (.attempt r)
        (afterAttempt ⟨task, .check r, q⟩ r)))
    | _ => none
  | .attempt i => match s.calls i with
    | some ⟨task, .attempt r, q⟩ =>
      let c : Call := ⟨task, .attempt r, q⟩
      some ((s.attempt i c).2.setPhase i c (afterAttempt c r (s.attempt i c).1))
    | _ => none
  | .count i => match s.calls i with
    | some ⟨task, .count, q⟩ =>
      some { s.setPhase i ⟨task, .count, q⟩ (.evict { caches := s.caches, todo := s.caches }) with
        reclaiming := s.reclaiming + 1 }
    | _ => none
  | .evict i evicted => match s.calls i with
    | some ⟨task, .evict ⟨caches, _ :: todo, progress, last⟩, q⟩ =>
      let c : Call := ⟨task, .evict ⟨caches, todo, progress, last⟩, q⟩
      if s.cancelled i then some (s.setPhase i c (.uncount .cancelled))
      else if evicted then some (s.setPhase i c (retry c ⟨caches, todo, true, last⟩))
      else some (s.setPhase i c (.evict ⟨caches, todo, progress, last⟩))
    | _ => none
  | .round i => match s.calls i with
    | some ⟨task, .evict ⟨caches, [], progress, last⟩, q⟩ =>
      let c : Call := ⟨task, .evict ⟨caches, [], progress, last⟩, q⟩
      if progress then some (s.setPhase i c (.evict ⟨caches, caches, false, last⟩))
      else some (s.setPhase i c (retry c ⟨caches, [], progress, true⟩))
    | _ => none
  | .uncount i => match s.calls i with
    | some ⟨task, .uncount res, q⟩ =>
      some { s.setPhase i ⟨task, .uncount res, q⟩ (finish ⟨task, .uncount res, q⟩ res) with
        reclaiming := s.reclaiming - 1 }
    | _ => none
  | .recheck i => match s.calls i with
    | some ⟨task, .recheck, q⟩ =>
      some (s.setPhase i ⟨task, .recheck, q⟩ (s.checked i ⟨task, .recheck, q⟩ .enqueue .done))
    | _ => none
  | .enqueue i => match s.calls i with
    | some ⟨task, .enqueue, q⟩ => some (s.enqueue i ⟨task, .enqueue, q⟩)
    | _ => none
  | .takeGrant i => match s.calls i with
    | some ⟨task, .select, q⟩ =>
      if i ∈ s.granted then
        some (s.setPhase i ⟨task, .select, q⟩ (if s.cancelled i then .giveBack else .done .ok))
      else none
    | _ => none
  | .takeDone i => match s.calls i with
    | some ⟨task, .select, q⟩ =>
      if s.cancelled i then some (s.abandon i ⟨task, .select, q⟩) else none
    | _ => none
  | .giveBack i => match s.calls i with
    | some ⟨task, .giveBack, q⟩ =>
      some ((s.close i).setPhase i ⟨task, .giveBack, q⟩ (.done .cancelled))
    | _ => none
  | .close i => if s.Handed i then some (s.close i) else none
  | .release i n => if s.Handed i then some (s.release i n) else none
  | .registerCache cache => some { s with caches := s.caches ++ [cache] }
  | .unregisterCache cache => some { s with caches := s.caches.erase cache }

/-- `New`: a budget of a limit that is not negative. -/
def new (limit : Nat) : Budget := { limit := limit }

end Budget

end Sproutfs.Resource.Memory
