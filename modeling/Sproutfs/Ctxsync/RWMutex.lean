import Sproutfs.Lib.Machine
import Sproutfs.Lib.Tally

/-!
# The context-aware reader/writer lock

The lock of internal/ctxsync/rwmutex.go with the calls made on it. A step is one critical section of
its mutex, or a blocked call going on because its channel was closed or its context was cancelled, so
a run is any interleaving of the calls. Channels are numbered as they are made: `changed` is the open
one, and every channel with a smaller number is closed.
-/

namespace Sproutfs.Ctxsync

/-- A call on the lock, where it stands: about to take the mutex, or blocked `on` a channel. What it
becomes is what it holds, or `gone` when it has returned with nothing or has released. -/
inductive Caller where
  | rlock (on : Option Nat)
  | tryRLock
  | waitReadable (on : Option Nat)
  | lock (registered : Bool)
  /-- A `Lock` that blocks, having registered, and one whose wait was cancelled, before it takes the
  mutex again. -/
  | lockWait (on : Nat)
  | canceled
  | tryLock
  /-- A call of `Writer`, and then the writer it makes until that takes the lock or leaves. -/
  | newWriter
  | writer
  /-- `Writer.Wait`, which changes nothing and may outlast its writer. -/
  | wait (on : Option Nat)
  | reads
  | writes
  | gone
  deriving DecidableEq

/-- The channel a blocked call waits on. -/
def Caller.on : Caller → Option Nat
  | .rlock on | .waitReadable on | .wait on => on
  | .lockWait on => some on
  | _ => none

/-- The calls as they are made. -/
def Caller.begun : Caller → Bool
  | .rlock none | .tryRLock | .waitReadable none | .lock false | .tryLock | .newWriter
  | .wait none => true
  | _ => false

def Caller.holds : Caller → Bool
  | .reads | .writes => true
  | _ => false

structure RWMutex where
  readers : Int := 0
  writer : Bool := false
  waiting : Int := 0
  changed : Nat := 0
  callers : Nat → Option Caller := fun _ => none
  next : Nat := 0

/-- What a call does next: its critical section, going on from its wait or being cancelled there, or
what its caller does with the writer or the lock it has. -/
inductive Act where
  | run
  | wake
  | cancel
  | tryLock
  | leave
  | unlock

inductive Action where
  | begin (c : Caller)
  | act (i : Nat) (act : Act)

namespace RWMutex

variable (m : RWMutex)

/-- The test a reader enters by. -/
def readable : Bool := !m.writer && m.waiting == 0

/-- The test a writer enters by. -/
def free : Bool := !m.writer && m.readers == 0

/-- The state would let a blocked call go on. -/
def admits : Caller → Bool
  | .rlock _ | .waitReadable _ => m.readable
  | .lockWait _ | .wait _ => m.free
  | _ => false

def set (i : Nat) (c : Caller) : RWMutex := { m with callers := Function.update m.callers i (some c) }

/-- What the call `i` does. Where the code panics there is no next state. -/
def act (i : Nat) : Act → Caller → Option RWMutex
  | .run, .rlock none =>
    some (if m.readable then { m.set i .reads with readers := m.readers + 1 }
      else m.set i (.rlock (some m.changed)))
  | .run, .tryRLock =>
    some (if m.writer || 0 < m.waiting then m.set i .gone
      else { m.set i .reads with readers := m.readers + 1 })
  | .run, .waitReadable none =>
    some (m.set i (if m.readable then .gone else .waitReadable (some m.changed)))
  | .run, .lock registered =>
    some (if m.free then
        { m.set i .writes with
          writer := true, waiting := if registered then m.waiting - 1 else m.waiting }
      else
        { m.set i (.lockWait m.changed) with
          waiting := if registered then m.waiting else m.waiting + 1 })
  | .run, .canceled => some { m.set i .gone with waiting := m.waiting - 1, changed := m.changed + 1 }
  | .run, .tryLock =>
    some (if m.writer || 0 < m.readers then m.set i .gone else { m.set i .writes with writer := true })
  | .run, .newWriter => some { m.set i .writer with waiting := m.waiting + 1 }
  | .run, .wait none => some (m.set i (if m.free then .gone else .wait (some m.changed)))
  -- A closed channel sends a call round its loop; `WaitReadable` has none and returns.
  | .wake, .rlock (some ch) => if ch < m.changed then some (m.set i (.rlock none)) else none
  | .wake, .waitReadable (some ch) => if ch < m.changed then some (m.set i .gone) else none
  | .wake, .lockWait ch => if ch < m.changed then some (m.set i (.lock true)) else none
  | .wake, .wait (some ch) => if ch < m.changed then some (m.set i (.wait none)) else none
  | .cancel, .rlock (some _) | .cancel, .waitReadable (some _) | .cancel, .wait (some _) =>
    some (m.set i .gone)
  | .cancel, .lockWait _ => some (m.set i .canceled)
  -- `TryLock` and `Leave` of a writer that is not done.
  | .tryLock, .writer =>
    some (if m.writer || 0 < m.readers then m
      else { m.set i .writes with writer := true, waiting := m.waiting - 1 })
  | .leave, .writer => some { m.set i .gone with waiting := m.waiting - 1, changed := m.changed + 1 }
  | .unlock, .reads =>
    if m.readers == 0 then none
    else some { m.set i .gone with readers := m.readers - 1, changed := m.changed + 1 }
  | .unlock, .writes =>
    if !m.writer then none else some { m.set i .gone with writer := false, changed := m.changed + 1 }
  | _, _ => none

def step : Action → Option RWMutex
  | .begin c => if c.begun then some { m.set m.next c with next := m.next + 1 } else none
  | .act i act => (m.callers i).bind (m.act i act)

end RWMutex

/-! What the callers add up to. -/

def reading : Option Caller → Int
  | some .reads => 1
  | _ => 0

def writing : Option Caller → Int
  | some .writes => 1
  | _ => 0

/-- The writers registered and not yet holding. -/
def registered : Option Caller → Int
  | some (.lock true) | some (.lockWait _) | some .canceled | some .writer => 1
  | _ => 0

end Sproutfs.Ctxsync
