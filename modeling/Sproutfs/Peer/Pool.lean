import Sproutfs.Lib.Machine
import Sproutfs.Lib.Tally

/-!
# A pool of connections to a peer

One class's `pool` of `peer/table.go` with its connections (`peer/conn.go`) and their pings
(`peer/liveness.go`). A request goes from one point where other goroutines may come between to the
next: the sections of `acquire` under the pool's lock, the parts of a dial, the wait for the
connection's send token, the section that numbers and registers it, the write of its frame, the wait for
its reply. Each connection has a reader that takes one reply at a time, and one `fail` that takes effect,
which anyone may begin at any moment.

A request's `custody` is history: who is to give back what it holds of the pool.

Left out: what the requests and replies carry, the times a connection was heard and used, the probes,
what is known of the peer being up, and the wait for a pong. A ping takes the send token, its number and
its place among the pending requests in one step.
-/

namespace Sproutfs.Peer

/-- What a connection's table of pending requests holds under a number. -/
inductive Waiting where
  | request (r : Nat)
  | ping
  deriving DecidableEq

/-- How far `fail` has come, with the pending requests it took. -/
inductive Stage where
  | live
  | failed (left : List (Nat × Waiting))
  | removed (left : List (Nat × Waiting))
  deriving DecidableEq

def Stage.left : Stage → List (Nat × Waiting)
  | .live => []
  | .failed left | .removed left => left

inductive Reader where
  | receiving
  /-- It took a request out of the table by the number a reply names, and read the reply. -/
  | took (number r : Nat)
  /-- It gave back what the request held. -/
  | answers (number r : Nat)
  | ended
  deriving DecidableEq

structure Conn where
  maxInFlight : Nat
  inflight : Int := 0
  /-- The last number given to a request. -/
  next : Nat := 0
  /-- The send token is on its channel. -/
  send : Bool := true
  pending : List (Nat × Waiting) := []
  stage : Stage := .live
  reader : Reader := .receiving
  /-- History: the request that dialed the connection put it in the pool. -/
  put : Bool := false
  deriving DecidableEq

/-- The requests the connection has: those pending, and those its `fail` took. -/
def Conn.entries (k : Conn) : List (Nat × Waiting) := k.pending ++ k.stage.left

inductive Custody where
  | nobody
  | caller
  | conn
  | reader
  | returned
  deriving DecidableEq

/-- The request holds bytes of the pool's budget. -/
def Custody.Holds : Custody → Prop
  | .caller | .conn | .reader => True
  | .nobody | .returned => False

instance : DecidablePred Custody.Holds
  | .caller | .conn | .reader => .isTrue trivial
  | .nobody | .returned => .isFalse not_false

inductive Result where
  | ok
  | failed
  | cancelled
  | errClosed
  deriving DecidableEq

inductive Phase where
  | acquiring
  | waiting
  /-- A dial: before the hello is answered, past it, with an error to report, and with the connection. -/
  | dialing
  | helloed (maxInFlight : Nat)
  | dialErr
  | dialed (c : Nat)
  /-- The pool has been told of the failed dial; the bytes are to be given back. -/
  | dialFailed
  /-- A slot on a connection is taken. -/
  | ready (c : Nat)
  | sending (c number : Nat)
  | refused (c : Nat)
  | leaving (c : Nat)
  | sent (c number : Nat)
  | sendFailed (c number : Nat)
  | awaiting (c number : Nat)
  /-- The caller gave up as the reply arrived. -/
  | draining
  | done (res : Result)
  deriving DecidableEq

/-- The request is counted among the dials. -/
def Phase.Dials : Phase → Prop
  | .dialing | .helloed _ | .dialErr | .dialed _ => True
  | .acquiring | .waiting | .dialFailed | .ready _ | .sending _ _ | .refused _ | .leaving _ | .sent _ _
  | .sendFailed _ _ | .awaiting _ _ | .draining | .done _ => False

instance : DecidablePred Phase.Dials
  | .dialing | .helloed _ | .dialErr | .dialed _ => .isTrue trivial
  | .acquiring | .waiting | .dialFailed | .ready _ | .sending _ _ | .refused _ | .leaving _ | .sent _ _
  | .sendFailed _ _ | .awaiting _ _ | .draining | .done _ => .isFalse not_false

inductive Reply where
  /-- The reply that named a number on a connection. -/
  | answered (c number : Nat)
  | failed
  deriving DecidableEq

structure Request where
  bytes : Nat
  phase : Phase := .acquiring
  /-- The connection and the number the request was sent under. -/
  number : Option (Nat × Nat) := none
  reply : Option Reply := none
  abandoned : Bool := false
  /-- History: the connection it has a slot on, who gives back what it holds, and how often that was
  given back. -/
  slot : Option Nat := none
  custody : Custody := .nobody
  given : Nat := 0
  deriving DecidableEq

structure Pool where
  limit : Nat
  conns : List Nat := []
  dialing : Nat := 0
  held : Int := 0
  budget : Int
  heard : Bool := false
  closed : Bool := false
  tableClosed : Bool := false
  table : Nat → Option Conn := fun _ => none
  nextConn : Nat := 0
  requests : Nat → Option Request := fun _ => none
  next : Nat := 0

namespace Pool

variable (s : Pool)

def setRequest (r : Nat) (q : Request) : Pool :=
  { s with requests := Function.update s.requests r (some q) }

def setConn (c : Nat) (k : Conn) : Pool := { s with table := Function.update s.table c (some k) }

/-- `leastLoaded`: the connection with the fewest requests in flight and room for another, the earliest
dialed of equals, with that count. -/
def leastLoaded : Option (Nat × Conn) :=
  s.conns.foldl (fun best c => match s.table c with
    | none => best
    | some k =>
      if k.inflight < k.maxInFlight ∧ ∀ b ∈ best, k.inflight < b.2.inflight then some (c, k) else best)
    none

/-- There is room for a request of the bytes: a class that has not heard its budget asks for one at a
time, and a request larger than the budget is sent alone. -/
def Room (bytes : Nat) : Prop :=
  (s.heard = true ∨ s.dialing = 0) ∧ (s.held + bytes ≤ s.budget ∨ s.held = 0)

instance (bytes : Nat) : Decidable (s.Room bytes) := inferInstanceAs (Decidable (_ ∧ _))

/-- The section of `acquire` that looks for room. -/
def look (r : Nat) (q : Request) : Pool :=
  if s.closed then s.setRequest r { q with phase := .done .errClosed }
  else if s.Room q.bytes then
    match s.leastLoaded with
    | some (c, k) =>
      { (s.setConn c { k with inflight := k.inflight + 1 }).setRequest r
          { q with phase := .ready c, slot := some c, custody := .caller } with
        held := s.held + q.bytes }
    | none =>
      if s.conns.length + s.dialing < s.limit then
        { s.setRequest r { q with phase := .dialing, custody := .caller } with
          dialing := s.dialing + 1
          held := s.held + q.bytes }
      else s.setRequest r { q with phase := .waiting }
  else s.setRequest r { q with phase := .waiting }

/-- `release`: what a request held is given back. -/
def release (c : Nat) (k : Conn) (r : Nat) (q : Request) : Pool :=
  { (s.setConn c { k with inflight := k.inflight - 1 }).setRequest r
      { q with custody := .returned, given := q.given + 1 } with
    held := s.held - q.bytes }

end Pool

/-- The points of `acquire` and of a dial. -/
inductive Acquiring where
  | look
  /-- A waiting request is woken, or its context or its turn ends. -/
  | wakes
  | givesUp
  /-- The dial's hello is answered, with what the peer says of its budget. -/
  | hello (maxInFlight : Nat) (budget : Option Nat)
  | dialFails
  | opens
  | dialEnds
  | dialReturns
  | puts
  deriving DecidableEq

/-- The points of `roundTrip`. -/
inductive Tripping where
  | leaves
  | takesSend
  | registers
  | returnsSend
  | releases
  | sends (ok : Bool)
  | forgets
  | receives
  | abandons
  deriving DecidableEq

/-- What happens at a connection: its pings, its reader and its `fail`. -/
inductive Happening where
  | pings
  | pingForgets (number : Nat)
  /-- A reply that names a number arrives. -/
  | replies (number : Nat)
  | readerReleases
  | readerDelivers (ok : Bool)
  | readerEnds
  | fails
  | removes
  | failReleases
  deriving DecidableEq

inductive Action where
  | start (bytes : Nat)
  | acquires (r : Nat) (a : Acquiring)
  | trips (r : Nat) (a : Tripping)
  | happens (c : Nat) (a : Happening)
  | closesTable
  | closesPool
  deriving DecidableEq

namespace Pool

/-- What a request does next, at the points of `acquire`. -/
def acquires (s : Pool) (r : Nat) (q : Request) : Acquiring → Option Pool
  | .look => if q.phase = .acquiring then some (s.look r q) else none
  | .wakes => if q.phase = .waiting then some (s.setRequest r { q with phase := .acquiring }) else none
  | .givesUp =>
    if q.phase = .waiting then some (s.setRequest r { q with phase := .done .cancelled }) else none
  | .hello n budget =>
    if q.phase = .dialing ∧ 0 < n then
      some { s.setRequest r { q with phase := .helloed n } with
        heard := true
        budget := match budget with
          | none => s.budget
          | some b => b }
    else none
  | .dialFails => if q.phase = .dialing then some (s.setRequest r { q with phase := .dialErr }) else none
  | .opens => match q.phase with
    | .helloed n =>
      if s.tableClosed then some (s.setRequest r { q with phase := .dialErr })
      else some { (s.setConn s.nextConn { maxInFlight := n }).setRequest r
          { q with phase := .dialed s.nextConn } with
        nextConn := s.nextConn + 1 }
    | _ => none
  | .dialEnds =>
    if q.phase = .dialErr then
      some { s.setRequest r { q with phase := .dialFailed } with dialing := s.dialing - 1 }
    else none
  | .dialReturns =>
    if q.phase = .dialFailed then
      some { s.setRequest r
          { q with phase := .done .failed, custody := .returned, given := q.given + 1 } with
        held := s.held - q.bytes }
    else none
  | .puts => match q.phase with
    | .dialed c => (s.table c).map fun k =>
      { (s.setConn c { k with inflight := k.inflight + 1, put := true }).setRequest r
          { q with phase := .ready c, slot := some c } with
        dialing := s.dialing - 1
        conns := s.conns ++ [c] }
    | _ => none

/-- What a request does next, at the points of `roundTrip`. -/
def trips (s : Pool) (r : Nat) (q : Request) : Tripping → Option Pool
  | .leaves => match q.phase with
    | .ready c => (s.table c).map fun k => s.release c k r { q with phase := .done .cancelled }
    | _ => none
  | .takesSend => match q.phase with
    | .ready c => (s.table c).bind fun k =>
      if k.send then
        some ((s.setConn c { k with send := false, next := k.next + 1 }).setRequest r
          { q with phase := .sending c (k.next + 1), number := some (c, k.next + 1) })
      else none
    | _ => none
  | .registers => match q.phase with
    | .sending c n => (s.table c).map fun k =>
      if k.stage = .live then
        (s.setConn c { k with pending := k.pending ++ [(n, .request r)] }).setRequest r
          { q with phase := .sent c n, custody := .conn }
      else s.setRequest r { q with phase := .refused c }
    | _ => none
  | .returnsSend => match q.phase with
    | .refused c => (s.table c).map fun k =>
      (s.setConn c { k with send := true }).setRequest r { q with phase := .leaving c }
    | _ => none
  | .releases => match q.phase with
    | .leaving c => (s.table c).map fun k => s.release c k r { q with phase := .done .failed }
    | _ => none
  | .sends ok => match q.phase with
    | .sent c n => (s.table c).map fun k =>
      (s.setConn c { k with send := true }).setRequest r
        { q with phase := if ok then .awaiting c n else .sendFailed c n }
    | _ => none
  | .forgets => match q.phase with
    | .sendFailed c n => (s.table c).map fun k =>
      if (n, .request r) ∈ k.pending then
        (s.setConn c { k with pending := k.pending.filter (·.1 ≠ n) }).setRequest r
          { q with phase := .leaving c, custody := .caller }
      else s.setRequest r { q with phase := .done .failed }
    | _ => none
  | .receives => match q.phase with
    | .awaiting _ _ =>
      if q.reply = none then none else some (s.setRequest r { q with phase := .done .ok })
    | .draining =>
      if q.reply = none then none else some (s.setRequest r { q with phase := .done .cancelled })
    | _ => none
  | .abandons => match q.phase with
    | .awaiting c n => (s.table c).map fun k =>
      if (n, .request r) ∈ k.pending then
        s.setRequest r { q with phase := .done .cancelled, abandoned := true }
      else s.setRequest r { q with phase := .draining }
    | _ => none

def happens (s : Pool) (c : Nat) (k : Conn) : Happening → Option Pool
  | .pings =>
    if k.send = true ∧ k.stage = .live then
      some (s.setConn c { k with next := k.next + 1, pending := k.pending ++ [(k.next + 1, .ping)] })
    else none
  | .pingForgets n =>
    if (n, .ping) ∈ k.pending then
      some (s.setConn c { k with pending := k.pending.filter (· ≠ (n, .ping)) })
    else none
  | .replies n =>
    if k.reader = .receiving then
      match k.pending.find? (·.1 = n) with
      | some (_, .request r) =>
        (s.requests r).map fun q =>
          (s.setConn c { k with pending := k.pending.filter (·.1 ≠ n), reader := .took n r }).setRequest r
            { q with custody := .reader }
      | some (_, .ping) => some (s.setConn c { k with pending := k.pending.filter (· ≠ (n, .ping)) })
      | none => some s
    else none
  | .readerReleases => match k.reader with
    | .took n r => (s.requests r).map fun q => s.release c { k with reader := .answers n r } r q
    | _ => none
  | .readerDelivers ok => match k.reader with
    | .answers n r => (s.requests r).map fun q =>
      if ok then
        (s.setConn c { k with reader := .receiving }).setRequest r
          (if q.abandoned then q else { q with reply := some (.answered c n) })
      else
        (s.setConn c { k with reader := .ended }).setRequest r { q with reply := some .failed }
    | _ => none
  | .readerEnds => if k.reader = .receiving then some (s.setConn c { k with reader := .ended }) else none
  | .fails =>
    if k.stage = .live then some (s.setConn c { k with stage := .failed k.pending, pending := [] })
    else none
  | .removes => match k.stage with
    | .failed left =>
      some { s.setConn c { k with stage := .removed left } with conns := s.conns.filter (· ≠ c) }
    | _ => none
  | .failReleases => match k.stage with
    | .removed ((_, .ping) :: left) => some (s.setConn c { k with stage := .removed left })
    | .removed ((_, .request r) :: left) => (s.requests r).map fun q =>
      s.release c { k with stage := .removed left } r { q with reply := some .failed }
    | _ => none

def step (s : Pool) : Action → Option Pool
  | .start bytes =>
    some { s.setRequest s.next { bytes } with next := s.next + 1 }
  | .closesTable => some { s with tableClosed := true }
  | .closesPool => some { s with closed := true }
  | .acquires r a => (s.requests r).bind fun q => s.acquires r q a
  | .trips r a => (s.requests r).bind fun q => s.trips r q a
  | .happens c a => (s.table c).bind fun k => s.happens c k a

/-- A pool no request has used. -/
def new (limit : Nat) (budget : Int) : Pool := { limit, budget }

end Pool

end Sproutfs.Peer
