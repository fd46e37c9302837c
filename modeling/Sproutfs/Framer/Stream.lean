import Sproutfs.Lib.Bytes
import Sproutfs.Lib.Machine

/-!
# Frames on a byte stream

One direction of a framed connection (`platform/internal/framer`). A frame is a prefix of 20 bytes
(magic, version, header length and payload length), its header and its payload. The sends of one end are
one after another, and so are the receives of the other; a received payload is read off the stream by
whoever reads the frame, and the next receive waits until it is read or closed.

A receive or a read of a body takes from the stream in pieces of any size, and may be cancelled, or fail,
after any of them. What is on the stream includes what the reader's buffer holds, which can be read after
the connection is closed; a receive on a closed connection may begin all the same, because it waits for
the close and for its turn at once. A send that fails before its first write puts nothing on the stream
and is no step; nor is one on a closed connection.
-/

namespace Sproutfs.Framer

open ByteCodec

/-- A number in `w` bytes, the highest first. -/
def be (w n : Nat) : Bytes := (le w n).reverse

def fromBE (b : Bytes) : Nat := fromLE b.reverse

structure Frame where
  header : Bytes := []
  payload : Bytes := []
  deriving DecidableEq

/-- What one end of a connection sends and accepts. -/
structure Limits where
  header : Nat := 2 ^ 20
  payload : Nat := 2 ^ 24
  header_lt : header < 2 ^ 32
  payload_lt : payload < 2 ^ 63

structure Config where
  sender : Limits
  receiver : Limits

def prefixSize : Nat := 20

def frameMagic : Bytes := [66, 84, 82, 70]

def framePrefix (f : Frame) : Bytes :=
  frameMagic ++ be 2 1 ++ be 2 0 ++ be 4 f.header.length ++ be 8 f.payload.length

def encode (f : Frame) : Bytes := framePrefix f ++ (f.header ++ f.payload)

/-- The prefix is a frame's: the lengths it gives, of a header and a payload. -/
def parsePrefix (b : Bytes) : Option (Nat × Nat) :=
  if slice b 0 4 ≠ frameMagic ∨ fromBE (slice b 4 2) ≠ 1 then none
  else some (fromBE (slice b 8 4), fromBE (slice b 12 8))

/-- What a receiver has of a frame's payload: it may read on, it read to the end, or it closed it. -/
inductive Payload where
  | reading
  | ended
  | closed
  deriving DecidableEq, Repr

/-- A frame a receive returned. -/
structure Received where
  header : Bytes
  size : Nat
  /-- What has been read of the payload. -/
  got : Bytes := []
  payload : Payload := .reading
  deriving DecidableEq

/-- Who has the receive direction. -/
inductive Reader where
  | free
  /-- A receive reads the prefix. -/
  | head (got : Bytes)
  /-- A receive reads the header. -/
  | header (size payload : Nat) (got : Bytes)
  /-- The body of the frame last returned, and whether the context it was received under is done. -/
  | body (remaining : Nat) (cancelled : Bool)
  deriving DecidableEq

structure Conn where
  stream : Bytes := []
  /-- What the send in progress has yet to write. -/
  sending : Option Bytes := none
  sendClosed : Bool := false
  reader : Reader := .free
  closed : Bool := false
  /-- History: the frames whose sends began; what a send that failed did not write; the frames received;
  and that a receive or a body left a frame half read. -/
  sent : List Frame := []
  lost : Bytes := []
  received : List Received := []
  half : Bool := false
  deriving DecidableEq

inductive Action where
  | sends (frame : Frame)
  | puts (n : Nat)
  | sendEnds
  | sendFails
  | begins
  | reads (n : Nat)
  /-- The prefix, or the header, is read whole. -/
  | completes
  /-- A receive is cancelled, or fails. -/
  | fails
  /-- The context the body was received under is done. -/
  | cancels
  /-- A body is closed: `n` bytes are discarded, all that remain unless that fails. -/
  | discards (n : Nat) (ok : Bool)
  | shuts
  deriving DecidableEq

namespace Conn

/-- The frame last received, changed. -/
def setLast (f : Received → Received) (l : List Received) : List Received := l.modify (l.length - 1) f

def returns (s : Conn) (header : Bytes) (payload : Nat) : Conn :=
  { s with
    received := s.received ++ [⟨header, payload, [], if payload = 0 then .ended else .reading⟩]
    reader := if payload = 0 then .free else .body payload false }

def step (c : Config) (s : Conn) : Action → Option Conn
  | .sends f =>
    if s.sending = none ∧ s.sendClosed = false ∧ f.header.length ≤ c.sender.header ∧
        f.payload.length ≤ c.sender.payload then
      some { s with sending := some (encode f), sent := s.sent ++ [f] }
    else none
  | .puts n => match s.sending with
    | none => none
    | some rest =>
      if s.sendClosed = false then
        some { s with stream := s.stream ++ rest.take n, sending := some (rest.drop n) }
      else none
  | .sendEnds => if s.sending = some [] then some { s with sending := none } else none
  | .sendFails => match s.sending with
    | none => none
    | some rest => some { s with sending := none, lost := rest, sendClosed := true }
  | .begins => if s.reader = .free then some { s with reader := .head [] } else none
  | .reads n =>
    if n ≤ s.stream.length then
      match s.reader with
      | .free => none
      | .head got =>
        if got.length + n ≤ prefixSize then
          some { s with reader := .head (got ++ s.stream.take n), stream := s.stream.drop n }
        else none
      | .header size payload got =>
        if got.length + n ≤ size then
          some { s with reader := .header size payload (got ++ s.stream.take n), stream := s.stream.drop n }
        else none
      | .body remaining cancelled =>
        if n ≤ remaining ∧ cancelled = false then
          let ends : Bool := n = remaining
          some { s with
            reader := if ends then .free else .body (remaining - n) false
            stream := s.stream.drop n
            received := setLast (fun r => { r with
              got := r.got ++ s.stream.take n
              payload := if ends then .ended else r.payload }) s.received }
        else none
    else none
  | .completes => match s.reader with
    | .head got =>
      if got.length = prefixSize then
        match parsePrefix got with
        | none => some { s with reader := .free, closed := true, half := true }
        | some (size, payload) =>
          if c.receiver.header < size ∨ c.receiver.payload < payload then
            some { s with reader := .free, closed := true, half := true }
          else some { s with reader := .header size payload [] }
      else none
    | .header size payload got => if got.length = size then some (s.returns got payload) else none
    | _ => none
  | .fails => match s.reader with
    | .head got => some { s with reader := .free, half := s.half || got ≠ [] }
    | .header _ _ _ => some { s with reader := .free, half := true }
    | _ => none
  | .cancels => match s.reader with
    | .body remaining _ => some { s with reader := .body remaining true, half := true }
    | _ => none
  | .discards n ok => match s.reader with
    | .body remaining cancelled =>
      if n ≤ remaining ∧ n ≤ s.stream.length ∧ (cancelled → n = 0 ∧ ok = false) ∧ (ok → n = remaining) then
        some { s with
          reader := .free
          stream := s.stream.drop n
          closed := s.closed || !ok
          half := s.half || n ≠ remaining
          received := setLast (fun r => { r with payload := .closed }) s.received }
      else none
    | _ => none
  | .shuts => some { s with closed := true }

end Conn

end Sproutfs.Framer
